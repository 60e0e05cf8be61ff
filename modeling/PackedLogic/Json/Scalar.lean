import PackedLogic.Json.Numeral
import PackedLogic.Json.Quoted
set_option autoImplicit false

/-!
# Scalars

The values that hold no other values.  `scalar` reads one completely, so that a number out of range
or a string with a lone surrogate is refused; `skipScalar` only looks at its form, and knows no
early end of a number.
-/

namespace PackedLogic.Json

/-- A value that holds no other values. -/
inductive Scalar
  | null
  | bool (b : Bool)
  /-- A plain natural number below 2^64. -/
  | natural (n : Nat)
  /-- Any other number. -/
  | otherNumber
  | string (content : List Char)
  deriving DecidableEq, Repr

/-- A number begins with this character. -/
def startsNumber (c : Char) : Bool := c == '-' || c.isDigit

/-- The value of a numeral, unless it is too large for double precision. -/
def Numeral.toScalar (n : Numeral) : Except TextFault Scalar :=
  match n.natural? with
  | some v => .ok (.natural v)
  | none => if n.fitsDouble then .ok .otherNumber else .error .malformed

/-- Reads a scalar, of which `c` is the first character. -/
def scalar (c : Char) : Scan Scalar := fun s =>
  if c = 'n' then do
    let r ← word ['u', 'l', 'l'] s
    return (.null, r)
  else if c = 't' then do
    let r ← word ['r', 'u', 'e'] s
    return (.bool true, r)
  else if c = 'f' then do
    let r ← word ['a', 'l', 's', 'e'] s
    return (.bool false, r)
  else if c = '"' then do
    let (content, r) ← quoted s
    return (.string content, r)
  else if startsNumber c then do
    let (n, r) ← numeral c s
    let v ← n.toScalar
    return (v, r)
  else .error .malformed

/-- Passes over a scalar, of which `c` is the first character. -/
def skipScalar (c : Char) : Skip := fun s =>
  if c = 'n' then word ['u', 'l', 'l'] s
  else if c = 't' then word ['r', 'u', 'e'] s
  else if c = 'f' then word ['a', 'l', 's', 'e'] s
  else if c = '"' then skipString s
  else if startsNumber c then
    match numeral c s with
    | .ok (_, r) => .ok r
    | .error _ => .error .malformed
  else .error .malformed

end PackedLogic.Json
