import PackedLogic.Json.Scan
set_option autoImplicit false

/-!
# Numerals

A numeral is a sign, the digits before the point, the digits after it and an exponent, the last two
of which may be missing.  Only one distinction is made between numbers: a plain numeral without
sign, point and exponent is a natural number as long as it is below 2^64, and everything else is
another number.  A number too large for double precision is refused.
-/

namespace PackedLogic.Json

/-- A number as it is written. -/
structure Numeral where
  negative : Bool
  /-- The digits before the point. -/
  whole : List Nat
  /-- The digits after the point. -/
  fraction? : Option (List Nat)
  /-- Whether the exponent is negative, and its digits. -/
  exponent? : Option (Bool × List Nat)
  deriving DecidableEq, Repr

/-! ## Scanning -/

/-- The value of a decimal digit. -/
def digitValue (c : Char) : Nat := c.toNat - '0'.toNat

/-- Reads all digits at the front, perhaps none. -/
def digits (s : List Char) : List Nat × Rest s :=
  ((s.takeWhile Char.isDigit).map digitValue, ⟨s.dropWhile Char.isDigit, (List.dropWhile_sublist _).length_le⟩)

/-- Reads all digits at the front, at least one. -/
def someDigits : Scan (List Nat) := fun s =>
  match digits s with
  | ([], _) => .error (unexpected s)
  | (d :: ds, r) => .ok (d :: ds, r)

/-- Reads the digits before the point, of which `c` is the first.  A zero stands alone. -/
def wholePart (c : Char) : Scan (List Nat) := fun s =>
  if c = '0' then
    if (s.takeWhile Char.isDigit).isEmpty then .ok ([0], .all s) else .error .malformed
  else if c.isDigit then
    let (ds, r) := digits s
    .ok (digitValue c :: ds, r)
  else .error .malformed

/-- Reads a point and the digits after it, if there is a point. -/
def fractionPart : Scan (Option (List Nat)) := fun s =>
  match s with
  | '.' :: t => do
    let (ds, r) ← someDigits t
    return (some ds, r.cons '.')
  | s => .ok (none, .all s)

/-- Passes over a sign, if there is one, and says whether it is negative. -/
def exponentSign (s : List Char) : Bool × Rest s :=
  match s with
  | '-' :: t => (true, .cons '-' (.all t))
  | '+' :: t => (false, .cons '+' (.all t))
  | s => (false, .all s)

/-- Reads an exponent, if there is one. -/
def exponentPart : Scan (Option (Bool × List Nat)) := fun s =>
  match s with
  | [] => .ok (none, .all [])
  | c :: t =>
    if c = 'e' ∨ c = 'E' then do
      let (negative, r) := exponentSign t
      let (ds, q) ← someDigits r.1
      return (some (negative, ds), (r.trans q).cons c)
    else .ok (none, .all (c :: t))

/-- Reads a numeral without sign, of which `c` is the first character. -/
def unsignedNumeral (negative : Bool) (c : Char) : Scan Numeral := fun s => do
  let (whole, r) ← wholePart c s
  let (fraction?, r') ← fractionPart r.1
  let (exponent?, r'') ← exponentPart r'.1
  return ({ negative, whole, fraction?, exponent? }, (r.trans r').trans r'')

/-- Reads a numeral, of which `c` is the first character. -/
def numeral (c : Char) : Scan Numeral := fun s =>
  if c = '-' then
    match s with
    | [] => .error .truncated
    | d :: t => do
      let (n, r) ← unsignedNumeral true d t
      return (n, r.cons d)
  else unsignedNumeral false c s

/-! ## Values -/

/-- The number that a row of digits denotes. -/
def ofDigits (ds : List Nat) : Nat := ds.foldl (fun n d => 10 * n + d) 0

namespace Numeral

/-- The value of a plain numeral below 2^64. -/
def natural? (n : Numeral) : Option Nat :=
  if n.negative = false ∧ n.fraction? = none ∧ n.exponent? = none ∧ ofDigits n.whole < UInt64.size then
    some (ofDigits n.whole)
  else none

end Numeral

/-- Appends digits to a number as long as it stays below 2^64; yields the number and how many
digits were left out. -/
def takeDigits (n : Nat) : List Nat → Nat × Nat
  | [] => (n, 0)
  | d :: ds => if 10 * n + d < UInt64.size then takeDigits (10 * n + d) ds else (n, ds.length + 1)

/-- A natural number rounded to the 53 leading bits that double precision keeps, a tie to the even
neighbour. -/
def roundToDouble (n : Nat) : Nat :=
  let shift := n.log2 - 52
  let quotient := n >>> shift
  let twice := 2 * (n % 1 <<< shift)
  let up := twice > 1 <<< shift ∨ (twice = 1 <<< shift ∧ quotient % 2 = 1)
  (if up then quotient + 1 else quotient) <<< shift

/-- The least number that rounds past the largest of double precision. -/
def doubleOverflow : Nat := 1 <<< 1024 - 1 <<< 970

namespace Numeral

/-- The leading digits of the numeral, as many as stay below 2^64, and the power of ten that scales
them. -/
def scaled (n : Numeral) : Nat × Int :=
  let (leading, dropped) := takeDigits 0 n.whole
  let fraction := n.fraction?.getD []
  let (significand, ignored) := takeDigits leading fraction
  let exponent : Int := match n.exponent? with
    | some (true, ds) => -(ofDigits ds : Int)
    | some (false, ds) => ofDigits ds
    | none => 0
  (significand, (dropped : Int) - ((fraction.length - ignored : Nat) : Int) + exponent)

/-- The numeral is small enough for double precision: the product of its leading digits and its
power of ten, each rounded, does not overflow. -/
def fitsDouble (n : Numeral) : Bool :=
  match n.scaled with
  | (significand, .ofNat exponent) =>
    significand = 0 ||
      (exponent ≤ 308 &&
        roundToDouble significand * roundToDouble (Nat.pow 10 exponent) < doubleOverflow)
  | (_, .negSucc _) => true

end Numeral

end PackedLogic.Json
