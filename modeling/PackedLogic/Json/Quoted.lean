import PackedLogic.Json.Scan
set_option autoImplicit false

/-!
# Quoted strings

A string stands between quotes.  A backslash begins an escape: one of eight letters, or `u` and the
four hexadecimal digits of a UTF-16 code unit.  Strings are read in two ways: `quoted` decodes them
and accepts only paired surrogates, `skipString` passes over them and accepts any code unit.  Both
begin after the opening quote and refuse control characters.
-/

namespace PackedLogic.Json

/-- The value of a hexadecimal digit. -/
def hexDigit? (c : Char) : Option Nat :=
  if '0' ≤ c ∧ c ≤ '9' then some (c.toNat - '0'.toNat)
  else if 'a' ≤ c ∧ c ≤ 'f' then some (c.toNat - 'a'.toNat + 10)
  else if 'A' ≤ c ∧ c ≤ 'F' then some (c.toNat - 'A'.toNat + 10)
  else none

/-- The value of four hexadecimal digits. -/
def hexValue? (a b c d : Char) : Option Nat := do
  let a ← hexDigit? a
  let b ← hexDigit? b
  let c ← hexDigit? c
  let d ← hexDigit? d
  return ((a * 16 + b) * 16 + c) * 16 + d

/-- The number of bytes that a text takes in UTF-8. -/
def utf8Bytes (s : List Char) : Nat := s.foldr (fun c n => c.utf8Size + n) 0

/-- Reads the four hexadecimal digits of a code unit.  A text of less than four bytes ends too
early. -/
def codeUnit : Scan Nat
  | a :: b :: c :: d :: s =>
    match hexValue? a b c d with
    | some n => .ok (n, .cons a (.cons b (.cons c (.cons d (.all s)))))
    | none => .error .malformed
  | s => if utf8Bytes s < 4 then .error .truncated else .error .malformed

/-- What a letter after a backslash stands for. -/
def letterEscape? : Char → Option Char
  | '"' => some '"'
  | '\\' => some '\\'
  | '/' => some '/'
  | 'b' => some '\x08'
  | 'f' => some '\x0c'
  | 'n' => some '\n'
  | 'r' => some '\r'
  | 't' => some '\t'
  | _ => none

/-- The code unit is the first of a pair. -/
def isHighSurrogate (n : Nat) : Bool := 0xD800 ≤ n && n < 0xDC00

/-- The code unit is the second of a pair. -/
def isLowSurrogate (n : Nat) : Bool := 0xDC00 ≤ n && n < 0xE000

/-- The code point of a pair of surrogates. -/
def pairedCodePoint (high low : Nat) : Nat := (high - 0xD800) * 0x400 + (low - 0xDC00) + 0x10000

/-! ## Decoding -/

/-- Reads the second code unit of a pair, with its backslash and letter. -/
def lowSurrogate : Scan Nat := fun s => do
  let r ← expect '\\' s
  let r' ← expect 'u' r.1
  let (n, r'') ← codeUnit r'.1
  if isLowSurrogate n then return (n, (r.trans r').trans r'') else throw .malformed

/-- Reads the digits of an escaped character, and the second code unit of a pair. -/
def unicodeEscape : Scan Char := fun s => do
  let (n, r) ← codeUnit s
  if isLowSurrogate n then throw .malformed
  else if isHighSurrogate n then
    let (low, q) ← lowSurrogate r.1
    return (Char.ofNat (pairedCodePoint n low), r.trans q)
  else return (Char.ofNat n, r)

/-- Reads what follows a backslash. -/
def escape : Scan Char
  | [] => .error .truncated
  | c :: s =>
    if c = 'u' then do
      let (decoded, r) ← unicodeEscape s
      return (decoded, r.cons c)
    else match letterEscape? c with
      | some decoded => .ok (decoded, .cons c (.all s))
      | none => .error .malformed

/-- Reads and decodes a string up to the closing quote. -/
def quoted (s : List Char) : Except TextFault (List Char × Rest s) :=
  match s with
  | [] => .error .truncated
  | c :: s =>
    if c = '"' then .ok ([], .cons c (.all s))
    else if c = '\\' then do
      let (decoded, r) ← escape s
      have : r.1.length ≤ s.length := r.2
      let (content, q) ← quoted r.1
      return (decoded :: content, (r.trans q).cons c)
    else if c < ' ' then .error .malformed
    else do
      let (content, r) ← quoted s
      return (c :: content, r.cons c)
termination_by s.length
decreasing_by
  · exact Nat.lt_succ_of_le this
  · exact Nat.lt_succ_self _

/-! ## Passing over -/

/-- Checks that a backslash may be followed by this letter and text.  The digits of a code unit are
ordinary characters of the string. -/
def checkEscape (c : Char) (s : List Char) : Except TextFault Unit :=
  if c = 'u' then do
    let _ ← codeUnit s
    return ()
  else if (letterEscape? c).isSome then .ok ()
  else .error .malformed

/-- The text behind the closing quote. -/
def skipQuoted : (s : List Char) → Except TextFault (List Char)
  | [] => .error .truncated
  | c :: s =>
    if c = '"' then .ok s
    else if c = '\\' then
      match s with
      | [] => .error .truncated
      | e :: s =>
        match checkEscape e s with
        | .ok () => skipQuoted s
        | .error fault => .error fault
    else if c < ' ' then .error .malformed
    else skipQuoted s

theorem length_of_skipQuoted {s r : List Char} (h : skipQuoted s = .ok r) :
    r.length ≤ s.length := by
  fun_induction skipQuoted s with
  | case2 => cases h; exact Nat.le_succ _
  | case4 _ _ _ _ ih => exact Nat.le_trans (ih h) (by simp only [List.length_cons]; omega)
  | case7 _ _ _ _ _ ih => exact Nat.le_trans (ih h) (Nat.le_succ _)
  | _ => cases h

/-- Passes over a string up to the closing quote. -/
def skipString : Skip := fun s =>
  match h : skipQuoted s with
  | .ok r => .ok ⟨r, length_of_skipQuoted h⟩
  | .error fault => .error fault

end PackedLogic.Json
