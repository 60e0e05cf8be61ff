import PackedLogic.Fault
set_option autoImplicit false

/-!
# Scanning a text

A scanner reads something at the front of a text and returns what is left of it, with the proof that
nothing was added.  That proof is what lets every loop over a text end.  The text is read once from
left to right, and the first problem met is the fault of the whole.
-/

namespace PackedLogic.Json

/-- What is left of a text after something at its front was read. -/
abbrev Rest (s : List Char) : Type := { rest : List Char // rest.length ≤ s.length }

namespace Rest

variable {s : List Char}

/-- All of the text is left. -/
def all (s : List Char) : Rest s := ⟨s, Nat.le_refl _⟩

/-- What is left of a text is left of a text with one more character in front. -/
def cons (c : Char) (r : Rest s) : Rest (c :: s) := ⟨r.1, Nat.le_succ_of_le r.2⟩

/-- What is left of what is left. -/
def trans (r : Rest s) (q : Rest r.1) : Rest s := ⟨q.1, Nat.le_trans q.2 r.2⟩

end Rest

/-- A scanner that yields a value. -/
abbrev Scan (α : Type) : Type := (s : List Char) → Except TextFault (α × Rest s)

/-- A scanner that only passes over something. -/
abbrev Skip : Type := (s : List Char) → Except TextFault (Rest s)

/-- The fault of a text that does not go on as it must. -/
def unexpected : List Char → TextFault
  | [] => .truncated
  | _ :: _ => .malformed

/-- The characters without meaning between tokens. -/
def isBlank (c : Char) : Bool := c == ' ' || c == '\t' || c == '\n' || c == '\r'

/-- The text behind its first character that is not blank. -/
abbrev Behind (s : List Char) : Type := { rest : List Char // rest.length < s.length }

/-- What is behind the first character is left of the text. -/
def Behind.rest {s : List Char} (t : Behind s) : Rest s := ⟨t.1, Nat.le_of_lt t.2⟩

/-- The first character that is not blank, and the text behind it. -/
def next? : (s : List Char) → Option (Char × Behind s)
  | [] => none
  | c :: s =>
    if isBlank c then (next? s).map fun (d, t) => (d, ⟨t.1, Nat.lt_succ_of_lt t.2⟩)
    else some (c, ⟨s, Nat.lt_succ_self _⟩)

/-- Passes over blanks and one given character. -/
def token (c : Char) (s : List Char) : Except TextFault (Behind s) :=
  match next? s with
  | none => .error .truncated
  | some (d, t) => if d = c then .ok t else .error .malformed

/-- Passes over one given character. -/
def expect (c : Char) : Skip
  | [] => .error .truncated
  | d :: s => if d = c then .ok (.cons d (.all s)) else .error .malformed

/-- Passes over the characters of a word. -/
def word : (w : List Char) → Skip
  | [], s => .ok (.all s)
  | c :: w, s => do
    let r ← expect c s
    let q ← word w r.1
    return r.trans q

theorem next?_cons_of_not_isBlank {c : Char} {s : List Char} (h : isBlank c = false) :
    next? (c :: s) = some (c, ⟨s, Nat.lt_succ_self _⟩) := by
  simp [next?, h]

end PackedLogic.Json
