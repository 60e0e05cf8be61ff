import PackedLogic.Json.Scalar
set_option autoImplicit false

/-!
# Passing over values

A value that nobody asked for is passed over; only its form is checked, and it may be nested to any
depth.  The brackets that are open are kept in a list, so that no recursion is as deep as the text:
`skipValue` passes over a value and `skipTail` over what may follow a value inside brackets.  The
whole is `skip`.
-/

namespace PackedLogic.Json

/-- The kinds of brackets that hold values. -/
inductive Bracket
  | square
  | curly
  deriving DecidableEq, Repr

/-- The character that closes a bracket. -/
def Bracket.closing : Bracket → Char
  | square => ']'
  | curly => '}'

/-- The bracket that a value opens with. -/
def bracket? (c : Char) : Option Bracket :=
  if c = '[' then some .square else if c = '{' then some .curly else none

/-- Passes over the key of a member and the colon after it. -/
def skipKey : Skip := fun s => do
  let opened ← token '"' s
  let r ← skipString opened.1
  let colon ← token ':' r.1
  return (opened.rest.trans r).trans colon.rest

/-- Passes over what precedes a value inside a bracket: a key, or nothing. -/
def skipHead : Bracket → Skip
  | .square => fun s => .ok (.all s)
  | .curly => skipKey

mutual

/-- The text behind a value and behind what follows it inside the brackets `outer`, innermost
first. -/
def skipValue (outer : List Bracket) (s : List Char) : Except TextFault (List Char) :=
  match next? s with
  | none => .error .truncated
  | some (c, ⟨t, _⟩) =>
    match bracket? c with
    | none =>
      match skipScalar c t with
      | .error fault => .error fault
      | .ok ⟨r, _⟩ => skipTail outer r
    | some b =>
      match next? t with
      | none => .error .truncated
      | some (d, ⟨u, _⟩) =>
        if d = b.closing then skipTail outer u
        else
          match skipHead b t with
          | .error fault => .error fault
          | .ok ⟨r, _⟩ => skipValue (b :: outer) r
termination_by s.length

/-- The text behind what follows a value inside the brackets `outer`, up to the end of the last. -/
def skipTail (outer : List Bracket) (s : List Char) : Except TextFault (List Char) :=
  match outer with
  | [] => .ok s
  | b :: outer =>
    match next? s with
    | none => .error .truncated
    | some (c, ⟨t, _⟩) =>
      if c = b.closing then skipTail outer t
      else if c = ',' then
        match skipHead b t with
        | .error fault => .error fault
        | .ok ⟨r, _⟩ => skipValue (b :: outer) r
      else .error .malformed
termination_by s.length

end

mutual

theorem length_of_skipValue {outer : List Bracket} {s r : List Char}
    (h : skipValue outer s = .ok r) : r.length ≤ s.length := by
  rw [skipValue] at h
  split at h
  · cases h
  · split at h
    · split at h
      · cases h
      · have := length_of_skipTail h
        omega
    · split at h
      · cases h
      · split at h
        · have := length_of_skipTail h
          omega
        · split at h
          · cases h
          · have := length_of_skipValue h
            omega
termination_by s.length

theorem length_of_skipTail {outer : List Bracket} {s r : List Char}
    (h : skipTail outer s = .ok r) : r.length ≤ s.length := by
  rw [skipTail.eq_def] at h
  split at h
  · cases h
    exact Nat.le_refl _
  · split at h
    · cases h
    · split at h
      · have := length_of_skipTail h
        omega
      · split at h
        · split at h
          · cases h
          · have := length_of_skipValue h
            omega
        · cases h
termination_by s.length

end

/-- Passes over a value. -/
def skip : Skip := fun s =>
  match h : skipValue [] s with
  | .ok r => .ok ⟨r, length_of_skipValue h⟩
  | .error fault => .error fault

end PackedLogic.Json
