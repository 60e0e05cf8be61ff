import PackedLogic.Json.Skip
set_option autoImplicit false

/-!
# Records

A record is read into a state that starts with the defaults.  It is written as an object, where any
field may be missing, unknown keys are passed over and a known key may stand only once; or as an
array of the fields in their order, where the last ones may be missing.  A value of the wrong type
is refused once it has been read, if it is a scalar, and at its opening bracket otherwise.
-/

namespace PackedLogic.Json

/-- Reads a value and takes it into the state. -/
abbrev Reader (σ : Type) : Type := σ → Scan σ

/-- The fields of a record, with their keys, in their order as an array. -/
abbrev Fields (σ : Type) : Type := List (String × Reader σ)

variable {σ : Type}

/-- Reads a scalar of one type, the values of which are taken into the state by `accept`. -/
def scalarReader (accept : Scalar → Option (σ → σ)) : Reader σ := fun state s =>
  match next? s with
  | none => .error .truncated
  | some (c, t) => do
    if (bracket? c).isSome then throw .mistyped
    let (v, r) ← scalar c t.1
    match accept v with
    | some change => return (change state, t.rest.trans r)
    | none => throw .mistyped

/-- Reads the elements of an array as the given fields, up to the closing bracket. -/
def elements : Fields σ → Reader σ
  | [], _, _ => .error .malformed
  | (_, read) :: fields, state, s => do
    let (state, r) ← read state s
    match next? r.1 with
    | none => throw .truncated
    | some (c, t) =>
      if c = ']' then return (state, r.trans t.rest)
      else if c = ',' then
        let (state, q) ← elements fields state t.1
        return (state, (r.trans t.rest).trans q)
      else throw .malformed

/-- Reads a key, the colon after it and the value, and notes the key if it is a field's.  A noted
key is refused. -/
def member (fields : Fields σ) (seen : List String) (state : σ) :
    Scan (List String × σ) := fun s => do
  let opened ← token '"' s
  let (content, r) ← quoted opened.1
  let key := String.ofList content
  if key ∈ seen then throw .mistyped
  let colon ← token ':' r.1
  let before := (opened.rest.trans r).trans colon.rest
  match fields.lookup key with
  | some read =>
    let (state, value) ← read state colon.1
    return ((key :: seen, state), before.trans value)
  | none =>
    let value ← skip colon.1
    return ((seen, state), before.trans value)

/-- Reads the members of an object: the state after, and the text behind the closing bracket. -/
def members (fields : Fields σ) (seen : List String) (state : σ) (s : List Char) :
    Except TextFault (σ × List Char) :=
  match member fields seen state s with
  | .error fault => .error fault
  | .ok ((seen, state), ⟨r, _⟩) =>
    match next? r with
    | none => .error .truncated
    | some (c, ⟨t, _⟩) =>
      if c = '}' then .ok (state, t)
      else if c = ',' then members fields seen state t
      else .error .malformed
termination_by s.length

theorem length_of_members {fields : Fields σ} {seen : List String} {state state' : σ}
    {s r : List Char} (h : members fields seen state s = .ok (state', r)) :
    r.length ≤ s.length := by
  rw [members] at h
  split at h
  · cases h
  · split at h
    · cases h
    · split at h
      · cases h
        omega
      · split at h
        · have := length_of_members h
          omega
        · cases h
termination_by s.length

/-- Reads an object, behind its opening bracket, as the given fields. -/
def object (fields : Fields σ) : Reader σ := fun state s =>
  match h : members fields [] state s with
  | .ok (state, r) => .ok (state, ⟨r, length_of_members h⟩)
  | .error fault => .error fault

/-- Reads a record with the given fields. -/
def record (fields : Fields σ) : Reader σ := fun state s =>
  match next? s with
  | none => .error .truncated
  | some (c, t) =>
    match bracket? c with
    | none => do
      let _ ← scalar c t.1
      throw .mistyped
    | some b =>
      match next? t.1 with
      | none => .error .truncated
      | some (d, u) =>
        if d = b.closing then .ok (state, t.rest.trans u.rest)
        else do
          let (state, r) ← (match b with
            | .square => elements fields state t.1
            | .curly => object fields state t.1)
          return (state, t.rest.trans r)

end PackedLogic.Json
