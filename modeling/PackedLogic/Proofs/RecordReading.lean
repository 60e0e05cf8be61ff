import PackedLogic.Json.Record
import PackedLogic.Proofs.JsonSkipping
set_option autoImplicit false

/-!
# Reading well-formed records

A record is read member by member.  What the members do to the state is a relation on their keys and
the texts of their values (`Fills`), and a record that is written as an object does the same
(`reads_object`), whatever the escapes in its keys and the blanks between its tokens.
-/

namespace PackedLogic.Json

/-- In this state the reader reads the value, blanks before it included, and leaves that state. -/
def Reads {σ : Type} (read : Reader σ) (v : List Char) (state state' : σ) : Prop :=
  ∀ b rest, Blanks b → Ends rest → Scans (read state) (b ++ (v ++ rest)) state' rest

variable {σ : Type} {fields : Fields σ} {seen seen' : List String} {state state' : σ}
variable {b b₁ b₂ b₃ s rest v : List Char} {key : List Char} {ms : List (String × List Char)}

/-! ## Scalars -/

/-- A scalar that is accepted is taken into the state. -/
theorem reads_scalar {c : Char} {value : Scalar} {accept : Scalar → Option (σ → σ)}
    (hc : isBlank c = false) (hscalar : bracket? c = none)
    (hscans : ∀ rest, Ends rest → Scans (scalar c) (s ++ rest) value rest)
    (haccept : (accept value).map (fun change => change state) = some state') :
    Reads (scalarReader accept) (c :: s) state state' := by
  intro b rest hb hrest
  obtain ⟨change, hchange, rfl⟩ := Option.map_eq_some_iff.1 haccept
  obtain ⟨hlt, hnext⟩ := exists_next? hb hc (s ++ rest)
  obtain ⟨hle, hscan⟩ := hscans rest hrest
  rw [List.cons_append]
  refine ⟨Nat.le_trans hle (Nat.le_of_lt hlt), ?_⟩
  rw [scalarReader, hnext]
  simp only [hscalar, Option.isSome_none, Bool.false_eq_true, if_false, bind, Except.bind, pure,
    Except.pure, hscan, hchange]
  rfl

/-! ## Members -/

/-- A member with this key and this value leads from one state to another: the value of a field is
read and its key is noted, and the value of any other member may be anything. -/
inductive Takes (fields : Fields σ) (key : String) (v : List Char) (seen : List String) (state : σ) :
    List String → σ → Prop
  | known {read : Reader σ} {state' : σ} (hread : fields.lookup key = some read)
      (hv : Reads read v state state') : Takes fields key v seen state (key :: seen) state'
  | unknown (hread : fields.lookup key = none) (hv : ValueText v) :
      Takes fields key v seen state seen state

/-- The members lead from one state to another.  A key that was noted does not come again. -/
inductive Fills (fields : Fields σ) : List String → σ → List (String × List Char) → σ → Prop
  | nil (seen : List String) (state : σ) : Fills fields seen state [] state
  | cons {seen seen' : List String} {state state' final : σ} {key : String} {v : List Char}
      {ms : List (String × List Char)} (hseen : key ∉ seen)
      (hv : Takes fields key v seen state seen' state') (h : Fills fields seen' state' ms final) :
      Fills fields seen state ((key, v) :: ms) final

theorem scans_member (hb₁ : Blanks b₁) (hkey : Spells s key) (hb₂ : Blanks b₂) (hb₃ : Blanks b₃)
    (hrest : Ends rest) (hseen : String.ofList key ∉ seen)
    (hv : Takes fields (String.ofList key) v seen state seen' state') :
    Scans (member fields seen state)
      (b₁ ++ '"' :: (s ++ '"' :: (b₂ ++ ':' :: (b₃ ++ (v ++ rest))))) (seen', state') rest := by
  obtain ⟨h₁, hopened⟩ :=
    exists_token hb₁ (c := '"') rfl (s ++ '"' :: (b₂ ++ ':' :: (b₃ ++ (v ++ rest))))
  obtain ⟨h₂, hquoted⟩ := hkey.scans (b₂ ++ ':' :: (b₃ ++ (v ++ rest)))
  obtain ⟨h₃, hcolon⟩ := exists_token hb₂ (c := ':') rfl (b₃ ++ (v ++ rest))
  have hbefore : (b₃ ++ (v ++ rest)).length ≤ _ :=
    Nat.le_trans (Nat.le_of_lt h₃) (Nat.le_trans h₂ (Nat.le_of_lt h₁))
  cases hv with
  | known hread hv =>
    obtain ⟨h₄, hvalue⟩ := hv b₃ rest hb₃ hrest
    refine ⟨Nat.le_trans h₄ hbefore, ?_⟩
    rw [member, hopened]
    simp only [bind, Except.bind, pure, Except.pure, hquoted, hseen, if_false, hcolon, hread, hvalue]
    rfl
  | unknown hread hv =>
    obtain ⟨h₄, hskip⟩ := hv.passes hb₃ hrest
    refine ⟨Nat.le_trans h₄ hbefore, ?_⟩
    rw [member, hopened]
    simp only [bind, Except.bind, pure, Except.pure, hquoted, hseen, if_false, hcolon, hread, hskip]
    rfl

theorem members_close (hb : Blanks b)
    (h : Scans (member fields seen state) s (seen', state') (b ++ '}' :: rest)) :
    members fields seen state s = .ok (state', rest) := by
  obtain ⟨_, hmember⟩ := h
  obtain ⟨_, hnext⟩ := exists_next? hb (c := '}') rfl rest
  rw [members, hmember]
  dsimp only
  rw [hnext]
  exact if_pos rfl

theorem members_comma (hb : Blanks b)
    (h : Scans (member fields seen state) s (seen', state') (b ++ ',' :: rest)) :
    members fields seen state s = members fields seen' state' rest := by
  obtain ⟨_, hmember⟩ := h
  obtain ⟨_, hnext⟩ := exists_next? hb (c := ',') rfl rest
  rw [members, hmember]
  dsimp only
  rw [hnext]
  rfl

/-- The members of an object are read up to its closing bracket. -/
theorem members_eq (h : MembersText ms s) (hfills : Fills fields seen state ms state')
    (rest : List Char) : members fields seen state (s ++ '}' :: rest) = .ok (state', rest) := by
  induction h generalizing seen state with
  | last hb₁ hkey hb₂ hb₃ hb₄ =>
    obtain _ | ⟨hseen, hv, _ | _⟩ := hfills
    have hends := (ends_cons (c := '}') (by simp) rest).blanks_append hb₄
    simp only [List.append_assoc, List.cons_append]
    exact members_close hb₄ (scans_member hb₁ hkey hb₂ hb₃ hends hseen hv)
  | @cons _ _ _ b₄ _ _ _ t _ hb₁ hkey hb₂ hb₃ hb₄ _ ih =>
    obtain _ | ⟨hseen, hv, hfills⟩ := hfills
    have hends := (ends_cons (c := ',') (by simp) (t ++ '}' :: rest)).blanks_append hb₄
    simp only [List.append_assoc, List.cons_append]
    rw [members_comma hb₄ (scans_member hb₁ hkey hb₂ hb₃ hends hseen hv)]
    exact ih hfills

/-! ## Objects -/

theorem scans_object (h : MembersText ms s) (hfills : Fills fields [] state ms state')
    (rest : List Char) : Scans (object fields state) (s ++ '}' :: rest) state' rest := by
  have hmembers := members_eq h hfills rest
  refine ⟨length_of_members hmembers, ?_⟩
  unfold object
  split
  · rename_i state₁ r hr
    rw [hmembers] at hr
    obtain ⟨rfl, rfl⟩ := Prod.mk.inj (Except.ok.inj hr)
    rfl
  · rename_i fault hfault
    rw [hmembers] at hfault
    cases hfault

/-- Members begin with a quote. -/
theorem MembersText.exists_next? (h : MembersText ms s) (rest : List Char) :
    ∃ t, ∃ hlt : t.length < (s ++ rest).length, next? (s ++ rest) = some ('"', ⟨t, hlt⟩) := by
  cases h with
  | last hb₁ =>
    rw [List.append_assoc]
    exact ⟨_, Json.exists_next? hb₁ (c := '"') rfl _⟩
  | cons hb₁ =>
    rw [List.append_assoc]
    exact ⟨_, Json.exists_next? hb₁ (c := '"') rfl _⟩

/-- An object is read as a record. -/
theorem reads_object (h : ObjectText ms v) (hfills : Fills fields [] state ms state') :
    Reads (record fields) v state state' := by
  have hbracket : bracket? '{' = some .curly := rfl
  intro b rest hb hrest
  cases h with
  | @empty b' hb' =>
    cases hfills
    rw [List.cons_append, List.append_assoc]
    obtain ⟨h₁, hopened⟩ := exists_next? hb (c := '{') rfl (b' ++ '}' :: rest)
    obtain ⟨h₂, hclosed⟩ := exists_next? hb' (c := '}') rfl rest
    refine ⟨Nat.le_trans (Nat.le_of_lt h₂) (Nat.le_of_lt h₁), ?_⟩
    simp only [record, List.singleton_append, hopened, hbracket, hclosed, Bracket.closing, if_true]
    rfl
  | @filled _ s hmembers =>
    rw [List.cons_append, List.append_assoc, List.singleton_append]
    obtain ⟨h₁, hopened⟩ := exists_next? hb (c := '{') rfl (s ++ '}' :: rest)
    obtain ⟨t, _, hquote⟩ := hmembers.exists_next? ('}' :: rest)
    obtain ⟨h₂, hobject⟩ := scans_object hmembers hfills rest
    have hne : '"' ≠ Bracket.closing .curly := by decide
    refine ⟨Nat.le_trans h₂ (Nat.le_of_lt h₁), ?_⟩
    simp only [record, hopened, hbracket, hquote, hne, if_false, bind, Except.bind, hobject]
    rfl

end PackedLogic.Json
