import PackedLogic.Proofs.JsonScanning
set_option autoImplicit false

/-!
# Passing over well-formed values

A value of the grammar is passed over to its end, however deeply it is nested: `skipValue` at its
front goes on as `skipTail` behind it (`ValueText.skipValue_eq`).  Inside brackets the same is true of
items, and one induction over both kinds of texts proves it.
-/

namespace PackedLogic.Json

/-- Passes over an item inside a bracket, and over what follows it there and in the brackets
around. -/
def skipItem (k : Bracket) (outer : List Bracket) (s : List Char) : Except TextFault (List Char) :=
  match skipHead k s with
  | .error fault => .error fault
  | .ok ⟨r, _⟩ => skipValue (k :: outer) r

variable {b b' s t v rest : List Char} {c : Char} {k : Bracket} {outer : List Bracket}

theorem Bracket.bracket?_opening (k : Bracket) : bracket? k.opening = some k := by
  cases k <;> rfl

theorem Bracket.isBlank_opening (k : Bracket) : isBlank k.opening = false := by
  cases k <;> rfl

theorem Bracket.isBlank_closing (k : Bracket) : isBlank k.closing = false := by
  cases k <;> rfl

theorem Bracket.ends_closing (k : Bracket) (s : List Char) : Ends (k.closing :: s) :=
  ends_cons (by cases k <;> simp [closing]) s

/-! ## One character further -/

theorem skipValue_scalar (hb : Blanks b) (hc : isBlank c = false) (hscalar : bracket? c = none)
    (h : Passes (skipScalar c) t rest) : skipValue outer (b ++ c :: t) = skipTail outer rest := by
  obtain ⟨_, hnext⟩ := exists_next? hb hc t
  obtain ⟨_, hskip⟩ := h
  rw [skipValue, hnext]
  dsimp only
  rw [hscalar]
  dsimp only
  rw [hskip]

theorem skipValue_empty (hb : Blanks b) (hb' : Blanks b') (rest : List Char) :
    skipValue outer (b ++ k.opening :: (b' ++ k.closing :: rest)) = skipTail outer rest := by
  obtain ⟨_, hnext⟩ := exists_next? hb k.isBlank_opening (b' ++ k.closing :: rest)
  obtain ⟨_, hnext'⟩ := exists_next? hb' k.isBlank_closing rest
  rw [skipValue, hnext]
  dsimp only
  rw [k.bracket?_opening]
  dsimp only
  rw [hnext']
  exact if_pos rfl

theorem skipValue_filled (hb : Blanks b) (hb' : Blanks b') (hc : isBlank c = false)
    (hne : c ≠ k.closing) (t : List Char) :
    skipValue outer (b ++ k.opening :: (b' ++ c :: t)) = skipItem k outer (b' ++ c :: t) := by
  obtain ⟨_, hnext⟩ := exists_next? hb k.isBlank_opening (b' ++ c :: t)
  obtain ⟨_, hnext'⟩ := exists_next? hb' hc t
  rw [skipValue, hnext]
  dsimp only
  rw [k.bracket?_opening]
  dsimp only
  rw [hnext']
  exact if_neg hne

theorem skipTail_close (hb : Blanks b) (rest : List Char) :
    skipTail (k :: outer) (b ++ k.closing :: rest) = skipTail outer rest := by
  obtain ⟨_, hnext⟩ := exists_next? hb k.isBlank_closing rest
  rw [skipTail, hnext]
  exact if_pos rfl

theorem skipTail_comma (hb : Blanks b) (t : List Char) :
    skipTail (k :: outer) (b ++ ',' :: t) = skipItem k outer t := by
  obtain ⟨_, hnext⟩ := exists_next? hb (c := ',') rfl t
  have hne : ',' ≠ k.closing := by cases k <;> decide
  rw [skipTail, hnext]
  dsimp only
  rw [if_neg hne, if_pos rfl]
  rfl

/-! ## Heads -/

theorem passes_skipKey {key : List Char} (hb : Blanks b) (hkey : StringText key) (hb' : Blanks b')
    (rest : List Char) : Passes skipKey (b ++ '"' :: (key ++ '"' :: (b' ++ ':' :: rest))) rest := by
  obtain ⟨h₁, hopened⟩ := exists_token hb (c := '"') rfl (key ++ '"' :: (b' ++ ':' :: rest))
  obtain ⟨h₂, hskip⟩ := hkey.passes (b' ++ ':' :: rest)
  obtain ⟨h₃, hcolon⟩ := exists_token hb' (c := ':') rfl rest
  refine ⟨Nat.le_trans (Nat.le_of_lt h₃) (Nat.le_trans h₂ (Nat.le_of_lt h₁)), ?_⟩
  rw [skipKey, hopened]
  simp only [bind, Except.bind, hskip, hcolon]
  rfl

theorem HeadText.passes {head : List Char} (h : HeadText k head) (rest : List Char) :
    Passes (skipHead k) (head ++ rest) rest := by
  cases h with
  | square => exact ⟨Nat.le_refl _, rfl⟩
  | curly hb hkey hb' =>
    simp only [List.append_assoc, List.cons_append, List.nil_append]
    exact passes_skipKey hb hkey hb' rest

theorem HeadText.skipItem_eq {head : List Char} (h : HeadText k head) (rest : List Char) :
    skipItem k outer (head ++ rest) = skipValue (k :: outer) rest := by
  obtain ⟨_, hskip⟩ := h.passes rest
  rw [skipItem, hskip]

/-- What precedes a value in a bracket and the value begin with a character that does not close. -/
theorem HeadText.exists_begin {head : List Char} (h : HeadText k head) (hb : Blanks b)
    (hc : BeginsValue c) (t : List Char) :
    ∃ b' d u, head ++ (b ++ c :: t) = b' ++ d :: u ∧ Blanks b' ∧ isBlank d = false ∧
      d ≠ k.closing := by
  cases h with
  | square => exact ⟨b, c, t, rfl, hb, hc.1, hc.2.1⟩
  | @curly b₁ b₂ key hb₁ hkey hb₂ =>
    refine ⟨b₁, '"', key ++ '"' :: (b₂ ++ ':' :: (b ++ c :: t)), ?_, hb₁, rfl, by decide⟩
    simp

/-! ## Values and items -/

theorem ValueText.exists_begin (h : ValueText v) : ∃ c s, v = c :: s ∧ BeginsValue c := by
  cases h with
  | scalar h =>
    obtain ⟨c, s, rfl, hc, -⟩ := h.exists_passes
    exact ⟨c, s, rfl, hc⟩
  | empty k hb => exact ⟨_, _, rfl, by cases k <;> decide⟩
  | @filled k s h => exact ⟨_, _, rfl, by cases k <;> decide⟩

theorem ItemsText.exists_begin (h : ItemsText k s) (rest : List Char) :
    ∃ b d u, s ++ rest = b ++ d :: u ∧ Blanks b ∧ isBlank d = false ∧ d ≠ k.closing := by
  cases h with
  | last hhead hb hv hb' =>
    obtain ⟨c, s, rfl, hc⟩ := hv.exists_begin
    simp only [List.append_assoc, List.cons_append]
    exact hhead.exists_begin hb hc _
  | cons hhead hb hv hb' h =>
    obtain ⟨c, s, rfl, hc⟩ := hv.exists_begin
    simp only [List.append_assoc, List.cons_append]
    exact hhead.exists_begin hb hc _

/-- A value is passed over to its end, whatever brackets it stands in. -/
theorem ValueText.skipValue_eq (h : ValueText v) (outer : List Bracket) (hb : Blanks b)
    (hrest : Ends rest) : skipValue outer (b ++ (v ++ rest)) = skipTail outer rest := by
  -- along with it, that the items of a bracket are passed over up to its end
  refine @ValueText.rec
    (fun v _ => ∀ outer b rest, Blanks b → Ends rest →
      skipValue outer (b ++ (v ++ rest)) = skipTail outer rest)
    (fun k s _ => ∀ outer rest, skipItem k outer (s ++ k.closing :: rest) = skipTail outer rest)
    ?scalar ?empty ?filled ?last ?cons v h outer b rest hb hrest
  case scalar =>
    intro v h outer b rest hb hrest
    obtain ⟨c, s, rfl, hc, hscalar, hpasses⟩ := h.exists_passes
    exact skipValue_scalar hb hc.1 hscalar (hpasses rest hrest)
  case empty =>
    intro k b' hb' outer b rest hb hrest
    rw [List.cons_append, List.append_assoc]
    exact skipValue_empty hb hb' rest
  case filled =>
    intro k s h ih outer b rest hb hrest
    obtain ⟨b', c, u, hbegin, hb', hc, hne⟩ := h.exists_begin (k.closing :: rest)
    rw [List.cons_append, List.append_assoc, List.singleton_append, hbegin,
      skipValue_filled hb hb' hc hne, ← hbegin, ih]
  case last =>
    intro k head b v b' hhead hb _ hb' ih outer rest
    simp only [List.append_assoc]
    rw [hhead.skipItem_eq, ih _ _ _ hb ((k.ends_closing rest).blanks_append hb'), skipTail_close hb']
  case cons =>
    intro k head b v b' s hhead hb _ hb' _ ihv ihs outer rest
    simp only [List.append_assoc, List.cons_append]
    rw [hhead.skipItem_eq, ihv _ _ _ hb ((ends_cons (by simp) _).blanks_append hb'),
      skipTail_comma hb', ihs]

/-- A value that nobody asked for is passed over, and nothing else. -/
theorem ValueText.passes (h : ValueText v) (hb : Blanks b) (hrest : Ends rest) :
    Passes skip (b ++ (v ++ rest)) rest := by
  have hskip : skipValue [] (b ++ (v ++ rest)) = .ok rest := by
    rw [h.skipValue_eq [] hb hrest, skipTail]
  refine ⟨length_of_skipValue hskip, ?_⟩
  unfold skip
  split
  · rename_i r hr
    rw [hskip] at hr
    obtain rfl := Except.ok.inj hr
    rfl
  · rename_i fault hfault
    rw [hskip] at hfault
    cases hfault

end PackedLogic.Json
