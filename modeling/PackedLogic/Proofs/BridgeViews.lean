import PackedLogic.Proofs.BankHistory
import PackedLogic.Proofs.FieldAccess
set_option autoImplicit false

/-!
# The views of a bridge

A bridge is refused before anything is lent, for the first view that no cell can hold
(`exists_first_oversized`).  Otherwise all its views lie over one new cell, and the fields of each
view tile that cell from bit 0 on.  Put behind one another, the values of such fields are the low
digits of the cell's word, whatever the cell holds (`Field.getJoined_tile`), so no sequence of writes
can make two views disagree about a bit that both cover (`Bank.Session.bridge_checked_then_tiled`).
-/

namespace PackedLogic

/-! ## Fields one behind the other -/

namespace Field

/-- The number that fields form together, the first one lowest. -/
def getJoined : List Field → Store → Except Fault Nat
  | [], _ => .ok 0
  | f :: fields, s => do
    let v ← f.get s
    let n ← getJoined fields s
    return v.toNat + 2 ^ f.width * n

theorem getJoined_cons {f : Field} {fields : List Field} {s : Store} {v : Word} {n : Nat}
    (hfirst : f.get s = .ok v) (hrest : getJoined fields s = .ok n) :
    getJoined (f :: fields) s = .ok (v.toNat + 2 ^ f.width * n) := by
  rw [getJoined, hfirst, hrest]
  rfl

/-- A stretch of binary digits is its lower part and, behind it, its upper part. -/
theorem div_mod_two_pow_add (n offset low high : Nat) :
    n / 2 ^ offset % 2 ^ (low + high) =
      n / 2 ^ offset % 2 ^ low + 2 ^ low * (n / 2 ^ (offset + low) % 2 ^ high) := by
  rw [Nat.pow_add 2 low, Nat.mod_mul, Nat.div_div_eq_div_mul, ← Nat.pow_add]

/-- The fields that tile a stretch of a cell form the number in this stretch. -/
theorem getJoined_tile {s : Store} {c : Nat} {w : Word} (hw : s.word? c = some w) (offset : Nat)
    (widths : List Nat) (fits : offset + total widths ≤ cellBits) :
    getJoined (tile (.ofCell c) offset widths fits) s =
      .ok (w.toNat / 2 ^ offset % 2 ^ total widths) := by
  induction widths generalizing offset with
  | nil => simp [tile, getJoined, Nat.mod_one]
  | cons width widths ih =>
    rw [tile, getJoined_cons (get_of_word? rfl hw) (ih (offset + width) (tail_fits fits)),
      Span.toNat_extract, total_cons, div_mod_two_pow_add]

/-- Edits of live fields are all carried out, and no cell comes or goes. -/
theorem each_edit_of_isLive {edits : List (Field × Edit)} {s : Store}
    (h : ∀ x ∈ edits, x.1.isLive s = true) :
    ∃ s', Attempt.each (fun x => x.1.edit x.2) edits s = .done s' ∧ s'.SameCells s := by
  induction edits generalizing s with
  | nil => exact ⟨s, rfl, .refl s⟩
  | cons x edits ih =>
    obtain ⟨s₁, hedit, hedited⟩ := edit_of_isLive x.2 (h x List.mem_cons_self)
    obtain ⟨s', hrest, hcells⟩ := ih (s := s₁) fun y hy =>
      (isLive_of_sameCells hedited.cells y.1).trans (h y (List.mem_cons_of_mem x hy))
    refine ⟨s', ?_, hcells.trans hedited.cells⟩
    rw [Attempt.each_cons, hedit, Attempt.done_andThen, hrest]

end Field

/-! ## One view -/

/-- The fields of a view: on one cell, of the widths declared and in their order, the first one at
bit 0 and each beginning where those before it end. -/
structure Tiles (ref : CellRef) (widths : List Nat) (fields : List Field) : Prop where
  widths_eq : fields.map (fun f => f.width) = widths
  ref_eq : ∀ f ∈ fields, f.ref = ref
  offset_eq : ∀ (i : Nat) (f : Field), fields[i]? = some f → f.offset = total (widths.take i)

theorem map_width_tile_eq (ref : CellRef) (offset : Nat) (widths : List Nat)
    (fits : offset + total widths ≤ cellBits) :
    (tile ref offset widths fits).map (fun f => f.width) = widths := by
  induction widths generalizing offset with
  | nil => rfl
  | cons width widths ih => rw [tile, List.map_cons, ih]

theorem ref_of_mem_tile {ref : CellRef} {offset : Nat} {widths : List Nat}
    {fits : offset + total widths ≤ cellBits} {f : Field} (h : f ∈ tile ref offset widths fits) :
    f.ref = ref := by
  rw [tile_eq_map] at h
  obtain ⟨span, -, rfl⟩ := List.mem_map.1 h
  rfl

theorem offset_of_getElem?_tile {ref : CellRef} {offset : Nat} {widths : List Nat}
    {fits : offset + total widths ≤ cellBits} {i : Nat} {f : Field}
    (h : (tile ref offset widths fits)[i]? = some f) :
    f.offset = offset + total (widths.take i) := by
  induction widths generalizing offset i with
  | nil => cases h
  | cons width widths ih =>
    cases i with
    | zero =>
      obtain rfl := Option.some.inj h
      rfl
    | succ i =>
      rw [tile, List.getElem?_cons_succ] at h
      rw [ih h, List.take_succ_cons, total_cons, Nat.add_assoc]

theorem tiles_tile (ref : CellRef) (widths : List Nat) (fits : 0 + total widths ≤ cellBits) :
    Tiles ref widths (tile ref 0 widths fits) := by
  refine ⟨map_width_tile_eq ref 0 widths fits, fun f => ref_of_mem_tile, ?_⟩
  intro i f h
  rw [offset_of_getElem?_tile h, Nat.zero_add]

theorem map_tiles (ref : CellRef) {widths : List Nat} (fits : total widths ≤ cellBits) :
    (Span.tiles widths).map (fun span => (⟨span, ref⟩ : Field)) =
      tile ref 0 widths (by rwa [Nat.zero_add]) := by
  rw [Span.tiles, dif_pos fits, tile_eq_map]

/-- Two views agree on the bits that both cover. -/
def AgreeOnCommon (view view' : List Field) (s : Store) : Prop :=
  ∃ n n', Field.getJoined view s = .ok n ∧ Field.getJoined view' s = .ok n' ∧
    ∀ i, i < total (view.map fun f => f.width) → i < total (view'.map fun f => f.width) →
      n.testBit i = n'.testBit i

/-! ## A bridge -/

/-- The first view that no cell can hold, its position, and the total that is reported for it. -/
def IsFirstOversized (views : List (List Nat)) (fault : Fault) : Prop :=
  ∃ k widths, views[k]? = some widths ∧ cellBits < total widths ∧
    (∀ j < k, ∀ widths', views[j]? = some widths' → total widths' ≤ cellBits) ∧
      fault = .capacityExceeded k (min (total widths) (2 ^ 64 - 1))

theorem isFirstOversized_of_wide {views : List (List Nat)}
    (h : ∃ widths ∈ views, cellBits < total widths) :
    IsFirstOversized views (oversizedView views) := by
  rw [oversizedView_eq]
  have hlt : views.findIdx (fun widths => cellBits < total widths) < views.length := by
    rw [List.findIdx_lt_length]
    simpa using h
  have hwide := List.findIdx_getElem (w := hlt)
  refine ⟨_, _, List.getElem?_eq_getElem hlt, by simpa using hwide, ?_, ?_⟩
  · intro j hj widths' hwidths'
    obtain ⟨hj', rfl⟩ := List.getElem?_eq_some_iff.1 hwidths'
    simpa using List.not_of_lt_findIdx hj
  · rw [List.getD_eq_getElem _ _ hlt]
    rfl

namespace Bank.Session

/-- The views lie over one new cell, which the bank has appended as a block without room. -/
structure Bridged (σ : Session 1) (views : List (List Nat)) (lent : List (List Field))
    (σ' : Session 1) : Prop where
  replies : σ'.replies = σ.replies ++ [.views lent]
  blocks : ∃ block : Block, σ'.bank.blocks = σ.bank.blocks ++ [block] ∧
    block.base = σ.store.size ∧ block.cursor = cellBits
  zero : σ'.store.word? σ.store.size = some 0
  others : ∀ c, c ≠ σ.store.size → σ'.store.word? c = σ.store.word? c
  tiles : List.Forall₂ (Tiles (.ofCell σ.store.size)) views lent
  /-- Whatever the cell holds, a view reads its low bits, as many as the view has. -/
  joined : ∀ s w, s.word? σ.store.size = some w →
    List.Forall₂ (fun widths fields =>
      Field.getJoined fields s = .ok (w.toNat % 2 ^ total widths)) views lent
  /-- Writes through the views are all carried out, at any time as long as the cell exists, and leave
  all views in agreement. -/
  agree : ∀ s, s.isLive σ.store.size = true → ∀ writes : List (Field × Edit),
    (∀ x ∈ writes, ∃ view ∈ lent, x.1 ∈ view) →
      ∃ s', Attempt.each (fun x => x.1.edit x.2) writes s = .done s' ∧
        ∀ view ∈ lent, ∀ view' ∈ lent, AgreeOnCommon view view' s'

/-- The request for a bridge is answered by the reason why there is none. -/
def RefusesBridge (σ : Session 1) (views : List (List Nat)) (fault : Fault) : Prop :=
  (σ.serve (.bridge views)).replies = σ.replies ++ [.refused fault]

variable {σ : Session 1} {views : List (List Nat)}

theorem serve_bridge_of_wide (h : ¬ ∀ widths ∈ views, total widths ≤ cellBits) :
    σ.serve (.bridge views) =
      { σ with replies := σ.replies ++ [.refused (oversizedView views)] } := by
  rw [serve, σ.bank.bridge?_of_wide σ.store h]
  rfl

theorem serve_bridge_of_fits (fits : ∀ widths ∈ views, total widths ≤ cellBits) :
    σ.serve (.bridge views) =
      ⟨⟨σ.bank.blocks ++ [.whole σ.store.size]⟩, σ.store.pushZeros 1,
        σ.replies ++ [.views (views.map fun widths =>
          (Span.tiles widths).map fun span => ⟨span, .ofCell σ.store.size⟩)]⟩ := by
  rw [serve, σ.bank.bridge?_of_fits σ.store fits]
  rfl

/-- Views of one cell that read its low bits agree on the bits that both cover. -/
theorem agreeOnCommon_of_tiles {c : Nat} {w : Word} {s : Store} (hw : s.word? c = some w)
    {widths widths' : List Nat} (fits : total widths ≤ cellBits)
    (fits' : total widths' ≤ cellBits) :
    AgreeOnCommon (tile (.ofCell c) 0 widths (by rwa [Nat.zero_add]))
      (tile (.ofCell c) 0 widths' (by rwa [Nat.zero_add])) s := by
  refine ⟨_, _, Field.getJoined_tile hw 0 widths _, Field.getJoined_tile hw 0 widths' _, ?_⟩
  intro i hi hi'
  rw [map_width_tile_eq] at hi hi'
  rw [Nat.testBit_mod_two_pow, Nat.testBit_mod_two_pow, decide_eq_true hi, decide_eq_true hi']

theorem bridged_of_fits (fits : ∀ widths ∈ views, total widths ≤ cellBits) :
    ∃ lent, σ.Bridged views lent (σ.serve (.bridge views)) := by
  have hview : ∀ widths (h : widths ∈ views), (Span.tiles widths).map
      (fun span => (⟨span, .ofCell σ.store.size⟩ : Field)) =
        tile (.ofCell σ.store.size) 0 widths (by simpa using fits widths h) :=
    fun widths h => map_tiles _ (fits widths h)
  rw [serve_bridge_of_fits fits]
  refine ⟨_, rfl, ⟨_, rfl, rfl, rfl⟩, ?_, ?_, ?_, ?_, ?_⟩
  · rw [Store.word?_pushZeros, if_pos ⟨Nat.le_refl _, Nat.lt_succ_self _⟩]
  · intro c hc
    rw [Store.word?_pushZeros, if_neg (by omega)]
  · rw [List.forall₂_map_right_iff, List.forall₂_same]
    intro widths h
    rw [hview widths h]
    exact tiles_tile _ _ _
  · intro s w hw
    rw [List.forall₂_map_right_iff, List.forall₂_same]
    intro widths h
    rw [hview widths h, Field.getJoined_tile hw, Nat.pow_zero, Nat.div_one]
  · intro s hlive writes hwrites
    have hfields : ∀ x ∈ writes, x.1.isLive s = true := by
      intro x hx
      obtain ⟨view, hmem, hfield⟩ := hwrites x hx
      obtain ⟨widths, h, rfl⟩ := List.mem_map.1 hmem
      rw [hview widths h] at hfield
      exact Field.isLive_iff.2 ⟨_, ref_of_mem_tile hfield, hlive⟩
    obtain ⟨s', heach, hcells⟩ := Field.each_edit_of_isLive hfields
    refine ⟨s', heach, ?_⟩
    obtain ⟨w, hw⟩ := Store.isLive_iff.1 ((hcells.live _).trans hlive)
    intro view hmem view' hmem'
    obtain ⟨widths, h, rfl⟩ := List.mem_map.1 hmem
    obtain ⟨widths', h', rfl⟩ := List.mem_map.1 hmem'
    rw [hview widths h, hview widths' h']
    exact agreeOnCommon_of_tiles hw (fits widths h) (fits widths' h')

/-- A bridge is refused just when the widths of some view add up to more than a cell, for the first
such view, and then bank and store are as before.  Otherwise the bank appends one block, over whose
cell all views lie, so that they always agree on the bits that they share. -/
theorem bridge_checked_then_tiled (σ : Session 1) (views : List (List Nat)) :
    ((∃ fault, σ.RefusesBridge views fault) ↔ ∃ widths ∈ views, cellBits < total widths) ∧
      (∀ fault, σ.RefusesBridge views fault → IsFirstOversized views fault ∧
        (σ.serve (.bridge views)).bank = σ.bank ∧ (σ.serve (.bridge views)).store = σ.store) ∧
      ((∀ widths ∈ views, total widths ≤ cellBits) →
        ∃ lent, σ.Bridged views lent (σ.serve (.bridge views))) := by
  by_cases fits : ∀ widths ∈ views, total widths ≤ cellBits
  · obtain ⟨lent, hbridged⟩ := bridged_of_fits (σ := σ) fits
    have hgranted : ∀ fault, ¬ σ.RefusesBridge views fault := by
      intro fault hrefused
      cases List.append_cancel_left (hrefused.symm.trans hbridged.replies)
    refine ⟨⟨fun ⟨fault, hrefused⟩ => absurd hrefused (hgranted fault), ?_⟩,
      fun fault hrefused => absurd hrefused (hgranted fault), fun _ => ⟨lent, hbridged⟩⟩
    rintro ⟨widths, h, hwide⟩
    exact absurd hwide (Nat.not_lt.2 (fits widths h))
  · have hwide : ∃ widths ∈ views, cellBits < total widths := by
      simpa [Nat.not_le] using fits
    refine ⟨⟨fun _ => hwide, fun _ => ⟨oversizedView views, ?_⟩⟩, ?_, fun h => absurd h fits⟩
    · rw [RefusesBridge, serve_bridge_of_wide fits]
    · intro fault hrefused
      rw [RefusesBridge, serve_bridge_of_wide fits] at hrefused
      have hreply := List.head_eq_of_cons_eq (List.append_cancel_left hrefused)
      obtain rfl := Reply.refused.inj hreply
      rw [serve_bridge_of_wide fits]
      exact ⟨isFirstOversized_of_wide hwide, rfl, rfl⟩

/-- The first view that does not fit is reported, here with a total that is too large to be counted. -/
example : ((after {} [.bridge [[64], [60, 2 ^ 64 - 1, 7], [65]]] : Session 1).replies) =
    [.refused (.capacityExceeded 1 (2 ^ 64 - 1))] := rfl

end Bank.Session

end PackedLogic
