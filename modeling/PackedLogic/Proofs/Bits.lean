import PackedLogic.Socket
set_option autoImplicit false

/-!
# Bits of the store

A `Bit` is the address of one bit: a cell and a position in its word.  Everything that a machine
does is described here by its effect on single bits.  `Field.Edited` says what an edit of a live
field does, `Socket.Copied` what a wire does, and two stores with the same cells and the same bits
are equal (`Store.ext_bit`).
-/

namespace PackedLogic

/-- The address of one bit. -/
structure Bit where
  cell : Nat
  index : Nat
  deriving DecidableEq, Repr

namespace Store

/-- The value of a bit; a bit of a cell that does not exist reads as false. -/
def bit (s : Store) (b : Bit) : Bool := (s.read b.cell).getLsbD b.index

/-- Both stores have the same cells, and the same of them exist. -/
structure SameCells (s t : Store) : Prop where
  size : s.size = t.size
  live : ∀ i, s.isLive i = t.isLive i

theorem SameCells.refl (s : Store) : s.SameCells s := ⟨rfl, fun _ => rfl⟩

theorem SameCells.symm {s t : Store} (h : s.SameCells t) : t.SameCells s :=
  ⟨h.size.symm, fun i => (h.live i).symm⟩

theorem SameCells.trans {s t u : Store} (h₁ : s.SameCells t) (h₂ : t.SameCells u) :
    s.SameCells u :=
  ⟨h₁.size.trans h₂.size, fun i => (h₁.live i).trans (h₂.live i)⟩

theorem isLive_iff {s : Store} {i : Nat} : s.isLive i = true ↔ ∃ w, s.word? i = some w := by
  rw [isLive, Option.isSome_iff_exists]

theorem lt_size_of_isLive {s : Store} {i : Nat} (h : s.isLive i = true) : i < s.size := by
  rcases Nat.lt_or_ge i s.size with hlt | hge
  · exact hlt
  · rw [isLive, word?_eq_none_of_size_le hge] at h
    cases h

theorem word?_eq_of_isLive {s : Store} {i : Nat} (h : s.isLive i = true) :
    s.word? i = some (s.read i) := by
  obtain ⟨w, hw⟩ := isLive_iff.1 h
  rw [read, hw]
  rfl

theorem word?_eq_none_of_not_isLive {s : Store} {i : Nat} (h : s.isLive i = false) :
    s.word? i = none := by
  rwa [isLive, Option.isSome_eq_false_iff, Option.isNone_iff_eq_none] at h

theorem bit_of_not_isLive {s : Store} {b : Bit} (h : s.isLive b.cell = false) :
    s.bit b = false := by
  rw [bit, read, word?_eq_none_of_not_isLive h]
  exact BitVec.getLsbD_zero

theorem bit_of_ge {s : Store} {b : Bit} (h : 64 ≤ b.index) : s.bit b = false :=
  BitVec.getLsbD_of_ge _ _ h

/-- Words that exist are told apart by their bits. -/
theorem read_eq_of_bit_eq {s t : Store} {c d : Nat}
    (h : ∀ i < 64, s.bit ⟨c, i⟩ = t.bit ⟨d, i⟩) : s.read c = t.read d :=
  BitVec.eq_of_getLsbD_eq h

/-- A cell of which no bit has changed holds the same word, or is still no cell. -/
theorem word?_eq_of_bit_eq {s s' : Store} (hcells : s'.SameCells s) {c : Nat}
    (h : ∀ i < 64, s'.bit ⟨c, i⟩ = s.bit ⟨c, i⟩) : s'.word? c = s.word? c := by
  have hlive := hcells.live c
  cases hs : s.isLive c with
  | true => rw [word?_eq_of_isLive hs, word?_eq_of_isLive (hlive.trans hs), read_eq_of_bit_eq h]
  | false =>
    rw [word?_eq_none_of_not_isLive hs, word?_eq_none_of_not_isLive (hlive.trans hs)]

/-- Stores with the same cells and the same bits are equal. -/
theorem ext_bit {s t : Store} (hcells : s.SameCells t) (hbit : ∀ b, s.bit b = t.bit b) :
    s = t := by
  have hword : ∀ i, s.word? i = t.word? i :=
    fun i => word?_eq_of_bit_eq hcells fun j _ => hbit ⟨i, j⟩
  have hsize : s.cells.size = t.cells.size := hcells.size
  rcases s with ⟨cs⟩
  rcases t with ⟨ct⟩
  congr 1
  apply Array.ext hsize
  intro i hi hi'
  have hi₂ := hword i
  simp only [word?, Array.getElem?_eq_getElem hi, Array.getElem?_eq_getElem hi',
    Option.join_some] at hi₂
  exact hi₂

/-! ## Effects of the operations on bits -/

theorem isLive_modify (s : Store) (i j : Nat) (f : Word → Word) :
    (s.modify i f).isLive j = s.isLive j := by
  rw [isLive, isLive, word?_modify]
  split
  · exact Option.isSome_map
  · rfl

theorem sameCells_modify (s : Store) (i : Nat) (f : Word → Word) :
    (s.modify i f).SameCells s :=
  ⟨size_modify s i f, fun j => isLive_modify s i j f⟩

theorem read_modify_self {s : Store} {i : Nat} (f : Word → Word) (h : s.isLive i = true) :
    (s.modify i f).read i = f (s.read i) := by
  rw [read, word?_modify, if_pos rfl, word?_eq_of_isLive h]
  rfl

theorem read_modify_of_ne {s : Store} {i j : Nat} (f : Word → Word) (h : j ≠ i) :
    (s.modify i f).read j = s.read j := by
  rw [read, word?_modify, if_neg h, read]

/-- New cells read as zero, as they did before they existed. -/
theorem bit_pushZeros (s : Store) (n : Nat) (b : Bit) : (s.pushZeros n).bit b = s.bit b := by
  unfold bit read
  rw [word?_pushZeros]
  split
  · rename_i h
    rw [word?_eq_none_of_size_le h.1]
    rfl
  · rfl

theorem isLive_pushZeros {s : Store} {n i : Nat} :
    (s.pushZeros n).isLive i = true ↔ s.isLive i = true ∨ (s.size ≤ i ∧ i < s.size + n) := by
  rw [isLive, isLive, word?_pushZeros]
  split
  · rename_i h
    exact ⟨fun _ => Or.inr h, fun _ => rfl⟩
  · rename_i h
    exact ⟨Or.inl, fun h' => h'.resolve_right h⟩

theorem sameCells_zero (s : Store) (ids : List Nat) : (s.zero ids).SameCells s := by
  induction ids generalizing s with
  | nil => exact SameCells.refl s
  | cons i ids ih => exact (ih (s.write i 0)).trans (sameCells_modify s i _)

/-- Zeroing clears the given cells and no others. -/
theorem bit_zero (s : Store) (ids : List Nat) (b : Bit) :
    (s.zero ids).bit b = if b.cell ∈ ids then false else s.bit b := by
  induction ids generalizing s with
  | nil => simp [zero]
  | cons i ids ih =>
    have hstep : s.zero (i :: ids) = (s.write i 0).zero ids := rfl
    rw [hstep, ih]
    by_cases hmem : b.cell ∈ ids
    · rw [if_pos hmem, if_pos (List.mem_cons_of_mem i hmem)]
    · rw [if_neg hmem]
      by_cases hi : b.cell = i
      · rw [if_pos (hi ▸ List.mem_cons_self)]
        unfold bit read
        rw [word?_write, if_pos hi]
        cases s.word? b.cell <;> exact BitVec.getLsbD_zero
      · rw [if_neg fun h => (List.mem_cons.1 h).elim hi hmem]
        unfold bit
        rw [write, read_modify_of_ne _ hi]

end Store

/-! ## Bits of fields -/

namespace Field

/-- The address of bit `j` of a field, if the field has that bit and a cell. -/
def bit? (f : Field) (j : Nat) : Option Bit :=
  if j < f.width then f.ref.cell?.map fun c => ⟨c, f.offset + j⟩ else none

/-- The bit belongs to the field. -/
def Covers (f : Field) (b : Bit) : Prop := ∃ j, f.bit? j = some b

theorem bit?_eq_some_iff {f : Field} {j : Nat} {b : Bit} :
    f.bit? j = some b ↔
      j < f.width ∧ f.ref.cell? = some b.cell ∧ b.index = f.offset + j := by
  unfold bit?
  constructor
  · intro h
    split at h
    · rename_i hj
      obtain ⟨c, hc, rfl⟩ := Option.map_eq_some_iff.1 h
      exact ⟨hj, hc, rfl⟩
    · cases h
  · rintro ⟨hj, hc, hi⟩
    rw [if_pos hj, hc, Option.map_some, ← hi]

theorem covers_iff {f : Field} {b : Bit} :
    f.Covers b ↔ f.ref.cell? = some b.cell ∧ b.index ∈ f.toSpan := by
  constructor
  · rintro ⟨j, h⟩
    obtain ⟨hj, hc, hi⟩ := bit?_eq_some_iff.1 h
    exact ⟨hc, by omega, by omega⟩
  · rintro ⟨hc, hlo, hhi⟩
    exact ⟨b.index - f.offset, bit?_eq_some_iff.2 ⟨by omega, hc, by omega⟩⟩

theorem isLive_iff {f : Field} {s : Store} :
    f.isLive s = true ↔ ∃ c, f.ref = .ofCell c ∧ s.isLive c = true := by
  rcases f with ⟨span, ⟨_ | c⟩⟩
  · constructor
    · intro h
      cases h
    · rintro ⟨c, h, -⟩
      cases h
  · constructor
    · intro h
      exact ⟨c, rfl, h⟩
    · rintro ⟨c', h, hlive⟩
      cases h
      exact hlive

theorem isLive_of_sameCells {s s' : Store} (h : s'.SameCells s) (f : Field) :
    f.isLive s' = f.isLive s := by
  obtain ⟨span, ⟨_ | c⟩⟩ := f
  · rfl
  · exact h.live c

theorem value?_eq_none_of_not_isLive {f : Field} {s : Store} (h : f.isLive s = false) :
    f.value? s = none := by
  rw [isLive, CellRef.isLive, Option.isSome_eq_false_iff, Option.isNone_iff_eq_none] at h
  rw [value?, h, Option.map_none]

/-- The value of a live field, bit by bit. -/
theorem value?_eq_of_isLive {f : Field} {s : Store} (h : f.isLive s = true) :
    ∃ v, f.value? s = some v ∧ ∀ j, v.getLsbD j = (f.bit? j).elim false s.bit := by
  obtain ⟨c, hc, hlive⟩ := isLive_iff.1 h
  have hword : f.ref.word? s = some (s.read c) := by
    rw [hc]
    exact Store.word?_eq_of_isLive hlive
  refine ⟨f.extract (s.read c), by rw [value?, hword]; rfl, ?_⟩
  intro j
  rw [Span.getLsbD_extract, bit?, hc]
  by_cases hj : j < f.width
  · rw [if_pos hj, decide_eq_true hj]
    rfl
  · rw [if_neg hj, decide_eq_false hj]
    rfl

/-- What a live field reads is told by its bits. -/
theorem get_of_bits {f : Field} {s : Store} (h : f.isLive s = true) {v : Word}
    (hv : ∀ j, v.getLsbD j = (f.bit? j).elim false s.bit) : f.get s = .ok v := by
  obtain ⟨w, hw, hbits⟩ := value?_eq_of_isLive h
  have heq : w = v := BitVec.eq_of_getLsbD_eq fun j _ => (hbits j).trans (hv j).symm
  rw [get_eq, hw, heq]

/-- Fields of equal width with equal bits have equal values. -/
theorem value?_congr {f g : Field} {s t : Store} (hf : f.isLive s = true)
    (hg : g.isLive t = true) (hwidth : f.width = g.width)
    (hbit : ∀ j a b, f.bit? j = some a → g.bit? j = some b → s.bit a = t.bit b) :
    f.value? s = g.value? t := by
  obtain ⟨v, hv, hvbit⟩ := value?_eq_of_isLive hf
  obtain ⟨w, hw, hwbit⟩ := value?_eq_of_isLive hg
  obtain ⟨c, hc, -⟩ := isLive_iff.1 hf
  obtain ⟨d, hd, -⟩ := isLive_iff.1 hg
  rw [hv, hw]
  congr 1
  apply BitVec.eq_of_getLsbD_eq
  intro j _
  rw [hvbit, hwbit]
  by_cases hj : j < f.width
  · have ha : f.bit? j = some ⟨c, f.offset + j⟩ :=
      bit?_eq_some_iff.2 ⟨hj, by rw [hc]; rfl, rfl⟩
    have hb : g.bit? j = some ⟨d, g.offset + j⟩ :=
      bit?_eq_some_iff.2 ⟨hwidth ▸ hj, by rw [hd]; rfl, rfl⟩
    rw [ha, hb]
    exact hbit j _ _ ha hb
  · rw [bit?, bit?, if_neg hj, if_neg (hwidth ▸ hj)]
    rfl

/-- What an edit of a live field does to the store. -/
structure Edited (f : Field) (e : Edit) (s s' : Store) : Prop where
  cells : s'.SameCells s
  inside : ∀ {j : Nat} {b : Bit}, f.bit? j = some b → s'.bit b = e.bit j (s.bit b)
  outside : ∀ {b : Bit}, ¬ f.Covers b → s'.bit b = s.bit b

theorem edit_of_isLive {f : Field} {s : Store} (e : Edit) (h : f.isLive s = true) :
    ∃ s', f.edit e s = .done s' ∧ f.Edited e s s' := by
  obtain ⟨c, hc, hlive⟩ := isLive_iff.1 h
  refine ⟨s.modify c fun w => e.apply f.toSpan w, ?_, Store.sameCells_modify _ _ _, ?_, ?_⟩
  · rw [edit, hc]
    exact CellRef.update_ofCell_of_isLive _ hlive
  · intro j b hb
    obtain ⟨hj, hcell, hi⟩ := bit?_eq_some_iff.1 hb
    rw [hc] at hcell
    obtain rfl : c = b.cell := Option.some.inj hcell
    have hmem : b.index ∈ f.toSpan := ⟨by omega, by omega⟩
    have hsub : b.index - f.offset = j := by omega
    rw [Store.bit, Store.read_modify_self _ hlive, Edit.getLsbD_apply, if_pos hmem, hsub]
    rfl
  · intro b hb
    by_cases hcell : b.cell = c
    · have hmem : b.index ∉ f.toSpan := by
        intro hmem
        exact hb (covers_iff.2 ⟨by rw [hc, hcell]; rfl, hmem⟩)
      rw [Store.bit, hcell, Store.read_modify_self _ hlive, Edit.getLsbD_apply, if_neg hmem,
        Store.bit, hcell]
    · rw [Store.bit, Store.read_modify_of_ne _ hcell, Store.bit]

theorem edit_of_not_isLive {f : Field} {s : Store} (e : Edit) (h : f.isLive s = false) :
    f.edit e s = .failed s .danglingReference :=
  CellRef.update_of_not_isLive _ h

end Field

/-! ## Bits of sockets -/

namespace Socket

/-- What a wire between live fields does to the store. -/
structure Copied (w : Socket) (s s' : Store) : Prop where
  cells : s'.SameCells s
  inside : ∀ {j : Nat} {a b : Bit}, w.source.bit? j = some a → w.target.bit? j = some b →
    s'.bit b = s.bit a
  outside : ∀ {b : Bit}, ¬ w.target.Covers b → s'.bit b = s.bit b

theorem tick_of_isLive {w : Socket} {s : Store} (hsource : w.source.isLive s = true)
    (htarget : w.target.isLive s = true) : ∃ s', w.tick s = .done s' ∧ w.Copied s s' := by
  obtain ⟨v, hv, hbit⟩ := Field.value?_eq_of_isLive hsource
  obtain ⟨s', hedit, hs'⟩ := Field.edit_of_isLive (.set v) htarget
  refine ⟨s', ?_, hs'.cells, ?_, hs'.outside⟩
  · rw [tick, Field.get_eq, hv]
    exact hedit
  · intro j a b ha hb
    rw [hs'.inside hb, Edit.bit, hbit, ha]
    rfl

end Socket

end PackedLogic
