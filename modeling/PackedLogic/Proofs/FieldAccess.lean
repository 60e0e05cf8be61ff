import PackedLogic.Proofs.Bits
import Mathlib.Data.Nat.Bitwise
set_option autoImplicit false

/-!
# Reading and editing one field

A field is a window on the word of its cell.  What it reads is the number that the bits in the window
form (`Span.toNat_extract`), and an edit acts on these bits one by one and on nothing else in the
store (`Field.rewrites_of_edited`).  So two fields know of each other through the bits that they
share only: what is written through one is seen through the other at these bits, and edits of fields
that share no bit may be made in either order (`Field.Edited.comm`).
-/

namespace PackedLogic

/-- The value of a span is a stretch of the word's binary digits. -/
theorem Span.toNat_extract (s : Span) (w : Word) :
    (s.extract w).toNat = w.toNat / 2 ^ s.offset % 2 ^ s.width := by
  apply Nat.eq_of_testBit_eq
  intro j
  rw [BitVec.testBit_toNat, getLsbD_extract, Nat.testBit_mod_two_pow, Nat.testBit_div_two_pow,
    BitVec.testBit_toNat, Nat.add_comm]

namespace Field

variable {f g : Field} {e e' : Edit} {c : Nat} {s s' : Store}

theorem bit?_of_ref (href : f.ref = .ofCell c) {j : Nat} (hj : j < f.width) :
    f.bit? j = some ⟨c, f.offset + j⟩ :=
  bit?_eq_some_iff.2 ⟨hj, congrArg CellRef.cell? href, rfl⟩

theorem covers_of_ref (href : f.ref = .ofCell c) {b : Bit} :
    f.Covers b ↔ b.cell = c ∧ b.index ∈ f.toSpan := by
  rw [covers_iff, href]
  exact and_congr_left' (Option.some_inj.trans eq_comm)

theorem get_of_word? (href : f.ref = .ofCell c) {w : Word} (hw : s.word? c = some w) :
    f.get s = .ok (f.extract w) := by
  rw [get_eq, value?, href, CellRef.word?_ofCell, hw]
  rfl

/-! ## What a field reads -/

/-- Fields of equal width with equal bits read the same. -/
theorem get_congr {t : Store} (hf : f.isLive s = true) (hg : g.isLive t = true)
    (hwidth : f.width = g.width)
    (hbit : ∀ j a b, f.bit? j = some a → g.bit? j = some b → s.bit a = t.bit b) :
    f.get s = g.get t := by
  rw [get_eq, get_eq, value?_congr hf hg hwidth hbit]

/-- A field whose bits have not changed reads what it read. -/
theorem get_eq_of_bits (hf : f.isLive s = true) (hf' : f.isLive s' = true)
    (hbits : ∀ b, f.Covers b → s'.bit b = s.bit b) : f.get s' = f.get s := by
  refine get_congr hf' hf rfl ?_
  intro j a b ha hb
  obtain rfl : a = b := Option.some.inj (ha.symm.trans hb)
  exact hbits a ⟨j, ha⟩

theorem exists_get (hf : f.isLive s = true) : ∃ v, f.get s = .ok v := by
  obtain ⟨v, hv, -⟩ := value?_eq_of_isLive hf
  exact ⟨v, by rw [get_eq, hv]⟩

theorem isLive_of_get {v : Word} (h : f.get s = .ok v) : f.isLive s = true := by
  by_contra hdead
  rw [get_eq, value?_eq_none_of_not_isLive (Bool.eq_false_of_not_eq_true hdead)] at h
  cases h

/-- What a field reads tells its bits. -/
theorem bit_eq_of_get {v : Word} (h : f.get s = .ok v) {j : Nat} {b : Bit}
    (hb : f.bit? j = some b) : s.bit b = v.getLsbD j := by
  obtain ⟨w, hw, hbits⟩ := value?_eq_of_isLive (isLive_of_get h)
  rw [get_eq, hw] at h
  rw [← Except.ok.inj h, hbits, hb]
  rfl

/-! ## One field -/

/-- What an edit of a field in cell `c` makes of the store.  Bit `j` of the field becomes bit `j` of
the operand, zero, or the "or" or the "and" of both; all other bits and all other cells stay. -/
structure Rewrites (f : Field) (c : Nat) (e : Edit) (s s' : Store) : Prop where
  inside : ∀ j < f.width, s'.bit ⟨c, f.offset + j⟩ = e.bit j (s.bit ⟨c, f.offset + j⟩)
  outside : ∀ i, i ∉ f.toSpan → s'.bit ⟨c, i⟩ = s.bit ⟨c, i⟩
  others : ∀ d, d ≠ c → s'.word? d = s.word? d
  cells : s'.SameCells s

theorem rewrites_of_edited (href : f.ref = .ofCell c) (h : f.Edited e s s') :
    f.Rewrites c e s s' := by
  refine ⟨?_, ?_, ?_, h.cells⟩
  · intro j hj
    exact h.inside (bit?_of_ref href hj)
  · intro i hi
    exact h.outside fun hcovers => hi ((covers_of_ref href).1 hcovers).2
  · intro d hd
    refine Store.word?_eq_of_bit_eq h.cells fun i _ => h.outside ?_
    exact fun hcovers => hd ((covers_of_ref href).1 hcovers).1

/-- A field in cell `c` reads the number that its bits form, and edits act on these bits only. -/
structure ActsOn (f : Field) (c : Nat) (s : Store) : Prop where
  reads : ∃ v, f.get s = .ok v ∧
    v.toNat = Nat.ofBits (fun j : Fin f.width => s.bit ⟨c, f.offset + j⟩) ∧
      v.toNat < 2 ^ f.width
  edits : ∀ e, ∃ s', f.edit e s = .done s' ∧ f.Rewrites c e s s'

theorem toNat_extract_eq_ofBits (f : Field) (w : Word) :
    (f.extract w).toNat = Nat.ofBits fun j : Fin f.width => w.getLsbD (f.offset + j) := by
  rw [Span.toNat_extract, ← Nat.ofBits_testBit]
  congr 1
  funext j
  rw [Nat.testBit_div_two_pow, BitVec.testBit_toNat, Nat.add_comm]

theorem actsOn (href : f.ref = .ofCell c) (hlive : f.isLive s = true) : f.ActsOn c s := by
  constructor
  · have hcell : s.isLive c = true := by
      rw [isLive, href] at hlive
      exact hlive
    refine ⟨_, get_of_word? href (Store.word?_eq_of_isLive hcell), ?_, ?_⟩
    · exact f.toNat_extract_eq_ofBits (s.read c)
    · rw [f.toNat_extract_eq_ofBits]
      exact Nat.ofBits_lt_two_pow _
  · intro e
    obtain ⟨s', hedit, hedited⟩ := edit_of_isLive e hlive
    exact ⟨s', hedit, rewrites_of_edited href hedited⟩

/-! ## Two fields -/

/-- The fields share no bit. -/
def Apart (f g : Field) : Prop := ∀ b, f.Covers b → ¬ g.Covers b

theorem Apart.symm (h : f.Apart g) : g.Apart f := fun b hg hf => h b hf hg

/-- Fields share no bit unless they have bits of one cell and neither ends before the other begins. -/
theorem apart_iff : f.Apart g ↔ f.ref.cell? = none ∨ f.ref.cell? ≠ g.ref.cell? ∨ f.width = 0 ∨
    g.width = 0 ∨ f.offset + f.width ≤ g.offset ∨ g.offset + g.width ≤ f.offset := by
  constructor
  · intro h
    by_contra! hmeet
    obtain ⟨hcell, hsame, hwidth, hwidth', hend, hend'⟩ := hmeet
    obtain ⟨c, hc⟩ := Option.ne_none_iff_exists'.1 hcell
    -- the bit at which the later one of the two begins
    have hindex : max f.offset g.offset ∈ f.toSpan := ⟨by omega, by omega⟩
    have hindex' : max f.offset g.offset ∈ g.toSpan := ⟨by omega, by omega⟩
    exact h ⟨c, max f.offset g.offset⟩ (covers_iff.2 ⟨hc, hindex⟩)
      (covers_iff.2 ⟨hsame.symm.trans hc, hindex'⟩)
  · intro h b hb hb'
    obtain ⟨hcell, hlow, hhigh⟩ := covers_iff.1 hb
    obtain ⟨hcell', hlow', hhigh'⟩ := covers_iff.1 hb'
    rw [hcell, hcell'] at h
    rcases h with h | h | h
    · cases h
    · exact h rfl
    · omega

instance (f g : Field) : Decidable (f.Apart g) := decidable_of_iff _ apart_iff.symm

/-- What the field `g`, which read `v`, reads after an edit of the field `f`: edited bits where `f` has
them too, and old bits elsewhere. -/
structure Sees (g f : Field) (e : Edit) (v v' : Word) : Prop where
  common : ∀ {i j : Nat} {b : Bit}, f.bit? i = some b → g.bit? j = some b →
    v'.getLsbD j = e.bit i (v.getLsbD j)
  elsewhere : ∀ {j : Nat} {b : Bit}, g.bit? j = some b → ¬ f.Covers b →
    v'.getLsbD j = v.getLsbD j
  beyond : ∀ j, g.width ≤ j → v'.getLsbD j = false

theorem exists_sees (h : f.Edited e s s') (hg : g.isLive s = true) :
    ∃ v v', g.get s = .ok v ∧ g.get s' = .ok v' ∧ g.Sees f e v v' := by
  obtain ⟨v, hv, hbits⟩ := value?_eq_of_isLive hg
  obtain ⟨v', hv', hbits'⟩ := value?_eq_of_isLive ((isLive_of_sameCells h.cells g).trans hg)
  refine ⟨v, v', by rw [get_eq, hv], by rw [get_eq, hv'], ?_, ?_, ?_⟩
  · intro i j b hi hj
    rw [hbits, hbits', hj]
    exact h.inside hi
  · intro j b hj hb
    rw [hbits, hbits', hj]
    exact h.outside hb
  · intro j hj
    rw [hbits', bit?, if_neg (Nat.not_lt.2 hj)]
    rfl

/-- Two edits of fields that share no bit lead to the same store in either order. -/
theorem Edited.comm {s₁ s₂ t t' : Store} (hf : f.Edited e s s₁) (hg : g.Edited e' s₁ t)
    (hg' : g.Edited e' s s₂) (hf' : f.Edited e s₂ t')
    (hapart : f.Apart g) : t = t' := by
  have hcells : t.SameCells t' := hg.cells.trans
    (hf.cells.trans (hf'.cells.trans hg'.cells).symm)
  refine Store.ext_bit hcells fun b => ?_
  by_cases hb : f.Covers b
  · obtain ⟨i, hi⟩ := hb
    have hnot := hapart b ⟨i, hi⟩
    rw [hg.outside hnot, hf.inside hi, hf'.inside hi, hg'.outside hnot]
  · rw [hf'.outside hb]
    by_cases hb' : g.Covers b
    · obtain ⟨j, hj⟩ := hb'
      rw [hg.inside hj, hf.outside hb, hg'.inside hj]
    · rw [hg.outside hb', hf.outside hb, hg'.outside hb']

theorem edit_comm (hf : f.isLive s = true) (hg : g.isLive s = true) (hapart : f.Apart g)
    (e e' : Edit) :
    ∃ t, (f.edit e s).andThen (g.edit e') = .done t ∧
      (g.edit e' s).andThen (f.edit e) = .done t := by
  obtain ⟨s₁, hfirst, hedited₁⟩ := edit_of_isLive e hf
  obtain ⟨s₂, hfirst', hedited₂⟩ := edit_of_isLive e' hg
  obtain ⟨t, hsecond, hedited⟩ :=
    edit_of_isLive e' ((isLive_of_sameCells hedited₁.cells g).trans hg)
  obtain ⟨t', hsecond', hedited'⟩ :=
    edit_of_isLive e ((isLive_of_sameCells hedited₂.cells f).trans hf)
  obtain rfl := hedited₁.comm hedited hedited₂ hedited' hapart
  refine ⟨t, ?_, ?_⟩
  · rw [hfirst, Attempt.done_andThen, hsecond]
  · rw [hfirst', Attempt.done_andThen, hsecond']

/-- A live field is read and edited bit by bit.  Another live field, whether it lies in the same cell
or not, sees an edit in the bits that both have and nowhere else, and edits of fields without a bit in
common may be made in either order. -/
theorem acts_on_own_bits (hf : f.isLive s = true) :
    (∃ c, f.ref = .ofCell c ∧ f.ActsOn c s) ∧
      ∀ g : Field, g.isLive s = true →
        (∀ e, ∃ s' v v', f.edit e s = .done s' ∧ g.get s = .ok v ∧ g.get s' = .ok v' ∧
          g.Sees f e v v') ∧
        (f.Apart g → ∀ e e', ∃ t, (f.edit e s).andThen (g.edit e') = .done t ∧
          (g.edit e' s).andThen (f.edit e) = .done t) := by
  obtain ⟨c, href, -⟩ := isLive_iff.1 hf
  refine ⟨⟨c, href, actsOn href hf⟩, ?_⟩
  intro g hg
  refine ⟨?_, fun hapart => edit_comm hf hg hapart⟩
  intro e
  obtain ⟨s', hedit, hedited⟩ := edit_of_isLive e hf
  obtain ⟨v, v', hv, hv', hsees⟩ := exists_sees hedited hg
  exact ⟨s', v, v', hedit, hv, hv', hsees⟩

/-- Bits 4 to 11 of a word, seen by bits 8 to 15 and edited together with bits 12 to 63. -/
theorem acts_on_own_bits_windows :
    let s : Store := ⟨#[some 0, some 0xF0F0]⟩
    let low : Field := ⟨⟨4, 8, by decide⟩, .ofCell 1⟩
    let middle : Field := ⟨⟨8, 8, by decide⟩, .ofCell 1⟩
    let high : Field := ⟨⟨12, 52, by decide⟩, .ofCell 1⟩
    low.isLive s = true ∧ middle.isLive s = true ∧ high.isLive s = true ∧
      low.Apart high ∧ low.ActsOn 1 s ∧
      (∃ s' v v', low.edit (.multiply 0x5A) s = .done s' ∧ middle.get s = .ok v ∧
        middle.get s' = .ok v' ∧ middle.Sees low (.multiply 0x5A) v v') ∧
      ∃ t, (low.edit (.add 3) s).andThen (high.edit .clear) = .done t ∧
        (high.edit .clear s).andThen (low.edit (.add 3)) = .done t := by
  intro s low middle high
  have hlow : low.isLive s = true := by decide
  have hmiddle : middle.isLive s = true := by decide
  have hhigh : high.isLive s = true := by decide
  have hapart : low.Apart high := by decide
  obtain ⟨⟨c, href, hacts⟩, hothers⟩ := acts_on_own_bits hlow
  obtain rfl : 1 = c := Option.some.inj (congrArg CellRef.cell? href)
  exact ⟨hlow, hmiddle, hhigh, hapart, hacts, (hothers middle hmiddle).1 _,
    (hothers high hhigh).2 hapart _ _⟩

end Field

end PackedLogic
