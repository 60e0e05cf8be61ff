import PackedLogic.Word
set_option autoImplicit false

/-!
# Spans and edits

A `Span` is a range of bits that fits into one word.  It is read with `Span.extract`, which yields
the bits of the range as a number, and changed with an `Edit`, which acts on the bits of the range
one by one and leaves all others alone (`getLsbD_extract`, `Edit.getLsbD_apply`).
-/

namespace PackedLogic

/-- The bits `[offset, offset + width)` of a word. -/
structure Span where
  offset : Nat
  width : Nat
  fits : offset + width ≤ cellBits
  deriving DecidableEq, Repr

namespace Span

/-- Bit `i` lies in the span. -/
instance : Membership Nat Span where
  mem s i := s.offset ≤ i ∧ i < s.offset + s.width

theorem mem_iff {s : Span} {i : Nat} : i ∈ s ↔ s.offset ≤ i ∧ i < s.offset + s.width := Iff.rfl

instance (s : Span) (i : Nat) : Decidable (i ∈ s) :=
  inferInstanceAs (Decidable (_ ∧ _))

/-- The span without any bit, at the bottom of the word. -/
def empty : Span := ⟨0, 0, Nat.zero_le _⟩

instance : Inhabited Span := ⟨empty⟩

theorem lt_of_mem {s : Span} {i : Nat} (h : i ∈ s) : i < 64 :=
  Nat.lt_of_lt_of_le h.2 s.fits

/-- The word with exactly the bits of the span set. -/
def mask (s : Span) : Word := fieldMask s.offset s.width

/-- The bits of the span, moved to the bottom of the word. -/
def extract (s : Span) (w : Word) : Word := (w &&& s.mask) >>> s.offset

/-- The low bits of `v`, as many as the span has, moved to where the span is. -/
def place (s : Span) (v : Word) : Word := (v &&& ones s.width) <<< s.offset

theorem getLsbD_mask (s : Span) (i : Nat) : s.mask.getLsbD i = decide (i ∈ s) := by
  rw [mask, getLsbD_fieldMask, Bool.eq_iff_iff, decide_eq_true_eq, decide_eq_true_eq]
  exact ⟨fun h => h.2, fun h => ⟨lt_of_mem h, h⟩⟩

theorem getLsbD_extract (s : Span) (w : Word) (j : Nat) :
    (s.extract w).getLsbD j = (decide (j < s.width) && w.getLsbD (s.offset + j)) := by
  simp only [extract, BitVec.getLsbD_ushiftRight, BitVec.getLsbD_and, getLsbD_mask, mem_iff]
  rw [Bool.and_comm, show decide (s.offset ≤ s.offset + j ∧ s.offset + j < s.offset + s.width) =
    decide (j < s.width) from by rw [decide_eq_decide]; omega]

theorem getLsbD_place (s : Span) (v : Word) (i : Nat) :
    (s.place v).getLsbD i = (decide (i ∈ s) && v.getLsbD (i - s.offset)) := by
  have fits : s.offset + s.width ≤ 64 := s.fits
  rw [Bool.eq_iff_iff]
  simp only [place, BitVec.getLsbD_shiftLeft, BitVec.getLsbD_and, getLsbD_ones, mem_iff,
    Bool.and_eq_true, Bool.not_eq_true', decide_eq_true_eq, decide_eq_false_iff_not]
  constructor
  · rintro ⟨⟨h₁, h₂⟩, h₃, h₄⟩
    exact ⟨by omega, h₃⟩
  · rintro ⟨h₁, h₂⟩
    exact ⟨by omega, h₂, by omega⟩

end Span

/-- A change to the bits of a span.  Only as many low bits of the operand count as the span has. -/
inductive Edit
  /-- Replaces every bit by the operand's. -/
  | set (v : Word)
  /-- Replaces every bit by zero. -/
  | clear
  /-- Joins every bit with the operand's by "or". -/
  | add (v : Word)
  /-- Joins every bit with the operand's by "and". -/
  | multiply (v : Word)
  deriving DecidableEq, Repr

namespace Edit

/-- What the edit makes of bit `j` of the span, which was `old`. -/
def bit : Edit → (j : Nat) → (old : Bool) → Bool
  | set v, j, _ => v.getLsbD j
  | clear, _, _ => false
  | add v, j, old => old || v.getLsbD j
  | multiply v, j, old => old && v.getLsbD j

/-- The word `w` after the edit of the span `s`. -/
def apply (s : Span) (w : Word) : Edit → Word
  | set v => (w &&& ~~~s.mask) ||| s.place v
  | clear => w &&& ~~~s.mask
  | add v => w ||| s.place v
  | multiply v => (w &&& ~~~s.mask) ||| (w &&& s.mask &&& s.place v)

/-- An edit acts on the bits of its span one by one and leaves all others alone. -/
theorem getLsbD_apply (e : Edit) (s : Span) (w : Word) (i : Nat) :
    (e.apply s w).getLsbD i =
      if i ∈ s then e.bit (i - s.offset) (w.getLsbD i) else w.getLsbD i := by
  by_cases hi : i < 64
  · by_cases h : i ∈ s <;> cases e <;>
      simp only [apply, bit, BitVec.getLsbD_or, BitVec.getLsbD_and, BitVec.getLsbD_not,
        Span.getLsbD_mask, Span.getLsbD_place, h, hi, decide_true, decide_false, if_true,
        if_false, Bool.not_true, Bool.not_false, Bool.and_true, Bool.and_false, Bool.true_and,
        Bool.false_and, Bool.or_false, Bool.false_or]
  · rw [if_neg fun h => hi (s.lt_of_mem h), BitVec.getLsbD_of_ge _ _ (by omega),
      BitVec.getLsbD_of_ge _ _ (by omega)]

end Edit

end PackedLogic
