import Mathlib.Data.Nat.Bitwise
import PackedLogic.Span
set_option autoImplicit false

/-!
# Masks

A mask of low bits is a power of two less one, and a mask of any range is such a mask moved up.  The
arithmetic of a single word knows neither the power that is just past the word nor a move by the
whole word or more, so both are taken apart first, and then no step of it can fail
(`onesInWord?_eq`, `maskInWord?_eq`).  The masks that come out are exact for ranges of any size, and
two ranges within a word share an index just when their masks share a bit (`and_mask_eq_zero_iff`).
-/

namespace PackedLogic

/-! ## The arithmetic of a word -/

/-- The word moved up by some bits, of which there must be fewer than the word has. -/
def shiftInWord? (w : Word) (amount : Nat) : Option Word :=
  if amount < cellBits then some (w <<< amount) else none

/-- The difference of two words, which must not be negative. -/
def subtractInWord? (v w : Word) : Option Word := if w ≤ v then some (v - w) else none

/-- The mask of the low bits, one less than the power of two above them. -/
def onesInWord? (width : Nat) : Option Word :=
  if cellBits ≤ width then some (BitVec.allOnes 64)
  else do
    let power ← shiftInWord? 1#64 width
    subtractInWord? power 1#64

/-- The mask of a range, moved up from the bottom of the word. -/
def maskInWord? (offset width : Nat) : Option Word := do
  let low ← onesInWord? width
  if cellBits ≤ offset then return 0#64 else shiftInWord? low offset

theorem ones_of_ge {width : Nat} (h : cellBits ≤ width) : ones width = BitVec.allOnes 64 := by
  unfold cellBits at h
  rw [ones, show 64 - width = 0 by omega, BitVec.ushiftRight_zero]

theorem toNat_ones {width : Nat} (h : width < cellBits) : (ones width).toNat = 2 ^ width - 1 := by
  unfold cellBits at h
  apply Nat.eq_of_testBit_eq
  intro i
  rw [BitVec.testBit_toNat, getLsbD_ones, Nat.testBit_two_pow_sub_one, decide_eq_decide]
  omega

theorem toNat_one_shiftLeft {width : Nat} (h : width < cellBits) :
    (1#64 <<< width).toNat = 2 ^ width := by
  have hlt : 2 ^ width < 2 ^ 64 := Nat.pow_lt_pow_right (by decide) h
  rw [BitVec.toNat_shiftLeft, Nat.shiftLeft_eq, BitVec.toNat_one (by decide), Nat.one_mul,
    Nat.mod_eq_of_lt hlt]

/-- The mask of low bits can be formed for every width. -/
theorem onesInWord?_eq (width : Nat) : onesInWord? width = some (ones width) := by
  unfold onesInWord?
  split
  · rename_i hwide
    rw [ones_of_ge hwide]
  · rename_i hnarrow
    have hlt : width < cellBits := Nat.lt_of_not_le hnarrow
    have hpower := toNat_one_shiftLeft hlt
    have hle : 1#64 ≤ 1#64 <<< width := by
      rw [BitVec.le_def, hpower]
      exact Nat.two_pow_pos width
    rw [shiftInWord?, if_pos hlt, Option.bind_eq_bind, Option.bind_some, subtractInWord?, if_pos hle]
    congr 1
    apply BitVec.eq_of_toNat_eq
    rw [BitVec.toNat_sub_of_le hle, hpower, toNat_ones hlt, BitVec.toNat_one (by decide)]

theorem fieldMask_of_ge {offset : Nat} (h : cellBits ≤ offset) (width : Nat) :
    fieldMask offset width = 0#64 := by
  unfold cellBits at h
  apply BitVec.eq_of_getLsbD_eq
  intro i hi
  rw [getLsbD_fieldMask, BitVec.getLsbD_zero, decide_eq_false_iff_not]
  omega

/-- The mask of a range can be formed for every offset and every width. -/
theorem maskInWord?_eq (offset width : Nat) :
    maskInWord? offset width = some (fieldMask offset width) := by
  rw [maskInWord?, onesInWord?_eq, Option.bind_eq_bind, Option.bind_some]
  split
  · rename_i hbeyond
    rw [fieldMask_of_ge hbeyond]
    rfl
  · rename_i hwithin
    have hlt : offset < cellBits := Nat.lt_of_not_le hwithin
    rw [shiftInWord?, if_pos hlt, fieldMask, Nat.min_eq_left (Nat.le_of_lt hlt : offset ≤ 64)]

/-! ## Masks of ranges within a word -/

namespace Span

/-- The masks of two ranges share no bit unless the ranges share an index. -/
theorem and_mask_eq_zero_iff {s t : Span} : s.mask &&& t.mask = 0#64 ↔ ∀ i, ¬ (i ∈ s ∧ i ∈ t) := by
  constructor
  · rintro h i ⟨hs, ht⟩
    have hbit := congrArg (fun w : Word => w.getLsbD i) h
    simp [getLsbD_mask, hs, ht] at hbit
  · intro h
    apply BitVec.eq_of_getLsbD_eq
    intro i _
    rw [BitVec.getLsbD_and, getLsbD_mask, getLsbD_mask, BitVec.getLsbD_zero, ← Bool.decide_and,
      decide_eq_false_iff_not]
    exact h i

/-- The complement of a mask selects the bits outside the range. -/
theorem getLsbD_not_mask (s : Span) {i : Nat} (hi : i < 64) :
    (~~~s.mask).getLsbD i = decide (i ∉ s) := by
  rw [BitVec.getLsbD_not, getLsbD_mask, decide_eq_true hi, Bool.true_and, decide_not]

end Span

/-- Masks are exact for all sizes, and the arithmetic of a word forms them without ever failing. -/
theorem masks_exact :
    (∀ width, onesInWord? width = some (ones width) ∧
      ∀ i < 64, ((ones width).getLsbD i = true ↔ i < width)) ∧
    (∀ offset width, maskInWord? offset width = some (fieldMask offset width) ∧
      ∀ i < 64, ((fieldMask offset width).getLsbD i = true ↔ offset ≤ i ∧ i < offset + width)) ∧
    (∀ s t : Span, s.mask &&& t.mask = 0#64 ↔ ∀ i, ¬ (i ∈ s ∧ i ∈ t)) ∧
    ∀ (s : Span), ∀ i < 64, ((~~~s.mask).getLsbD i = true ↔ i ∉ s) := by
  refine ⟨?_, ?_, fun s t => Span.and_mask_eq_zero_iff, ?_⟩
  · intro width
    refine ⟨onesInWord?_eq width, fun i hi => ?_⟩
    rw [getLsbD_ones, decide_eq_true_eq]
    exact and_iff_right hi
  · intro offset width
    refine ⟨maskInWord?_eq offset width, fun i hi => ?_⟩
    rw [getLsbD_fieldMask, decide_eq_true_eq]
    exact and_iff_right hi
  · intro s i hi
    rw [s.getLsbD_not_mask hi, decide_eq_true_eq]

/-- A range that ends far past the word keeps the bits that it has in it. -/
example : maskInWord? 60 (2 ^ 64 - 1) = some 0xF000000000000000 ∧ maskInWord? 64 1 = some 0 := by
  decide

end PackedLogic
