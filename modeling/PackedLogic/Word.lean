set_option autoImplicit false

/-!
# Words and bit masks

All state is held in words of `cellBits` bits.  A mask selects the bits of a range
`[offset, offset + width)`; offsets and widths are unbounded naturals, and whatever lies past the
top of the word is dropped.  The two laws `getLsbD_ones` and `getLsbD_fieldMask` say bit by bit
what the masks are, and everything else about them follows from these.
-/

namespace PackedLogic

/-- The number of bits in one storage cell. -/
def cellBits : Nat := 64

/-- The content of one storage cell. -/
abbrev Word := BitVec 64

theorem cellBits_eq : cellBits = 64 := rfl

theorem one_le_cellBits : 1 ≤ cellBits := by decide

/-- The word with the low `width` bits set.  Widths past the word saturate. -/
def ones (width : Nat) : Word := BitVec.allOnes 64 >>> (64 - width)

/-- The word with exactly the bits of `[offset, offset + width)` set. -/
def fieldMask (offset width : Nat) : Word := ones width <<< min offset 64

/-- Bit `i` of `ones width` is set iff `i` lies below `width`. -/
theorem getLsbD_ones (width i : Nat) :
    (ones width).getLsbD i = decide (i < 64 ∧ i < width) := by
  rw [Bool.eq_iff_iff]
  simp only [ones, BitVec.getLsbD_ushiftRight, BitVec.getLsbD_allOnes, decide_eq_true_eq]
  omega

/-- Bit `i` of a mask is set iff `i` lies in the range. -/
theorem getLsbD_fieldMask (offset width i : Nat) :
    (fieldMask offset width).getLsbD i =
      decide (i < 64 ∧ offset ≤ i ∧ i < offset + width) := by
  rw [Bool.eq_iff_iff]
  simp only [fieldMask, BitVec.getLsbD_shiftLeft, getLsbD_ones, Bool.and_eq_true,
    Bool.not_eq_true', decide_eq_true_eq, decide_eq_false_iff_not]
  omega

end PackedLogic
