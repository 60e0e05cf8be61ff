import PackedLogic.Span
import PackedLogic.Store
set_option autoImplicit false

/-!
# Fields

A `Field` is a span of the cell that a reference names.  Gate terminals, bus fields and port names
are all fields.  A field owns nothing: several may overlap, a copy addresses the same bits, and
every use of one is refused once its cell has been released, even if the field has no bits.
-/

namespace PackedLogic

/-- A range of bits of one cell. -/
structure Field extends Span where
  ref : CellRef
  deriving DecidableEq, Repr

namespace Field

/-- The field without bits and without a cell. -/
instance : Inhabited Field := ⟨⟨Span.empty, {}⟩⟩

/-- The field of the given range, if the range fits into a cell. -/
def make? (offset width : Nat) (ref : CellRef) : Except Fault Field :=
  if fits : offset + width ≤ cellBits then .ok ⟨⟨offset, width, fits⟩, ref⟩
  else .error (.outOfBounds offset width)

/-- The cell behind the field exists. -/
def isLive (f : Field) (s : Store) : Bool := f.ref.isLive s

/-- Both fields lie in the same cell, or neither has one. -/
def sameCell (f g : Field) : Bool := f.ref.sameCell g.ref

/-- The value of the field, if its cell exists. -/
def value? (f : Field) (s : Store) : Option Word := (f.ref.word? s).map f.extract

/-- Reads the field. -/
def get (f : Field) (s : Store) : Except Fault Word := (f.ref.load s).map f.extract

/-- Changes the field by `e`. -/
def edit (f : Field) (e : Edit) (s : Store) : Attempt Store :=
  f.ref.update (fun w => e.apply f.toSpan w) s

theorem get_eq (f : Field) (s : Store) :
    f.get s = match f.value? s with
      | some v => .ok v
      | none => .error .danglingReference := by
  simp only [get, value?, CellRef.load]
  cases f.ref.word? s <;> rfl

/-- A range is refused exactly when it does not fit. -/
theorem make?_eq_ok_iff {offset width : Nat} {ref : CellRef} {f : Field} :
    make? offset width ref = .ok f ↔
      f.offset = offset ∧ f.width = width ∧ f.ref = ref := by
  unfold make?
  constructor
  · intro h
    split at h
    · cases h
      exact ⟨rfl, rfl, rfl⟩
    · cases h
  · rintro ⟨rfl, rfl, rfl⟩
    rw [dif_pos f.fits]

end Field

end PackedLogic
