import PackedLogic.Bank.Basic
set_option autoImplicit false

/-!
# Bridges

A bridge lays several views over one cell lent whole.  A view is a list of widths, and its fields
tile the cell from bit 0, each beginning where the one before it ends.  Views overlap: what is
written through one is seen through all.
-/

namespace PackedLogic

/-- The largest size that can be counted. -/
def largestSize : Nat := UInt64.size - 1

/-- The sum of two sizes, unless it is too large to be counted. -/
def addSizes? (m n : Nat) : Option Nat := if m + n ≤ largestSize then some (m + n) else none

/-- The total of a view's widths as it is counted, which is the largest size if the count fails. -/
def countedTotal (widths : List Nat) : Nat := (widths.foldlM addSizes? 0).getD largestSize

theorem foldlM_addSizes? {n : Nat} (hn : n ≤ largestSize) (widths : List Nat) :
    widths.foldlM addSizes? n =
      if n + total widths ≤ largestSize then some (n + total widths) else none := by
  induction widths generalizing n with
  | nil => exact (if_pos hn).symm
  | cons width widths ih =>
    rw [List.foldlM_cons, addSizes?, total_cons, ← Nat.add_assoc]
    split
    · rename_i hsum
      exact ih hsum
    · rename_i hlarge
      exact (if_neg (by omega)).symm

theorem countedTotal_eq (widths : List Nat) :
    countedTotal widths = min (total widths) largestSize := by
  rw [countedTotal, foldlM_addSizes? (Nat.zero_le _), Nat.zero_add]
  split
  · rename_i hcounted
    exact (Nat.min_eq_left hcounted).symm
  · rename_i hlarge
    exact (Nat.min_eq_right (Nat.le_of_not_le hlarge)).symm

/-- A cell is small enough for the count to decide exactly what it can hold. -/
theorem countedTotal_le_iff {widths : List Nat} :
    countedTotal widths ≤ cellBits ↔ total widths ≤ cellBits := by
  have hcell : cellBits < largestSize := by decide
  rw [countedTotal_eq]
  omega

theorem tail_fits {offset width : Nat} {widths : List Nat}
    (fits : offset + total (width :: widths) ≤ cellBits) :
    offset + width + total widths ≤ cellBits := by
  simpa [Nat.add_assoc] using fits

theorem head_fits {offset width : Nat} {widths : List Nat}
    (fits : offset + total (width :: widths) ≤ cellBits) : offset + width ≤ cellBits :=
  Nat.le_trans (Nat.le_add_right _ _) (tail_fits fits)

/-- The fields of the given widths, one after the other from `offset` on. -/
def tile (ref : CellRef) :
    (offset : Nat) → (widths : List Nat) → offset + total widths ≤ cellBits → List Field
  | _, [], _ => []
  | offset, width :: widths, fits =>
    ⟨⟨offset, width, head_fits fits⟩, ref⟩ ::
      tile ref (offset + width) widths (tail_fits fits)

/-- The fault of the first view that no cell can hold. -/
def oversizedView (views : List (List Nat)) : Fault :=
  let view := views.findIdx fun widths => cellBits < countedTotal widths
  .capacityExceeded view (countedTotal (views.getD view []))

theorem oversizedView_eq (views : List (List Nat)) :
    oversizedView views =
      .capacityExceeded (views.findIdx fun widths => cellBits < total widths)
        (min (total (views.getD (views.findIdx fun widths => cellBits < total widths) []))
          largestSize) := by
  have hwide : ∀ widths, cellBits < countedTotal widths ↔ cellBits < total widths := by
    intro widths
    rw [← Nat.not_le, countedTotal_le_iff, Nat.not_le]
  simp only [oversizedView, hwide]
  rw [countedTotal_eq]

/-- Lends one whole cell and lays every view over it.  All views are checked before anything is
lent. -/
def Bank.bridge? (b : Bank 1) (views : List (List Nat)) (s : Store) :
    Except Fault (Lending 1 (List (List Field))) :=
  if fits : ∀ widths ∈ views, countedTotal widths ≤ cellBits then
    let whole := b.lendWhole s
    .ok
      { bank := whole.bank
        store := whole.store
        lent := views.attach.map fun ⟨widths, member⟩ =>
          tile (whole.lent ⟨0, Nat.one_pos⟩) 0 widths
            (by simpa using countedTotal_le_iff.1 (fits widths member)) }
  else .error (oversizedView views)

theorem length_tile (ref : CellRef) (offset : Nat) (widths : List Nat)
    (fits : offset + total widths ≤ cellBits) :
    (tile ref offset widths fits).length = widths.length := by
  induction widths generalizing offset with
  | nil => rfl
  | cons width widths ih => simp [tile, ih]

end PackedLogic
