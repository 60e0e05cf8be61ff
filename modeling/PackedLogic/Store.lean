import PackedLogic.Attempt
import PackedLogic.Word
set_option autoImplicit false

/-!
# The cell store

All cells of all owners live in one store.  A cell is named by a natural number, the number of
cells created before it, so that a released cell's name is never given out again.  The view of a store is
`Store.word?`: the word of a cell that exists, and nothing for one that was released or never
created.  Each operation has one law about this view.

A `CellRef` names a cell without keeping it: every use of it checks that the cell still exists.
-/

namespace PackedLogic

/-- The cells created so far, in order of creation; a released one holds no word. -/
structure Store where
  cells : Array (Option Word) := #[]
  deriving DecidableEq, Repr, Inhabited

namespace Store

/-- The number of cells ever created, which is the name of the next one. -/
def size (s : Store) : Nat := s.cells.size

/-- The word in a cell, if the cell exists. -/
def word? (s : Store) (i : Nat) : Option Word := s.cells[i]?.join

/-- The cell exists. -/
def isLive (s : Store) (i : Nat) : Bool := (s.word? i).isSome

/-- The word in a cell as its owner reads it. -/
def read (s : Store) (i : Nat) : Word := (s.word? i).getD 0

/-- Creates one cell holding `w`; its name is the size of the store before. -/
def push (s : Store) (w : Word) : Store := ⟨s.cells.push (some w)⟩

/-- Creates `n` cells holding zero; the first one's name is the size of the store before. -/
def pushZeros (s : Store) (n : Nat) : Store := ⟨s.cells ++ Array.replicate n (some 0)⟩

/-- Changes the word of a cell by `f`.  A cell that does not exist stays so. -/
def modify (s : Store) (i : Nat) (f : Word → Word) : Store :=
  ⟨s.cells.modify i (Option.map f)⟩

/-- Overwrites the word of a cell. -/
def write (s : Store) (i : Nat) (w : Word) : Store := s.modify i fun _ => w

/-- Ends the existence of a cell. -/
def release (s : Store) (i : Nat) : Store := ⟨s.cells.modify i fun _ => none⟩

/-- Overwrites all the given cells with zero. -/
def zero (s : Store) (ids : List Nat) : Store := ids.foldl (fun s i => s.write i 0) s

/-- Ends the existence of all the given cells. -/
def releaseAll (s : Store) (ids : List Nat) : Store := ids.foldl release s

theorem word?_eq_none_of_size_le {s : Store} {i : Nat} (h : s.size ≤ i) :
    s.word? i = none := by
  simp [word?, Array.getElem?_eq_none h]

theorem word?_push (s : Store) (w : Word) (i : Nat) :
    (s.push w).word? i = if i = s.size then some w else s.word? i := by
  by_cases h : i = s.size
  · subst h
    simp [word?, push, size]
  · rw [if_neg h]
    simp [word?, push, Array.getElem?_push, show i ≠ s.cells.size from h]

theorem word?_pushZeros (s : Store) (n : Nat) (i : Nat) :
    (s.pushZeros n).word? i =
      if s.size ≤ i ∧ i < s.size + n then some 0 else s.word? i := by
  by_cases h : s.size ≤ i ∧ i < s.size + n
  · rw [if_pos h]
    obtain ⟨h₁, h₂⟩ := h
    unfold size at h₁ h₂
    simp [word?, pushZeros, Array.getElem?_append, Nat.not_lt.2 h₁,
      show i - s.cells.size < n by omega]
  · rw [if_neg h]
    unfold size at h
    by_cases h' : i < s.cells.size
    · simp [word?, pushZeros, Array.getElem?_append, h']
    · simp [word?, pushZeros, Array.getElem?_append, h',
        show ¬ i - s.cells.size < n by omega]

theorem word?_modify (s : Store) (i j : Nat) (f : Word → Word) :
    (s.modify i f).word? j = if j = i then (s.word? j).map f else s.word? j := by
  simp only [word?, modify, Array.getElem?_modify]
  by_cases h : i = j
  · subst h
    cases hc : s.cells[i]? with
    | none => simp
    | some c => cases c <;> simp
  · rw [if_neg h, if_neg (Ne.symm h)]

theorem word?_write (s : Store) (i j : Nat) (w : Word) :
    (s.write i w).word? j = if j = i then (s.word? j).map fun _ => w else s.word? j :=
  word?_modify s i j _

theorem word?_release (s : Store) (i j : Nat) :
    (s.release i).word? j = if j = i then none else s.word? j := by
  simp only [word?, release, Array.getElem?_modify]
  by_cases h : i = j
  · subst h
    cases hc : s.cells[i]? with
    | none => simp
    | some c => simp
  · rw [if_neg h, if_neg (Ne.symm h)]

@[simp] theorem size_push (s : Store) (w : Word) : (s.push w).size = s.size + 1 := by
  simp [size, push]

@[simp] theorem size_pushZeros (s : Store) (n : Nat) : (s.pushZeros n).size = s.size + n := by
  simp [size, pushZeros]

@[simp] theorem size_modify (s : Store) (i : Nat) (f : Word → Word) :
    (s.modify i f).size = s.size := by
  simp [size, modify]

@[simp] theorem size_release (s : Store) (i : Nat) : (s.release i).size = s.size := by
  simp [size, release]

end Store

/-- A reference to a cell that does not keep the cell.  The default one points nowhere. -/
structure CellRef where
  cell? : Option Nat := none
  deriving DecidableEq, Repr, Inhabited

namespace CellRef

/-- The reference to the cell named `i`. -/
def ofCell (i : Nat) : CellRef := ⟨some i⟩

/-- Both references name the same cell, or both point nowhere. -/
def sameCell (a b : CellRef) : Bool := a.cell? == b.cell?

/-- The word of the cell referred to, if that cell exists. -/
def word? (r : CellRef) (s : Store) : Option Word := r.cell?.bind s.word?

/-- The cell referred to exists. -/
def isLive (r : CellRef) (s : Store) : Bool := (r.word? s).isSome

/-- Reads the cell. -/
def load (r : CellRef) (s : Store) : Except Fault Word :=
  match r.word? s with
  | some w => .ok w
  | none => .error .danglingReference

/-- Changes the word of the cell by `f`. -/
def update (r : CellRef) (f : Word → Word) (s : Store) : Attempt Store :=
  match r.cell? with
  | some i => if s.isLive i then .done (s.modify i f) else .failed s .danglingReference
  | none => .failed s .danglingReference

/-- Overwrites the cell. -/
def store (r : CellRef) (w : Word) (s : Store) : Attempt Store := r.update (fun _ => w) s

@[simp] theorem word?_ofCell (i : Nat) (s : Store) : (ofCell i).word? s = s.word? i := rfl

/-- An update is refused exactly when the cell does not exist, and then changes nothing. -/
theorem update_of_not_isLive {r : CellRef} {s : Store} (f : Word → Word)
    (h : r.isLive s = false) : r.update f s = .failed s .danglingReference := by
  rcases r with ⟨_ | i⟩
  · rfl
  · exact if_neg (by simpa [isLive, Store.isLive, word?] using h)

theorem update_ofCell_of_isLive {i : Nat} {s : Store} (f : Word → Word)
    (h : s.isLive i = true) : (ofCell i).update f s = .done (s.modify i f) :=
  if_pos h

end CellRef

end PackedLogic
