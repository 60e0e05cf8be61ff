import PackedLogic.Bank.Block
import PackedLogic.Event
set_option autoImplicit false

/-!
# Banks

A bank is a list of blocks that only grows.  `Bank.lend?` lends one field per lane, all with the same
span of the same block; a block is appended when none has room.  `Bank.lendWhole` appends a block
whose cells are handed out whole.  Nothing is ever taken back: releasing a bank ends all its cells
at once.
-/

namespace PackedLogic

/-- All numbers of a list together. -/
def total (ns : List Nat) : Nat := ns.foldr (· + ·) 0

@[simp] theorem total_nil : total [] = 0 := rfl

@[simp] theorem total_cons (n : Nat) (ns : List Nat) : total (n :: ns) = n + total ns := rfl

@[simp] theorem total_append (ns ns' : List Nat) : total (ns ++ ns') = total ns + total ns' := by
  induction ns with
  | nil => simp
  | cons n ns ih => rw [List.cons_append, total_cons, ih, total_cons, Nat.add_assoc]

/-- An allocator of parallel fields over `lanes` cells at a time. -/
structure Bank (lanes : Nat) where
  blocks : List Block := []
  deriving DecidableEq, Repr, Inhabited

/-- What lending from a bank yields: the bank and the store after, what was lent, and what is
worth reporting. -/
structure Lending (lanes : Nat) (α : Type) where
  bank : Bank lanes
  store : Store
  lent : α
  events : List Event := []

namespace Bank

variable {lanes : Nat}

/-- The number of blocks. -/
def blockCount (b : Bank lanes) : Nat := b.blocks.length

/-- Nothing has been allocated. -/
def isEmpty (b : Bank lanes) : Bool := b.blocks.isEmpty

/-- The number of bits lent in each lane, over all blocks. -/
def lentBits (b : Bank lanes) : Nat := total (b.blocks.map Block.cursor)

/-- The names of all cells, block by block and lane by lane. -/
def cells (b : Bank lanes) : List Nat := b.blocks.flatMap fun block => List.range' block.base lanes

/-- Lends `width` bits per lane, all at the same offset of the same block. -/
def lend (b : Bank lanes) (width : Nat) (fits : width ≤ cellBits) (s : Store) :
    Lending lanes (Fin lanes → Field) :=
  match firstFit width b.blocks with
  | some (slot, blocks) => { bank := ⟨blocks⟩, store := s, lent := fun lane => slot.field lane }
  | none =>
    let slot : Slot width := ⟨.fresh s.size, Block.fresh_hasRoom fits⟩
    { bank := ⟨b.blocks ++ [slot.claimed]⟩
      store := s.pushZeros lanes
      lent := fun lane => slot.field lane
      events := [.bankGrew lanes (b.blockCount + 1)] }

/-- Lends `width` bits per lane, unless no cell can hold them. -/
def lend? (b : Bank lanes) (width : Nat) (s : Store) :
    Except Fault (Lending lanes (Fin lanes → Field)) :=
  if fits : width ≤ cellBits then .ok (b.lend width fits s)
  else .error (.widthExceedsCapacity width)

/-- Appends a block and hands out its cells whole. -/
def lendWhole (b : Bank lanes) (s : Store) : Lending lanes (Fin lanes → CellRef) :=
  { bank := ⟨b.blocks ++ [.whole s.size]⟩
    store := s.pushZeros lanes
    lent := fun lane => (Block.whole s.size).ref lane }

/-- Overwrites every cell with zero. -/
def clear (b : Bank lanes) (s : Store) : Store := s.zero b.cells

/-- Ends the existence of every cell. -/
def release (b : Bank lanes) (s : Store) : Store := s.releaseAll b.cells

theorem mem_cells {b : Bank lanes} {i : Nat} :
    i ∈ b.cells ↔ ∃ block ∈ b.blocks, block.base ≤ i ∧ i < block.base + lanes := by
  simp [cells, List.mem_range'_1]

@[simp] theorem lentBits_empty : ({} : Bank lanes).lentBits = 0 := rfl

/-- Every request adds its width to what is lent. -/
theorem lentBits_lend (b : Bank lanes) (width : Nat) (fits : width ≤ cellBits) (s : Store) :
    (b.lend width fits s).bank.lentBits = b.lentBits + width := by
  unfold lend
  split
  · rename_i slot blocks h
    obtain ⟨before, rest, hbs, rfl, -⟩ := firstFit_eq_some_iff.1 h
    simp [lentBits, hbs, Slot.claimed, Block.claim]
    omega
  · simp [lentBits, Slot.claimed, Block.claim, Block.fresh]

theorem lend?_of_fits (b : Bank lanes) {width : Nat} (fits : width ≤ cellBits) (s : Store) :
    b.lend? width s = .ok (b.lend width fits s) := dif_pos fits

theorem lend?_of_wide (b : Bank lanes) {width : Nat} (h : cellBits < width) (s : Store) :
    b.lend? width s = .error (.widthExceedsCapacity width) := dif_neg (Nat.not_le.2 h)

end Bank

end PackedLogic
