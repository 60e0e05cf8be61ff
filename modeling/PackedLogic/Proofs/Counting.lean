import PackedLogic.Proofs.Lending
set_option autoImplicit false

/-!
# Counted sizes

The allocators once more, step by step, and with all that can go wrong where sizes are counted: a sum
may exceed a limit, a range that is not tested again may reach past its cell, and a cursor may leave its
block.  Each of these is a `Breach`, which ends the work.  The tests stand where the allocators have
them.  They come before what they protect, so no breach is met if the limit is at least 128, two words
of bits: the counted allocators are the allocators (`Counted.lend_eq`, `Counted.bridge_eq`,
`Counted.make_eq`).
-/

namespace PackedLogic

/-- What goes wrong where sizes are counted. -/
inductive Breach
  /-- The sum exceeds the limit. -/
  | sum (m n : Nat)
  /-- The range reaches past its cell. -/
  | range (offset width : Nat)
  /-- The cursor leaves its block. -/
  | cursor (n : Nat)
  deriving DecidableEq, Repr

namespace Counted

variable (limit : Nat)

/-- The sum of two sizes. -/
def sum (m n : Nat) : Except Breach Nat := if m + n ≤ limit then .ok (m + n) else .error (.sum m n)

/-- A range that nobody tests any more. -/
def span (offset width : Nat) : Except Breach Span := do
  let _ ← sum limit offset width
  if fits : offset + width ≤ cellBits then return ⟨offset, width, fits⟩ else throw (.range offset width)

/-- The block after serving `width` more bits. -/
def claim (b : Block) (width : Nat) : Except Breach Block := do
  let cursor ← sum limit b.cursor width
  if fits : cursor ≤ cellBits then return ⟨b.base, cursor, fits⟩ else throw (.cursor cursor)

/-! ## The allocators -/

/-- Makes a field.  The sum is tested for being too large to be counted. -/
def make (offset width : Nat) (ref : CellRef) : Except Breach (Except Fault Field) :=
  let fits := (addSizes? offset width).any fun stop => stop ≤ cellBits
  if fits = false ∨ cellBits < offset ∨ cellBits < width then
    return .error (.outOfBounds offset width)
  else do
    let range ← span limit offset width
    return .ok ⟨range, ref⟩

/-- Serves a request from the first block with room: the block before, and all blocks after. -/
def firstFit (width : Nat) : List Block → Except Breach (Option (Block × List Block))
  | [] => return none
  | b :: bs => do
    let stop ← sum limit b.cursor width
    if stop ≤ cellBits then
      let claimed ← claim limit b width
      return some (b, claimed :: bs)
    else
      let found ← firstFit width bs
      return found.map fun (block, after) => (block, b :: after)

/-- Lends `width` bits per lane. -/
def lend {lanes : Nat} (b : Bank lanes) (width : Nat) (s : Store) :
    Except Breach (Except Fault (Lending lanes (Fin lanes → Field))) :=
  if cellBits < width then return .error (.widthExceedsCapacity width)
  else do
    match ← firstFit limit width b.blocks with
    | some (block, blocks) =>
      let range ← span limit block.cursor width
      return .ok { bank := ⟨blocks⟩, store := s, lent := fun lane => ⟨range, block.ref lane⟩ }
    | none =>
      let block := Block.fresh s.size
      let claimed ← claim limit block width
      let range ← span limit block.cursor width
      return .ok
        { bank := ⟨b.blocks ++ [claimed]⟩
          store := s.pushZeros lanes
          lent := fun lane => ⟨range, block.ref lane⟩
          events := [.bankGrew lanes (b.blockCount + 1)] }

/-- The fields of the given widths, one after the other. -/
def tile (ref : CellRef) : (offset : Nat) → (widths : List Nat) → Except Breach (List Field)
  | _, [] => return []
  | offset, width :: widths => do
    let range ← span limit offset width
    let next ← sum limit offset width
    let fields ← tile ref next widths
    return ⟨range, ref⟩ :: fields

/-- Lends one whole cell and lays every view over it. -/
def bridge (b : Bank 1) (views : List (List Nat)) (s : Store) :
    Except Breach (Except Fault (Lending 1 (List (List Field)))) :=
  if ∀ widths ∈ views, countedTotal widths ≤ cellBits then do
    let whole := b.lendWhole s
    let lent ← views.mapM (tile limit (whole.lent ⟨0, Nat.one_pos⟩) 0)
    return .ok { bank := whole.bank, store := whole.store, lent }
  else return .error (oversizedView views)

/-! ## No breach -/

variable {limit} {lanes offset width : Nat}

theorem sum_of_le {m n : Nat} (h : m + n ≤ limit) : sum limit m n = .ok (m + n) := if_pos h

theorem span_of_fits (hlimit : cellBits ≤ limit) (fits : offset + width ≤ cellBits) :
    span limit offset width = .ok ⟨offset, width, fits⟩ := by
  rw [span, sum_of_le (Nat.le_trans fits hlimit)]
  exact dif_pos fits

theorem claim_of_room (hlimit : cellBits ≤ limit) {b : Block} (room : b.HasRoom width) :
    claim limit b width = .ok (b.claim width room) := by
  rw [claim, sum_of_le (Nat.le_trans room hlimit)]
  exact dif_pos room

/-- A field is made just of a range that fits, however large the sizes are. -/
theorem make_eq (hlimit : cellBits ≤ limit) (offset width : Nat) (ref : CellRef) :
    make limit offset width ref = .ok (Field.make? offset width ref) := by
  by_cases fits : offset + width ≤ cellBits
  · have hcounted : offset + width ≤ largestSize := Nat.le_trans fits (by decide)
    have hsum : ((addSizes? offset width).any fun stop => stop ≤ cellBits) = true := by
      rw [addSizes?, if_pos hcounted, Option.any_some, decide_eq_true fits]
    have hguard : ¬ (true = false ∨ cellBits < offset ∨ cellBits < width) := by
      rintro (h | h | h)
      · cases h
      · omega
      · omega
    rw [make, hsum, if_neg hguard, span_of_fits hlimit fits, Field.make?, dif_pos fits]
    rfl
  · have hguard : ((addSizes? offset width).any fun stop => stop ≤ cellBits) = false := by
      rw [addSizes?]
      split
      · rw [Option.any_some, decide_eq_false fits]
      · rfl
    rw [make, if_pos (.inl hguard), Field.make?, dif_neg fits]
    rfl

/-- The search for room is the search of the bank. -/
theorem firstFit_eq (hlimit : 2 * cellBits ≤ limit) (fits : width ≤ cellBits) (bs : List Block) :
    firstFit limit width bs =
      .ok ((PackedLogic.firstFit width bs).map fun (slot, after) => (slot.block, after)) := by
  have hcells : cellBits ≤ limit := Nat.le_trans (by decide) hlimit
  induction bs with
  | nil => rfl
  | cons b bs ih =>
    have hsum : b.cursor + width ≤ limit := by
      have := b.cursor_le
      omega
    rw [firstFit, sum_of_le hsum, PackedLogic.firstFit]
    by_cases room : b.HasRoom width
    · rw [dif_pos room]
      simp only [bind, Except.bind, if_pos (show b.cursor + width ≤ cellBits from room),
        claim_of_room hcells room]
      rfl
    · rw [dif_neg room]
      simp only [bind, Except.bind, if_neg (show ¬ b.cursor + width ≤ cellBits from room), ih]
      cases PackedLogic.firstFit width bs <;> rfl

/-- The width is tested before it is added to a cursor. -/
theorem lend_eq (hlimit : 2 * cellBits ≤ limit) (b : Bank lanes) (width : Nat) (s : Store) :
    lend limit b width s = .ok (b.lend? width s) := by
  have hcells : cellBits ≤ limit := Nat.le_trans (by decide) hlimit
  by_cases fits : width ≤ cellBits
  · rw [lend, if_neg (Nat.not_lt.2 fits), firstFit_eq hlimit fits, Bank.lend?_of_fits b fits,
      Bank.lend]
    cases PackedLogic.firstFit width b.blocks with
    | some found =>
      obtain ⟨slot, blocks⟩ := found
      simp only [bind, Except.bind, Option.map_some, span_of_fits hcells slot.room]
      rfl
    | none =>
      have room : (Block.fresh s.size).HasRoom width := Block.fresh_hasRoom fits
      simp only [bind, Except.bind, Option.map_none, claim_of_room hcells room,
        span_of_fits hcells room]
      rfl
  · rw [lend, if_pos (Nat.lt_of_not_le fits), Bank.lend?_of_wide b (Nat.lt_of_not_le fits)]
    rfl

/-- The running offset of a view never leaves the cell. -/
theorem tile_eq (hlimit : cellBits ≤ limit) (ref : CellRef) {widths : List Nat}
    (fits : offset + total widths ≤ cellBits) :
    tile limit ref offset widths = .ok (PackedLogic.tile ref offset widths fits) := by
  induction widths generalizing offset with
  | nil => rfl
  | cons width widths ih =>
    have hhead := head_fits fits
    rw [tile, span_of_fits hlimit hhead, sum_of_le (Nat.le_trans hhead hlimit)]
    simp only [bind, Except.bind, ih (tail_fits fits)]
    rfl

theorem mapM_eq_ok {α β : Type} {f : α → Except Breach β} {g : α → β} {l : List α}
    (h : ∀ a ∈ l, f a = .ok (g a)) : l.mapM f = .ok (l.map g) := by
  induction l with
  | nil => rfl
  | cons a l ih =>
    rw [List.mapM_cons, h a List.mem_cons_self, ih fun b hb => h b (List.mem_cons_of_mem a hb)]
    rfl

/-- The widths of every view are summed up before a field is formed. -/
theorem bridge_eq (hlimit : cellBits ≤ limit) (b : Bank 1) (views : List (List Nat)) (s : Store) :
    bridge limit b views s = .ok (b.bridge? views s) := by
  by_cases fits : ∀ widths ∈ views, total widths ≤ cellBits
  · have hviews : ∀ widths ∈ views, tile limit ((b.lendWhole s).lent ⟨0, Nat.one_pos⟩) 0 widths =
        .ok ((Span.tiles widths).map fun span => ⟨span, .ofCell s.size⟩) := by
      intro widths hwidths
      have hfits := fits widths hwidths
      rw [tile_eq hlimit _ (by simpa using hfits), tile_eq_map, Span.tiles, dif_pos hfits]
      rfl
    rw [bridge, if_pos fun widths h => countedTotal_le_iff.2 (fits widths h), b.bridge?_of_fits s fits]
    simp only [bind, Except.bind, mapM_eq_ok hviews]
    rfl
  · rw [bridge, if_neg fun h => fits fun widths hw => countedTotal_le_iff.1 (h widths hw),
      b.bridge?_of_wide s fits]
    rfl

/-- The bound is met by a full block, and it would not hold without the test of the width. -/
example : firstFit 127 64 [.whole 0] = .error (.sum 64 64) ∧
    firstFit 128 65 [.whole 0] = .error (.sum 64 65) := by decide

end Counted

end PackedLogic
