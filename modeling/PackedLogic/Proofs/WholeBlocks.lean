import PackedLogic.Proofs.FirstFit
set_option autoImplicit false

/-!
# Blocks that are lent whole

A block that is lent whole has its cursor at the end of the word, so it has no room for a single
further bit.  A request for no bits, however, finds room in every block, and is served by the first
one.  So a later field comes to lie in a cell that was lent whole just when it has no bits and the
bank had no blocks before (`Bank.Session.reuses_whole_iff`).
-/

namespace PackedLogic

theorem Block.hasRoom_zero (block : Block) : block.HasRoom 0 := block.cursor_le

theorem Block.eq_zero_of_hasRoom {block : Block} {width : Nat} (h : block.HasRoom width)
    (hfull : block.cursor = cellBits) : width = 0 := by
  unfold HasRoom at h
  omega

namespace Bank

variable {lanes : Nat} {b : Bank lanes} {s : Store} {width : Nat}

/-- A request is served by the first block that has room for it, or else by a new one. -/
theorem exists_first_room (b : Bank lanes) (fits : width ≤ cellBits) (s : Store) :
    (∃ (k : Nat) (block : Block), b.blocks[k]? = some block ∧ block.HasRoom width ∧
      (∀ k' < k, ∀ block', b.blocks[k']? = some block' → ¬ block'.HasRoom width) ∧
        ∀ lane : Fin lanes, ((b.lend width fits s).lent lane).ref = block.ref lane) ∨
      (∀ block ∈ b.blocks, ¬ block.HasRoom width) ∧
        ∀ lane : Fin lanes, ((b.lend width fits s).lent lane).ref = .ofCell (s.size + lane) := by
  cases b.firstFit_lend fits s with
  | reuse before rest block block' hblocks hfull hroom _ hbase _ hlent =>
    refine .inl ⟨before.length, block, by simp [hblocks], hroom, ?_, fun lane => ?_⟩
    · intro k' hk' b hb
      rw [hblocks, List.getElem?_append_left hk'] at hb
      exact Nat.not_le.2 (hfull b (List.mem_of_getElem? hb))
    · rw [(hlent lane).1, Block.ref, hbase, Block.ref]
  | append block' hfull _ hbase _ hlent =>
    refine .inr ⟨fun block hblock => Nat.not_le.2 (hfull block hblock), fun lane => ?_⟩
    rw [(hlent lane).1, Block.ref, hbase]

/-- Of a block all of whose bits are lent, a later field gets a cell just when the field has no bits
and the block is the first one. -/
theorem Tidy.sameCell_full_iff (h : b.Tidy s) (fits : width ≤ cellBits) {k : Nat} {full : Block}
    (hfull : b.blocks[k]? = some full) (hcursor : full.cursor = cellBits) (lane lane' : Fin lanes) :
    ((b.lend width fits s).lent lane).ref.sameCell (full.ref lane') = true ↔
      width = 0 ∧ k = 0 ∧ lane = lane' := by
  rcases b.exists_first_room fits s with ⟨j, block, hblock, hroom, hfirst, href⟩ | ⟨hnone, href⟩
  · rw [href lane]
    constructor
    · intro hsame
      have hcell : block.base + lane = full.base + lane' := by
        simpa [CellRef.sameCell, Block.ref, CellRef.ofCell] using hsame
      obtain ⟨rfl, hlane⟩ := h.unique hblock hfull lane.isLt lane'.isLt hcell
      obtain rfl : block = full := Option.some.inj (hblock.symm.trans hfull)
      obtain rfl := Block.eq_zero_of_hasRoom hroom hcursor
      refine ⟨rfl, ?_, Fin.ext hlane⟩
      -- every block has room for no bits, so there is none before this one
      by_contra hk
      have hj := (List.getElem?_eq_some_iff.1 hblock).1
      have hpos : 0 < b.blocks.length := by omega
      exact hfirst 0 (by omega) _ (List.getElem?_eq_getElem hpos) (Block.hasRoom_zero _)
    · rintro ⟨rfl, rfl, rfl⟩
      obtain rfl : j = 0 := by
        by_contra hj
        exact hfirst 0 (by omega) full hfull full.hasRoom_zero
      obtain rfl : block = full := Option.some.inj (hblock.symm.trans hfull)
      exact beq_self_eq_true _
  · rw [href lane]
    constructor
    · intro hsame
      have hcell : s.size + lane = full.base + lane' := by
        simpa [CellRef.sameCell, Block.ref, CellRef.ofCell] using hsame
      have hbelow := h.below full.base (List.mem_map_of_mem (List.mem_of_getElem? hfull))
      omega
    · rintro ⟨rfl, rfl, rfl⟩
      exact absurd full.hasRoom_zero (hnone full (List.mem_of_getElem? hfull))

namespace Session

/-- After some requests, one more request gets the reply. -/
def Replies (s : Store) (requests : List (Request lanes)) (request : Request lanes)
    (reply : Reply lanes) : Prop :=
  (after s (requests ++ [request])).replies = (after s requests).replies ++ [reply]

theorem replies_whole (s : Store) (requests : List (Request lanes)) :
    Replies s requests .whole
      (.cells ((after s requests).bank.lendWhole (after s requests).store).lent) := by
  rw [Replies, after_concat]
  rfl

theorem replies_fields (s : Store) (requests : List (Request lanes)) (fits : width ≤ cellBits) :
    Replies s requests (.fields width)
      (.fields ((after s requests).bank.lend width fits (after s requests).store).lent) := by
  rw [Replies, after_concat, serve_fields_of_fits _ fits]

/-- Whatever is asked in between, the cells that are lent whole stay those of a block without room,
at the place where the bank ended before. -/
theorem exists_whole_block (s : Store) (before between : List (Request lanes)) :
    ∃ block : Block,
      (after s (before ++ .whole :: between)).bank.blocks[(after s before).bank.blocks.length]? =
        some block ∧ block.cursor = cellBits ∧
      ∀ lane : Fin lanes,
        ((after s before).bank.lendWhole (after s before).store).lent lane = block.ref lane := by
  have hnew : ((after s before).serve .whole).bank.blocks[(after s before).bank.blocks.length]? =
      some (.whole (after s before).store.size) := by
    change ((after s before).bank.blocks ++ [_])[_]? = _
    simp
  have hgrows := grows_run ((after s before).serve .whole) between
  obtain ⟨block, hblock, href, hcursor⟩ := hgrows.ref hnew
  refine ⟨block, ?_, Nat.le_antisymm block.cursor_le hcursor, ?_⟩
  · rw [after_append]
    exact hblock
  · intro lane
    rw [href]
    rfl

/-- A field lies in a cell that was lent whole before it just when the field has no bits and the whole
block is the first one of the bank; then it lies in the cell of its own lane. -/
theorem reuses_whole_iff (s : Store) (before between : List (Request lanes))
    (fits : width ≤ cellBits) :
    ∃ cells fields, Replies s before .whole (.cells cells) ∧
      Replies s (before ++ .whole :: between) (.fields width) (.fields fields) ∧
      ∀ lane lane', (fields lane).ref.sameCell (cells lane') = true ↔
        width = 0 ∧ (after s before).bank.blocks = [] ∧ lane = lane' := by
  refine ⟨_, _, replies_whole s before, replies_fields s _ fits, ?_⟩
  intro lane lane'
  obtain ⟨block, hblock, hcursor, hcells⟩ := exists_whole_block s before between
  have htidy := (orderly_after s (before ++ .whole :: between)).tidy
  rw [hcells lane', htidy.sameCell_full_iff fits hblock hcursor, List.length_eq_zero_iff]

/-- A bit asked for after a whole block comes from another block, in both lanes. -/
theorem reuses_whole_iff_one : 1 ≤ cellBits ∧
    ∃ (cells : Fin 2 → CellRef) (fields : Fin 2 → Field), Replies {} [] .whole (.cells cells) ∧
      Replies {} [.whole] (.fields 1) (.fields fields) ∧
      ∀ lane lane', (fields lane).ref.sameCell (cells lane') = false := by
  have hfits : 1 ≤ cellBits := by decide
  obtain ⟨cells, fields, hcells, hfields, hsame⟩ := reuses_whole_iff {} ([] : List (Request 2)) [] hfits
  refine ⟨hfits, cells, fields, hcells, hfields, ?_⟩
  intro lane lane'
  by_contra h
  have hzero := (hsame lane lane').1 (by simpa using h)
  cases hzero.1

/-- Asked for no bits, a bank whose only block is lent whole answers with a field in that block. -/
theorem whole_block_reused :
    ∃ (cells : Fin 1 → CellRef) (fields : Fin 1 → Field), Replies {} [] .whole (.cells cells) ∧
      Replies {} [.whole] (.fields 0) (.fields fields) ∧
      (fields 0).ref.sameCell (cells 0) = true :=
  ⟨_, _, rfl, rfl, rfl⟩

end Session

end Bank

end PackedLogic
