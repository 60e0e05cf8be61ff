import PackedLogic.Proofs.BankHistory
import PackedLogic.Proofs.Step
set_option autoImplicit false

/-!
# The history of a gate pool

A pool lends gates, ticks and is cleared, in any order, while the holders of its gates edit their
terminals and others create cells in the same store.  Whatever the order, the blocks of the pool lie
apart in cells that exist, and every gate that has been lent has one bit of its own block, the same in
every lane (`GatePool.Session.orderly_after`).  For any contents of these cells, a tick gives every
bit of the output lanes the function of the bits below it and changes nothing else
(`GatePool.bit_tick_output`, `GatePool.bit_tick_of_ne`).
-/

namespace PackedLogic

namespace GatePool

variable {k : GateKind}

/-! ## Requests -/

/-- What may be asked of a pool, what the holders of its gates may do with them, and what others may do
to the store in between. -/
inductive Request (k : GateKind)
  /-- Lends one more gate. -/
  | lend
  | tick
  /-- Overwrites all cells of the pool with zero. -/
  | clear
  /-- Edits a terminal of a gate, which is told by its number; nothing happens if it has not been lent
  yet. -/
  | edit (gate : Nat) (lane : Fin k.arity) (e : Edit)
  /-- Another owner creates cells in the store. -/
  | create (cells : Nat)

/-- A pool at work on a store, with the terminals of all gates lent so far. -/
structure Session (k : GateKind) where
  pool : GatePool k := {}
  store : Store := {}
  gates : List (Fin k.arity → Field) := []

namespace Session

/-- Answers one request. -/
def serve (σ : Session k) : Request k → Session k
  | .lend =>
    let l := σ.pool.lend σ.store
    ⟨⟨l.bank⟩, l.store, σ.gates ++ [l.lent]⟩
  | .tick => { σ with store := σ.pool.tick σ.store }
  | .clear => { σ with store := σ.pool.bank.clear σ.store }
  | .edit gate lane e =>
    match σ.gates[gate]? with
    | some terminals => { σ with store := ((terminals lane).edit e σ.store).state }
    | none => σ
  | .create cells => { σ with store := σ.store.pushZeros cells }

/-- A new pool on a store, after some requests. -/
def after (s : Store) (requests : List (Request k)) : Session k :=
  requests.foldl serve { store := s }

theorem after_concat (s : Store) (requests : List (Request k)) (request : Request k) :
    after s (requests ++ [request]) = (after s requests).serve request := by
  simp [after]

end Session

end GatePool

/-! ## Where a gate has its bits -/

/-- The gate has bit `i` of the block in every lane, and this bit has been lent. -/
structure Block.Seats {k : GateKind} (block : Block) (i : Nat) (gate : Fin k.arity → Field) :
    Prop where
  lent : i < block.cursor
  ref : ∀ lane, (gate lane).ref = block.ref lane
  offset : ∀ lane, (gate lane).offset = i
  width : ∀ lane, (gate lane).width = 1

namespace Block.Seats

variable {k : GateKind} {block : Block} {i : Nat} {gate : Fin k.arity → Field} {s : Store}

theorem index_lt (h : block.Seats i gate) : i < 64 := Nat.lt_of_lt_of_le h.lent block.cursor_le

/-- A block that grows keeps its gates. -/
theorem mono (h : block.Seats i gate) {block' : Block} (hbase : block'.base = block.base)
    (hcursor : block.cursor ≤ block'.cursor) : block'.Seats i gate :=
  ⟨Nat.lt_of_lt_of_le h.lent hcursor, fun lane => by rw [h.ref, Block.ref, Block.ref, hbase],
    h.offset, h.width⟩

theorem bit?_zero (h : block.Seats i gate) (lane : Fin k.arity) :
    (gate lane).bit? 0 = some ⟨block.base + lane, i⟩ := by
  rw [Field.bit?_eq_some_iff, h.ref, h.offset, h.width]
  exact ⟨Nat.one_pos, rfl, rfl⟩

theorem eq_of_covers (h : block.Seats i gate) {lane : Fin k.arity} {b : Bit}
    (hb : (gate lane).Covers b) : b = ⟨block.base + lane, i⟩ := by
  obtain ⟨j, hj⟩ := hb
  obtain rfl : j = 0 := by
    have hlt := (Field.bit?_eq_some_iff.1 hj).1
    rw [h.width] at hlt
    omega
  exact Option.some.inj (hj.symm.trans (h.bit?_zero lane))

theorem isLive (h : block.Seats i gate) (lane : Fin k.arity)
    (hlive : s.isLive (block.base + lane) = true) : (gate lane).isLive s = true :=
  Field.isLive_iff.2 ⟨block.base + lane, h.ref lane, hlive⟩

/-- A terminal reads its bit. -/
theorem get_eq (h : block.Seats i gate) (lane : Fin k.arity)
    (hlive : s.isLive (block.base + lane) = true) :
    (gate lane).get s = .ok (if s.bit ⟨block.base + lane, i⟩ then 1 else 0) := by
  refine Field.get_of_bits (h.isLive lane hlive) fun j => ?_
  cases j with
  | zero =>
    rw [h.bit?_zero, Option.elim_some]
    cases s.bit ⟨block.base + lane, i⟩ <;> rfl
  | succ j =>
    have hnone : (gate lane).bit? (j + 1) = none := by simp [Field.bit?, h.width]
    rw [hnone, Option.elim_none]
    split <;> simp [BitVec.getLsbD_one]

end Block.Seats

namespace Bank

/-- The cells of a bank in order are told apart. -/
theorem Tidy.nodup_cells {lanes : Nat} {bank : Bank lanes} {s : Store} (h : bank.Tidy s) :
    bank.cells.Nodup := by
  refine List.nodup_flatMap.2 ⟨fun _ _ => List.nodup_range', ?_⟩
  refine (List.pairwise_map.1 h.apart).imp ?_
  intro block block' hle c hc hc'
  have hlt := (List.mem_range'_1.1 hc).2
  have hge := (List.mem_range'_1.1 hc').1
  omega

/-- All cells of the bank exist. -/
def Live {lanes : Nat} (bank : Bank lanes) (s : Store) : Prop :=
  ∀ block ∈ bank.blocks, ∀ lane < lanes, s.isLive (block.base + lane) = true

theorem Live.of_sameCells {lanes : Nat} {bank : Bank lanes} {s s' : Store} (h : bank.Live s)
    (hcells : s'.SameCells s) : bank.Live s' :=
  fun block hblock lane hlane => (hcells.live _).trans (h block hblock lane hlane)

end Bank

namespace Claims

variable {lanes width base index : Nat} {blocks blocks' : List Block} {s s' : Store}

/-- A block afterwards was there before, or is the new one at the end. -/
theorem old_or_new (h : Claims lanes width blocks blocks' s s' base index) {n : Nat} {block' : Block}
    (hblock : blocks'[n]? = some block') :
    (∃ block, blocks[n]? = some block ∧ block'.base = block.base ∧ block.cursor ≤ block'.cursor) ∨
      n = blocks.length ∧ block'.base = s.size ∧ s' = s.pushZeros lanes := by
  rcases Nat.lt_or_ge n blocks.length with hlt | hge
  · have hold := List.getElem?_eq_getElem hlt
    obtain ⟨block'', hblock'', hgrown⟩ := h.getElem?_of_getElem? hold
    obtain rfl : block' = block'' := Option.some.inj (hblock.symm.trans hblock'')
    exact .inl ⟨_, hold, hgrown⟩
  · obtain ⟨hn, rfl⟩ := List.getElem?_eq_some_iff.1 hblock
    cases h with
    | reuse before block rest room hblocks hblocks' =>
      simp only [hblocks, hblocks', List.length_append, List.length_cons] at hn hge
      omega
    | append new hblocks' hstore hbase =>
      subst hblocks'
      rw [List.length_append, List.length_singleton] at hn
      obtain rfl : n = blocks.length := by omega
      refine .inr ⟨rfl, ?_, hstore⟩
      simpa using hbase

/-- What has been claimed from lies in cells that exist. -/
theorem live {bank bank' : Bank lanes}
    (h : Claims lanes width bank.blocks bank'.blocks s s' base index) (hlive : bank.Live s) :
    bank'.Live s' := by
  intro block' hblock' lane hlane
  obtain ⟨n, hn⟩ := List.getElem?_of_mem hblock'
  rcases h.old_or_new hn with ⟨block, hblock, hbase, -⟩ | ⟨-, hbase, rfl⟩
  · rw [hbase]
    obtain ⟨w, hw⟩ := Store.isLive_iff.1 (hlive block (List.mem_of_getElem? hblock) lane hlane)
    exact Store.isLive_iff.2 ⟨w, h.word?_eq hw⟩
  · exact Store.isLive_pushZeros.2 (.inr (by omega))

end Claims

namespace GatePool

variable {k : GateKind} {p : GatePool k} {s : Store}

/-! ## What a tick does -/

theorem tick_eq (p : GatePool k) (s : Store) :
    p.tick s = Simulator.evaluateRows (p.bank.blocks.map fun block => (k, block)) s := by
  rw [tick, Simulator.evaluateRows, List.foldl_map]

/-- A tick changes output lanes only. -/
theorem bit_tick_of_ne {b : Bit} (h : ∀ block ∈ p.bank.blocks, b.cell ≠ block.base + k.inputs) :
    (p.tick s).bit b = s.bit b := by
  rw [tick_eq]
  apply Simulator.bit_evaluateRows_of_ne
  intro row hrow
  obtain ⟨block, hblock, rfl⟩ := List.mem_map.1 hrow
  exact h block hblock

/-- No cell of an input lane is one of an output lane. -/
theorem ne_output (htidy : p.bank.Tidy s) {block : Block} (hblock : block ∈ p.bank.blocks)
    {lane : Nat} (hlane : lane < k.inputs) :
    ∀ block' ∈ p.bank.blocks, block.base + lane ≠ block'.base + k.inputs := by
  intro block' hblock' heq
  obtain ⟨n, hn⟩ := List.getElem?_of_mem hblock
  obtain ⟨n', hn'⟩ := List.getElem?_of_mem hblock'
  obtain ⟨-, rfl⟩ := htidy.unique hn hn' (Nat.lt_succ_of_lt hlane) (Nat.lt_succ_self _) heq
  exact Nat.lt_irrefl _ hlane

/-- After a tick every bit of an output lane is the function of the bits at its place in the input
lanes, lent or not. -/
theorem bit_tick_output (htidy : p.bank.Tidy s) (hlive : p.bank.Live s) {block : Block}
    (hblock : block ∈ p.bank.blocks) {i : Nat} (hi : i < 64) :
    (p.tick s).bit ⟨block.base + k.inputs, i⟩ =
      k.bit fun lane => s.bit ⟨block.base + lane, i⟩ := by
  rw [tick_eq]
  refine Simulator.bit_evaluateRows_output ?_ (List.mem_map_of_mem hblock)
    (hlive block hblock _ (Nat.lt_succ_self _)) hi
  rw [List.flatMap_map]
  exact htidy.nodup_cells

namespace Session

/-! ## What all histories keep -/

/-- The blocks of the pool lie apart in cells that exist, and every gate has one lent bit of a block,
the same in every lane. -/
structure Orderly (σ : Session k) : Prop where
  tidy : σ.pool.bank.Tidy σ.store
  live : σ.pool.bank.Live σ.store
  seated : ∀ gate ∈ σ.gates, ∃ (n i : Nat) (block : Block),
    σ.pool.bank.blocks[n]? = some block ∧ block.Seats i gate

/-- The bank gives the next gate one bit of a block in every lane. -/
theorem exists_lend (p : GatePool k) (s : Store) : ∃ (base index n : Nat) (block : Block),
    Claims k.arity 1 p.bank.blocks (p.lend s).bank.blocks s (p.lend s).store base index ∧
      (p.lend s).bank.blocks[n]? = some block ∧ block.base = base ∧
        block.Seats index (p.lend s).lent := by
  obtain ⟨base, index, hclaims, hlent⟩ := p.bank.claims_lend 1 one_le_cellBits s
  obtain ⟨n, block, hblock, rfl, hcursor⟩ := hclaims.exists_getElem?
  refine ⟨_, index, n, block, hclaims, hblock, rfl, by omega, ?_, ?_, ?_⟩
  · exact fun lane => (hlent lane).1
  · exact fun lane => (hlent lane).2.1
  · exact fun lane => (hlent lane).2.2

theorem orderly_nil (s : Store) : (after s [] : Session k).Orderly :=
  ⟨⟨.nil, nofun⟩, nofun, nofun⟩

/-- Work on the cells that there are keeps the order. -/
theorem Orderly.of_sameCells {σ : Session k} (h : σ.Orderly) {s : Store}
    (hcells : s.SameCells σ.store) : Orderly { σ with store := s } :=
  ⟨h.tidy.mono (Nat.le_of_eq hcells.size.symm), h.live.of_sameCells hcells, h.seated⟩

/-- A gate can be edited as long as the pool exists. -/
theorem Orderly.exists_edit {σ : Session k} (h : σ.Orderly) {gate : Fin k.arity → Field}
    (hgate : gate ∈ σ.gates) (lane : Fin k.arity) (e : Edit) :
    ∃ s, (gate lane).edit e σ.store = .done s ∧ (gate lane).Edited e σ.store s := by
  obtain ⟨n, i, block, hblock, hseats⟩ := h.seated gate hgate
  exact Field.edit_of_isLive e
    (hseats.isLive lane (h.live block (List.mem_of_getElem? hblock) lane lane.isLt))

/-- One more request keeps the order. -/
theorem Orderly.serve {σ : Session k} (h : σ.Orderly) (request : Request k) :
    (σ.serve request).Orderly := by
  cases request with
  | lend =>
    obtain ⟨base, index, n, block, hclaims, hblock, -, hseats⟩ := exists_lend σ.pool σ.store
    refine ⟨hclaims.tidy h.tidy, hclaims.live h.live, ?_⟩
    intro gate hgate
    rcases List.mem_append.1 hgate with hold | hnew
    · obtain ⟨n', i, old, hold, hseated⟩ := h.seated gate hold
      obtain ⟨grown, hgrown, hbase, hcursor⟩ := hclaims.grows n' old hold
      exact ⟨n', i, grown, hgrown, hseated.mono hbase hcursor⟩
    · obtain rfl := List.mem_singleton.1 hnew
      exact ⟨n, index, block, hblock, hseats⟩
  | tick => exact h.of_sameCells (σ.pool.sameCells_tick σ.store)
  | clear => exact h.of_sameCells (Store.sameCells_zero _ _)
  | edit gate lane e =>
    rw [Session.serve]
    split
    · rename_i terminals hgate
      obtain ⟨s, hdone, hedited⟩ := h.exists_edit (List.mem_of_getElem? hgate) lane e
      rw [hdone]
      exact h.of_sameCells hedited.cells
    · exact h
  | create cells =>
    refine ⟨h.tidy.mono ?_, ?_, h.seated⟩
    · exact (Store.size_pushZeros σ.store cells).symm ▸ Nat.le_add_right _ _
    · intro block hblock lane hlane
      exact Store.isLive_pushZeros.2 (.inl (h.live block hblock lane hlane))

/-- Any history of requests keeps the order. -/
theorem orderly_after (s : Store) (requests : List (Request k)) : (after s requests).Orderly := by
  induction requests using List.reverseRecOn with
  | nil => exact orderly_nil s
  | append_singleton requests request ih =>
    rw [after_concat]
    exact ih.serve request

/-- No request takes a block away. -/
theorem blockCount_le_serve (σ : Session k) (request : Request k) :
    σ.pool.bank.blockCount ≤ (σ.serve request).pool.bank.blockCount := by
  cases request with
  | lend =>
    obtain ⟨base, index, n, block, hclaims, -⟩ := exists_lend σ.pool σ.store
    by_contra hlt
    have hlast := List.getElem?_eq_getElem (Nat.lt_of_not_le hlt)
    obtain ⟨block', hblock', -⟩ := hclaims.getElem?_of_getElem? hlast
    exact absurd (List.getElem?_eq_some_iff.1 hblock').1 (Nat.lt_irrefl _)
  | tick | clear | create => exact Nat.le_refl _
  | edit gate lane e =>
    rw [serve]
    split <;> exact Nat.le_refl _

/-- The pool only grows in the course of its history. -/
theorem blockCount_le_append (s : Store) (before later : List (Request k)) :
    (after s before).pool.bank.blockCount ≤ (after s (before ++ later)).pool.bank.blockCount := by
  induction later using List.reverseRecOn with
  | nil => simp
  | append_singleton later request ih =>
    rw [← List.append_assoc, after_concat]
    exact Nat.le_trans ih (blockCount_le_serve _ request)

end Session

end GatePool

end PackedLogic
