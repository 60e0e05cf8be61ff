import PackedLogic.Machine.Lend
import PackedLogic.Proofs.Ownership
set_option autoImplicit false

/-!
# Lending

Whatever is lent from a bank, one row of bits is claimed: the same bits in every lane of a block,
either the next free ones of a block with room or the first ones of a new block
(`Claims`).  `Machine.Lends` says that of a whole machine.  The row was not lent before and is
lent afterwards, no bit of the store changes, and the machine still owns its cells.
-/

namespace PackedLogic

/-- The same bits in every lane of one block. -/
structure Row where
  part : Part
  base : Nat
  index : Nat
  width : Nat

namespace Row

/-- The bit belongs to the row. -/
def Contains (row : Row) (b : Bit) : Prop :=
  ∃ lane < row.part.lanes, b.cell = row.base + lane ∧ row.index ≤ b.index ∧
    b.index < row.index + row.width

/-- Bit `j` of the row in one lane. -/
def bit (row : Row) (lane j : Nat) : Bit := ⟨row.base + lane, row.index + j⟩

theorem contains_bit (row : Row) {lane j : Nat} (hlane : lane < row.part.lanes)
    (hj : j < row.width) : row.Contains (row.bit lane j) :=
  ⟨lane, hlane, rfl, Nat.le_add_right _ _, Nat.add_lt_add_left hj _⟩

theorem bit_inj {row : Row} {lane lane' j j' : Nat} (h : row.bit lane j = row.bit lane' j') :
    lane = lane' ∧ j = j' :=
  ⟨Nat.add_left_cancel (congrArg Bit.cell h), Nat.add_left_cancel (congrArg Bit.index h)⟩

/-- The field consists of `width` bits of the row in one lane, from number `offset` on. -/
structure Cut (row : Row) (lane offset width : Nat) (f : Field) : Prop where
  lane_lt : lane < row.part.lanes
  fits : offset + width ≤ row.width
  ref : f.ref = .ofCell (row.base + lane)
  offset_eq : f.offset = row.index + offset
  width_eq : f.width = width

theorem Cut.bit? {row : Row} {lane offset width : Nat} {f : Field}
    (h : row.Cut lane offset width f) {j : Nat} {b : Bit} (hb : f.bit? j = some b) :
    b = row.bit lane (offset + j) ∧ offset + j < row.width := by
  obtain ⟨hj, hcell, hindex⟩ := Field.bit?_eq_some_iff.1 hb
  rw [h.ref] at hcell
  have hlt : j < width := h.width_eq ▸ hj
  refine ⟨?_, Nat.lt_of_lt_of_le (Nat.add_lt_add_left hlt _) h.fits⟩
  obtain ⟨cell, index⟩ := b
  obtain rfl : row.base + lane = cell := Option.some.inj hcell
  obtain rfl : index = f.offset + j := hindex
  rw [h.offset_eq, Nat.add_assoc]
  rfl

theorem Cut.contains {row : Row} {lane offset width : Nat} {f : Field}
    (h : row.Cut lane offset width f) {b : Bit} (hb : f.Covers b) : row.Contains b := by
  obtain ⟨j, hj⟩ := hb
  obtain ⟨rfl, hlt⟩ := h.bit? hj
  exact row.contains_bit h.lane_lt hlt

end Row

/-- How blocks and store change when `width` bits from `index` on are claimed in the block at
`base`. -/
inductive Claims (lanes width : Nat) (blocks blocks' : List Block) (s s' : Store)
    (base index : Nat) : Prop
  /-- A block with room gives its next bits. -/
  | reuse (before : List Block) (block : Block) (rest : List Block) (room : block.HasRoom width)
      (hblocks : blocks = before ++ block :: rest)
      (hblocks' : blocks' = before ++ block.claim width room :: rest)
      (hstore : s' = s) (hbase : base = block.base) (hindex : index = block.cursor)
  /-- A new block is appended and gives its first bits. -/
  | append (block : Block) (hblocks' : blocks' = blocks ++ [block])
      (hstore : s' = s.pushZeros lanes) (hblock : block.base = s.size)
      (hcursor : block.cursor = width) (hbase : base = s.size) (hindex : index = 0)

namespace Bank

variable {lanes : Nat}

theorem claims_lend (b : Bank lanes) (width : Nat) (fits : width ≤ cellBits) (s : Store) :
    ∃ base index, Claims lanes width b.blocks (b.lend width fits s).bank.blocks s
        (b.lend width fits s).store base index ∧
      ∀ lane : Fin lanes, ((b.lend width fits s).lent lane).ref = .ofCell (base + lane) ∧
        ((b.lend width fits s).lent lane).offset = index ∧
        ((b.lend width fits s).lent lane).width = width := by
  unfold lend
  split
  · rename_i slot blocks hfit
    obtain ⟨before, rest, hblocks, rfl, -⟩ := firstFit_eq_some_iff.1 hfit
    exact ⟨slot.block.base, slot.block.cursor,
      .reuse before slot.block rest slot.room hblocks rfl rfl rfl rfl,
      fun lane => ⟨rfl, rfl, rfl⟩⟩
  · refine ⟨s.size, 0, .append _ rfl rfl rfl ?_ rfl rfl, fun lane => ⟨rfl, rfl, rfl⟩⟩
    exact Nat.zero_add width

theorem claims_lendWhole (b : Bank lanes) (s : Store) :
    Claims lanes cellBits b.blocks (b.lendWhole s).bank.blocks s (b.lendWhole s).store s.size 0 :=
  .append _ rfl rfl rfl rfl rfl rfl

end Bank

namespace Claims

variable {lanes width : Nat} {blocks blocks' : List Block} {s s' : Store} {base index : Nat}

/-- No block goes away, changes its position or gives bits back. -/
theorem getElem?_of_getElem? (h : Claims lanes width blocks blocks' s s' base index) {k : Nat}
    {block : Block} (hblock : blocks[k]? = some block) : ∃ block',
      blocks'[k]? = some block' ∧ block'.base = block.base ∧ block.cursor ≤ block'.cursor := by
  cases h with
  | reuse before claimed rest room hblocks hblocks' =>
    rw [hblocks] at hblock
    rw [hblocks']
    rcases Nat.lt_trichotomy k before.length with hlt | rfl | hgt
    · rw [List.getElem?_append_left hlt] at hblock ⊢
      exact ⟨block, hblock, rfl, Nat.le_refl _⟩
    · rw [List.getElem?_append_right (Nat.le_refl _), Nat.sub_self, List.getElem?_cons_zero]
        at hblock ⊢
      obtain rfl := Option.some.inj hblock
      exact ⟨_, rfl, rfl, Nat.le_add_right _ _⟩
    · obtain ⟨j, hj⟩ := Nat.exists_eq_add_of_lt hgt
      rw [List.getElem?_append_right (Nat.le_of_lt hgt),
        show k - before.length = j + 1 by omega, List.getElem?_cons_succ] at hblock ⊢
      exact ⟨block, hblock, rfl, Nat.le_refl _⟩
  | append new hblocks' =>
    rw [hblocks', List.getElem?_append_left (List.getElem?_eq_some_iff.1 hblock).1]
    exact ⟨block, hblock, rfl, Nat.le_refl _⟩

theorem mem_of_mem (h : Claims lanes width blocks blocks' s s' base index) {block : Block}
    (hblock : block ∈ blocks) :
    ∃ block' ∈ blocks', block'.base = block.base ∧ block.cursor ≤ block'.cursor := by
  obtain ⟨k, hk⟩ := List.getElem?_of_mem hblock
  obtain ⟨block', hblock', hgrown⟩ := h.getElem?_of_getElem? hk
  exact ⟨block', List.mem_of_getElem? hblock', hgrown⟩

/-- The block that gave the bits is there afterwards. -/
theorem exists_mem (h : Claims lanes width blocks blocks' s s' base index) :
    ∃ block' ∈ blocks', block'.base = base ∧ block'.cursor = index + width := by
  cases h with
  | reuse before claimed rest room _ hblocks' _ hbase hindex =>
    subst hblocks' hbase hindex
    exact ⟨_, List.mem_append_right _ List.mem_cons_self, rfl, rfl⟩
  | append new hblocks' _ hblock hcursor hbase hindex =>
    subst hblocks' hbase hindex
    exact ⟨new, List.mem_append_right _ List.mem_cons_self, hblock, by omega⟩

/-- Where a block is appended, it is the block that gives the bits. -/
theorem base_eq_size (h : Claims lanes width blocks blocks' s s' base index) {block : Block}
    (happend : blocks' = blocks ++ [block]) : base = s.size := by
  cases h with
  | reuse before claimed rest room hblocks hblocks' =>
    have hlength := congrArg List.length (hblocks'.symm.trans happend)
    simp [hblocks] at hlength
  | append _ _ _ _ _ hbase => exact hbase

theorem bit_eq (h : Claims lanes width blocks blocks' s s' base index) (b : Bit) :
    s'.bit b = s.bit b := by
  cases h with
  | reuse _ _ _ _ _ _ hstore => rw [hstore]
  | append _ _ hstore => rw [hstore, Store.bit_pushZeros]

/-- No cell that exists is written to. -/
theorem word?_eq (h : Claims lanes width blocks blocks' s s' base index) {c : Nat} {w : Word}
    (hw : s.word? c = some w) : s'.word? c = some w := by
  cases h with
  | reuse _ _ _ _ _ _ hstore => rw [hstore, hw]
  | append _ _ hstore =>
    have hlt := Store.lt_size_of_isLive (Store.isLive_iff.2 ⟨w, hw⟩)
    rw [hstore, Store.word?_pushZeros, if_neg (by omega), hw]

/-- The cells of the blocks afterwards are those before and, after the last of them, the new ones.
-/
theorem cells_eq (h : Claims lanes width blocks blocks' s s' base index) :
    (blocks'.flatMap fun block => List.range' block.base lanes) =
        (blocks.flatMap fun block => List.range' block.base lanes) ∧ s' = s ∨
      (blocks'.flatMap fun block => List.range' block.base lanes) =
        (blocks.flatMap fun block => List.range' block.base lanes) ++ List.range' s.size lanes ∧
        s' = s.pushZeros lanes := by
  cases h with
  | reuse before claimed rest room hblocks hblocks' hstore =>
    subst hblocks hblocks'
    refine Or.inl ⟨?_, hstore⟩
    simp only [List.flatMap_append, List.flatMap_cons, Block.claim]
  | append new hblocks' hstore hblock =>
    subst hblocks'
    refine Or.inr ⟨?_, hstore⟩
    rw [List.flatMap_append, List.flatMap_cons, List.flatMap_nil, List.append_nil, hblock]

end Claims

/-- A list with one more entry at its end has this one at the position where it ended. -/
theorem getElem?_concat_eq_some_iff {α : Type} {l : List α} {a b : α} {n : Nat} :
    (l ++ [a])[n]? = some b ↔ l[n]? = some b ∨ (n = l.length ∧ a = b) := by
  rcases Nat.lt_trichotomy n l.length with hlt | rfl | hgt
  · rw [List.getElem?_append_left hlt]
    exact ⟨Or.inl, fun h => h.resolve_right fun hend => Nat.ne_of_lt hlt hend.1⟩
  · simp
  · have hnew : (l ++ [a])[n]? = none :=
      List.getElem?_eq_none (by simpa using Nat.succ_le_of_lt hgt)
    have hold : l[n]? = none := List.getElem?_eq_none (Nat.le_of_lt hgt)
    rw [hnew, hold]
    exact ⟨nofun, fun h => h.elim nofun fun hend => absurd hend.1 (Nat.ne_of_gt hgt)⟩

/-- If one member's image grows at its end, so do all images together, up to their order. -/
theorem perm_flatMap_of_grown {α β : Type} {l : List α} (hnodup : l.Nodup) {a : α} (ha : a ∈ l)
    {f f' : α → List β} {new : List β} (hsame : ∀ b, b ≠ a → f' b = f b)
    (hgrown : f' a = f a ++ new) : (l.flatMap f').Perm (l.flatMap f ++ new) := by
  obtain ⟨before, after, rfl⟩ := List.append_of_mem ha
  rw [List.nodup_append, List.nodup_cons] at hnodup
  obtain ⟨-, ⟨hafter, -⟩, hbefore⟩ := hnodup
  have h₁ : before.flatMap f' = before.flatMap f :=
    List.flatMap_congr fun b hb => hsame b (hbefore b hb a List.mem_cons_self)
  have h₂ : after.flatMap f' = after.flatMap f :=
    List.flatMap_congr fun b hb => hsame b fun heq => hafter (heq ▸ hb)
  simp only [List.flatMap_append, List.flatMap_cons, h₁, h₂, hgrown, List.append_assoc]
  refine List.Perm.append_left _ (List.Perm.append_left _ ?_)
  exact List.perm_append_comm

/-- The machine lends the bits of a row, and nothing else of it changes but its events. -/
structure Machine.Lends (m m' : Machine) (row : Row) : Prop where
  claims : Claims row.part.lanes row.width (m.sim.blocks row.part) (m'.sim.blocks row.part)
    m.store m'.store row.base row.index
  others : ∀ p, p ≠ row.part → m'.sim.blocks p = m.sim.blocks p
  sockets : m'.sim.sockets = m.sim.sockets
  stats : m'.sim.stats = m.sim.stats
  config : m'.sim.config = m.sim.config

namespace Machine.Lends

variable {m m' : Machine} {row : Row}

/-- What has been reported does not matter. -/
theorem of_eq (h : m.Lends m' row) {m'' : Machine} (hsim : m''.sim = m'.sim)
    (hstore : m''.store = m'.store) : m.Lends m'' row := by
  refine ⟨?_, ?_, ?_, ?_, ?_⟩
  · rw [hsim, hstore]
    exact h.claims
  · rw [hsim]
    exact h.others
  · rw [hsim, h.sockets]
  · rw [hsim, h.stats]
  · rw [hsim, h.config]

theorem cells (h : m.Lends m' row) :
    (m'.sim.cells = m.sim.cells ∧ m'.store = m.store) ∨
      (m'.sim.cells.Perm (m.sim.cells ++ List.range' m.store.size row.part.lanes) ∧
        m'.store = m.store.pushZeros row.part.lanes) := by
  have hsame : ∀ p, p ≠ row.part → m'.sim.cellsOf p = m.sim.cellsOf p := by
    intro p hp
    rw [Simulator.cellsOf, h.others p hp, Simulator.cellsOf]
  rw [Simulator.cells_eq, Simulator.cells_eq]
  rcases h.claims.cells_eq with ⟨hcells, hstore⟩ | ⟨hcells, hstore⟩
  · refine Or.inl ⟨List.flatMap_congr ?_, hstore⟩
    intro p _
    by_cases hp : p = row.part
    · rw [hp]
      exact hcells
    · exact hsame p hp
  · exact Or.inr ⟨perm_flatMap_of_grown Part.nodup_all row.part.mem_all hsame hcells, hstore⟩

/-- New cells get names that no cell had before, so the machine still owns its cells. -/
theorem owns (h : m.Lends m' row) (howns : m.sim.Owns m.store) : m'.sim.Owns m'.store := by
  rcases h.cells with ⟨hcells, hstore⟩ | ⟨hperm, hstore⟩
  · rw [hstore]
    exact ⟨fun c hc => howns.live c (hcells ▸ hc), hcells ▸ howns.apart⟩
  · refine ⟨?_, hperm.nodup_iff.2 (List.nodup_append.2 ⟨howns.apart, List.nodup_range', ?_⟩)⟩
    · intro c hc
      rw [hstore]
      rcases List.mem_append.1 (hperm.mem_iff.1 hc) with hold | hnew
      · exact Store.isLive_pushZeros.2 (Or.inl (howns.live c hold))
      · exact Store.isLive_pushZeros.2 (Or.inr (List.mem_range'_1.1 hnew))
    · intro c hc c' hc' heq
      have hlt := Store.lt_size_of_isLive (howns.live c hc)
      have hge := (List.mem_range'_1.1 hc').1
      omega

theorem bit_eq (h : m.Lends m' row) (b : Bit) : m'.store.bit b = m.store.bit b :=
  h.claims.bit_eq b

theorem grows (h : m.Lends m' row) : m.sim.Grows m'.sim := by
  intro p block hblock
  by_cases hp : p = row.part
  · subst hp
    exact h.claims.mem_of_mem hblock
  · exact ⟨block, by rwa [h.others p hp], rfl, Nat.le_refl _⟩

theorem wired (h : m.Lends m' row) (hwired : m.sim.Wired) : m'.sim.Wired := by
  intro w hw
  rw [h.sockets] at hw
  exact ⟨h.grows.holds (hwired w hw).1, h.grows.holds (hwired w hw).2⟩

/-- The block that lent the row is there afterwards, with its cursor past the row. -/
theorem exists_block (h : m.Lends m' row) :
    ∃ block ∈ m'.sim.blocks row.part, block.base = row.base ∧
      block.cursor = row.index + row.width :=
  h.claims.exists_mem

theorem lent_of_contains (h : m.Lends m' row) {b : Bit} (hb : row.Contains b) :
    m'.sim.Lent b := by
  obtain ⟨lane, hlane, hcell, -, hindex⟩ := hb
  obtain ⟨block, hblock, hbase, hcursor⟩ := h.exists_block
  exact ⟨row.part, block, hblock, lane, hlane, by rw [hbase, hcell], by omega⟩

theorem holds_of_cut (h : m.Lends m' row) {lane offset width : Nat} {f : Field}
    (hcut : row.Cut lane offset width f) : m'.sim.Holds f := by
  obtain ⟨block, hblock, hbase, -⟩ := h.exists_block
  exact ⟨row.base + lane, hbase ▸ Simulator.cell_mem hblock hcut.lane_lt, hcut.ref⟩

/-- What is lent was not lent before. -/
theorem not_lent (h : m.Lends m' row) (howns : m.sim.Owns m.store) {b : Bit}
    (hb : row.Contains b) : ¬ m.sim.Lent b := by
  obtain ⟨lane, hlane, hcell, hlow, -⟩ := hb
  rintro ⟨p, block, hblock, lane', hlane', hcell', hindex⟩
  have hlive := howns.live _ (Simulator.cell_mem hblock hlane')
  have hlt := Store.lt_size_of_isLive hlive
  cases h.claims with
  | reuse before claimed rest room hblocks _ _ hbase hcursor =>
    have hclaimed : claimed ∈ m.sim.blocks row.part :=
      hblocks ▸ List.mem_append_right _ List.mem_cons_self
    obtain ⟨-, rfl, -⟩ := howns.unique hblock hlane' hclaimed hlane (by omega)
    omega
  | append _ _ _ _ _ hbase => omega

end Machine.Lends

/-! ## The operations that lend -/

namespace Span

/-- The spans of the given widths, one after the other from `offset` on. -/
def tile : (offset : Nat) → (widths : List Nat) → offset + total widths ≤ cellBits → List Span
  | _, [], _ => []
  | offset, width :: widths, fits =>
    ⟨offset, width, head_fits fits⟩ :: tile (offset + width) widths (tail_fits fits)

/-- The spans of the given widths from the bottom of a word on, if they fit into it. -/
def tiles (widths : List Nat) : List Span :=
  if fits : total widths ≤ cellBits then tile 0 widths (by simpa using fits) else []

end Span

theorem tile_eq_map (ref : CellRef) (offset : Nat) (widths : List Nat)
    (fits : offset + total widths ≤ cellBits) :
    tile ref offset widths fits = (Span.tile offset widths fits).map fun span => ⟨span, ref⟩ := by
  induction widths generalizing offset with
  | nil => rfl
  | cons width widths ih => rw [tile, ih, Span.tile, List.map_cons]

theorem Simulator.blocks_setPool_self (sim : Simulator) (k : GateKind) (pool : GatePool k) :
    (sim.setPool k pool).blocks (.gates k) = pool.bank.blocks := by
  rw [blocks, pool_setPool_self]

theorem Simulator.blocks_setPool_of_ne (sim : Simulator) {k : GateKind} (pool : GatePool k)
    {p : Part} (h : p ≠ .gates k) : (sim.setPool k pool).blocks p = sim.blocks p := by
  cases p with
  | gates l =>
    have hne : l ≠ k := fun heq => h (by rw [heq])
    rw [blocks, pool_setPool_of_ne sim pool hne, blocks]
  | bus => cases k <;> rfl

/-- The bus has no part in how the pools are laid out. -/
theorem Simulator.blocks_withBus_of_ne (sim : Simulator) (bus : Bank 1) {p : Part}
    (h : p ≠ .bus) : ({ sim with bus } : Simulator).blocks p = sim.blocks p := by
  cases p with
  | gates k => cases k <;> rfl
  | bus => exact absurd rfl h

/-- A bridge lends a whole cell, which each of its views tiles from the bottom, unless a view is wider
than a cell. -/
theorem Bank.bridge?_of_fits (b : Bank 1) {views : List (List Nat)} (s : Store)
    (fits : ∀ widths ∈ views, total widths ≤ cellBits) :
    b.bridge? views s = .ok
      { bank := (b.lendWhole s).bank
        store := (b.lendWhole s).store
        lent := views.map fun widths =>
          (Span.tiles widths).map fun span => ⟨span, .ofCell s.size⟩ } := by
  have hview : ∀ x ∈ views.attach, tile ((b.lendWhole s).lent 0) 0 x.1
      (by simpa using fits x.1 x.2) =
        (Span.tiles x.1).map fun span => ⟨span, .ofCell s.size⟩ := by
    intro x _
    rw [tile_eq_map, Span.tiles, dif_pos (fits x.1 x.2)]
    rfl
  have hattach := List.attach_map_val (l := views) (f := fun widths =>
    (Span.tiles widths).map fun span => (⟨span, .ofCell s.size⟩ : Field))
  have hlent := (List.map_congr_left hview).trans hattach
  rw [bridge?, dif_pos fun widths h => countedTotal_le_iff.2 (fits widths h), ← hlent]
  rfl

theorem Bank.bridge?_of_wide (b : Bank 1) {views : List (List Nat)} (s : Store)
    (h : ¬ ∀ widths ∈ views, total widths ≤ cellBits) :
    b.bridge? views s = .error (oversizedView views) := by
  rw [bridge?, dif_neg fun hcounted => h fun widths hw => countedTotal_le_iff.1 (hcounted widths hw)]

namespace Machine

/-- What is claimed from the bank of a pool, the machine lends. -/
theorem lends_of_claims_pool {m : Machine} {k : GateKind} {b : Bank k.arity} {s : Store}
    {width base index : Nat}
    (h : Claims k.arity width (m.sim.pool k).bank.blocks b.blocks m.store s base index)
    (log : Array Event) :
    m.Lends { sim := m.sim.setPool k ⟨b⟩, store := s, log } ⟨.gates k, base, index, width⟩ := by
  constructor
  · dsimp only
    rw [Simulator.blocks_setPool_self]
    exact h
  · intro p hp
    exact Simulator.blocks_setPool_of_ne _ _ hp
  · cases k <;> rfl
  · cases k <;> rfl
  · cases k <;> rfl

/-- What is claimed from the bus, the machine lends. -/
theorem lends_of_claims_bus {m : Machine} {bus : Bank 1} {s : Store} {width base index : Nat}
    (h : Claims 1 width m.sim.bus.blocks bus.blocks m.store s base index) (log : Array Event) :
    m.Lends { sim := { m.sim with bus }, store := s, log } ⟨.bus, base, index, width⟩ :=
  ⟨h, fun _ hp => Simulator.blocks_withBus_of_ne _ _ hp, rfl, rfl, rfl⟩

/-- A gate is lent as one bit in every lane of its pool. -/
theorem lends_lendGate (m : Machine) (k : GateKind) :
    ∃ row : Row, row.part = .gates k ∧ row.width = 1 ∧ m.Lends (m.lendGate k).1 row ∧
      ∀ lane : Fin k.arity, row.Cut lane 0 1 ((m.lendGate k).2 lane) := by
  obtain ⟨base, index, hclaims, hfields⟩ :=
    (m.sim.pool k).bank.claims_lend 1 (by decide) m.store
  refine ⟨⟨.gates k, base, index, 1⟩, rfl, rfl, lends_of_claims_pool hclaims _, ?_⟩
  intro lane
  obtain ⟨href, hoffset, hwidth⟩ := hfields lane
  exact ⟨lane.isLt, Nat.le_refl 1, href, hoffset, hwidth⟩

/-- A field of the bus is lent unless it is wider than a cell. -/
theorem lends_lendBus? (m : Machine) {width : Nat} (fits : width ≤ cellBits) :
    ∃ m' f, m.lendBus? width = .ok (m', f) ∧ ∃ row : Row, row.part = .bus ∧ row.width = width ∧
      m.Lends m' row ∧ row.Cut 0 0 width f := by
  obtain ⟨base, index, hclaims, hfields⟩ := m.sim.bus.claims_lend width fits m.store
  refine ⟨_, _, by rw [lendBus?, Bank.lend?_of_fits _ fits]; rfl, ⟨.bus, base, index, width⟩,
    rfl, rfl, lends_of_claims_bus hclaims _, ?_⟩
  obtain ⟨href, hoffset, hwidth⟩ := hfields 0
  exact ⟨Nat.one_pos, Nat.le_of_eq (Nat.zero_add width), href, hoffset, hwidth⟩

theorem lendBus?_of_wide (m : Machine) {width : Nat} (h : ¬ width ≤ cellBits) :
    m.lendBus? width = .error (.widthExceedsCapacity width) := by
  rw [lendBus?, Bank.lend?_of_wide _ (Nat.lt_of_not_le h)]
  rfl

/-- A bridge is lent as a whole cell, which each of its views tiles from the bottom, unless a view
is wider than a cell. -/
theorem lends_lendBridge? (m : Machine) {views : List (List Nat)}
    (fits : ∀ widths ∈ views, total widths ≤ cellBits) :
    ∃ m' fields, m.lendBridge? views = .ok (m', fields) ∧
      ∃ row : Row, row.part = .bus ∧ row.width = cellBits ∧ m.Lends m' row ∧
        (∀ span : Span, row.Cut 0 span.offset span.width ⟨span, .ofCell row.base⟩) ∧
        fields = views.map fun widths =>
          (Span.tiles widths).map fun span => ⟨span, .ofCell row.base⟩ := by
  refine ⟨_, _, by rw [lendBridge?, Bank.bridge?_of_fits _ _ fits]; rfl,
    ⟨.bus, m.store.size, 0, cellBits⟩, rfl, rfl,
    lends_of_claims_bus (m.sim.bus.claims_lendWhole m.store) _, ?_, rfl⟩
  intro span
  exact ⟨Nat.one_pos, span.fits, rfl, (Nat.zero_add _).symm, rfl⟩

theorem lendBridge?_of_wide (m : Machine) {views : List (List Nat)}
    (h : ¬ ∀ widths ∈ views, total widths ≤ cellBits) :
    m.lendBridge? views = .error (oversizedView views) := by
  rw [lendBridge?, Bank.bridge?_of_wide _ _ h]
  rfl

/-- A bridge appends a block to the bus. -/
theorem blocks_lendBridge? {m m' : Machine} {views : List (List Nat)} {fields : List (List Field)}
    (h : m.lendBridge? views = .ok (m', fields)) :
    m'.sim.bus.blocks = m.sim.bus.blocks ++ [.whole m.store.size] := by
  by_cases fits : ∀ widths ∈ views, total widths ≤ cellBits
  · rw [lendBridge?, Bank.bridge?_of_fits _ _ fits] at h
    obtain ⟨rfl, -⟩ := Prod.mk.inj (Except.ok.inj h)
    rfl
  · rw [m.lendBridge?_of_wide fits] at h
    cases h

/-- Two fields are joined by a further socket unless they differ in width. -/
theorem connect?_of_eq (m : Machine) {f g : Field} (h : f.width = g.width) :
    m.connect? f g =
      .ok { m with sim := m.sim.withSockets (m.sim.sockets.sockets ++ [⟨f, g, h⟩]) } := by
  rw [connect?, SocketRegistry.add?, dif_pos h]
  rfl

theorem connect?_of_ne (m : Machine) {f g : Field} (h : f.width ≠ g.width) :
    m.connect? f g = .error (.socketSizeMismatch f.width g.width) := by
  rw [connect?, SocketRegistry.add?, dif_neg h]
  rfl

end Machine

/-! ## Bits that nobody has been lent -/

/-- A bit of the simulator that is set though nobody has been lent it. -/
structure Simulator.Residue (sim : Simulator) (s : Store) (b : Bit) : Prop where
  cell : b.cell ∈ sim.cells
  unlent : ¬ sim.Lent b
  set : s.bit b = true

namespace Machine.Lends

variable {m m' : Machine} {row : Row}

/-- A lent bit that is set already was so before it was lent. -/
theorem residue_of_contains (h : m.Lends m' row) (howns : m.sim.Owns m.store) {b : Bit}
    (hb : row.Contains b) (hset : m'.store.bit b = true) : m.sim.Residue m.store b := by
  rw [h.bit_eq] at hset
  refine ⟨?_, h.not_lent howns hb, hset⟩
  obtain ⟨lane, hlane, hcell, -⟩ := hb
  cases h.claims with
  | reuse before claimed rest room hblocks _ _ hbase =>
    rw [hcell, hbase]
    exact Simulator.cell_mem (hblocks ▸ List.mem_append_right _ List.mem_cons_self) hlane
  | append _ _ _ _ _ hbase =>
    have hdead : m.store.isLive b.cell = false := by
      rw [Store.isLive, Store.word?_eq_none_of_size_le (by omega)]
      rfl
    rw [Store.bit_of_not_isLive hdead] at hset
    cases hset

/-- Lending leaves no new residue. -/
theorem residue_of_residue (h : m.Lends m' row) {b : Bit} (hb : m'.sim.Residue m'.store b) :
    m.sim.Residue m.store b := by
  have hset := hb.set
  rw [h.bit_eq] at hset
  refine ⟨?_, fun hlent => hb.unlent (h.grows.lent hlent), hset⟩
  rcases h.cells with ⟨hcells, -⟩ | ⟨hperm, -⟩
  · exact hcells ▸ hb.cell
  · rcases List.mem_append.1 (hperm.mem_iff.1 hb.cell) with hold | hnew
    · exact hold
    · have hdead : m.store.isLive b.cell = false := by
        rw [Store.isLive, Store.word?_eq_none_of_size_le (List.mem_range'_1.1 hnew).1]
        rfl
      rw [Store.bit_of_not_isLive hdead] at hset
      cases hset

end Machine.Lends

end PackedLogic
