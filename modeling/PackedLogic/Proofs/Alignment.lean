import PackedLogic.Proofs.Enlargement
import PackedLogic.Proofs.TwinBuild
set_option autoImplicit false

/-!
# Machines that have allocated the same

Two machines that have been asked for the same fields in the same order have blocks with the same
cursors, whatever has been written to them (`Aligned`).  A field of one and a field of the other are
at the `SamePlace` if they are the same span in the same lane of the block of the same number.  If
moreover all words at the same places are equal, they stay so, whatever is done in both machines.
-/

namespace PackedLogic

/-! ## Blocks with the same cursors -/

/-- Blocks of the same number have lent equally many bits. -/
def SameCursors (bs bs' : List Block) : Prop :=
  List.Forall₂ (fun b b' => b.cursor = b'.cursor) bs bs'

theorem SameCursors.getElem? {bs bs' : List Block} (h : SameCursors bs bs') {k : Nat} {b : Block}
    (hb : bs[k]? = some b) : ∃ b', bs'[k]? = some b' := by
  obtain ⟨hk, -⟩ := List.getElem?_eq_some_iff.1 hb
  exact ⟨_, List.getElem?_eq_getElem (h.length_eq ▸ hk)⟩

/-- A request is served from the block of the same number and from the same bit on. -/
theorem firstFit_both {width : Nat} {bs bs' : List Block} (h : SameCursors bs bs') :
    (firstFit width bs = none ∧ firstFit width bs' = none) ∨
      ∃ (slot : Slot width) (after : List Block) (slot' : Slot width) (after' : List Block) (k : Nat),
        firstFit width bs = some (slot, after) ∧ firstFit width bs' = some (slot', after') ∧
        SameCursors after after' ∧ slot.block.cursor = slot'.block.cursor ∧
        after[k]? = some slot.claimed ∧ after'[k]? = some slot'.claimed := by
  induction h with
  | nil => exact .inl ⟨rfl, rfl⟩
  | @cons b b' bs bs' hcursor hrest ih =>
    by_cases room : b.HasRoom width
    · have room' : b'.HasRoom width := by
        unfold Block.HasRoom at room ⊢
        rwa [← hcursor]
      refine .inr ⟨⟨b, room⟩, _, ⟨b', room'⟩, _, 0, ?_, ?_, .cons ?_ hrest, hcursor, rfl, rfl⟩
      · simp [firstFit, room]
      · simp [firstFit, room']
      · simp [Slot.claimed, Block.claim, hcursor]
    · have room' : ¬ b'.HasRoom width := by
        unfold Block.HasRoom at room ⊢
        rwa [← hcursor]
      rcases ih with ⟨hnone, hnone'⟩ | ⟨slot, after, slot', after', k, hfit, hfit', hsame, hslot,
        hk, hk'⟩
      · exact .inl ⟨by simp [firstFit, room, hnone], by simp [firstFit, room', hnone']⟩
      · refine .inr ⟨slot, b :: after, slot', b' :: after', k + 1, ?_, ?_, .cons hcursor hsame,
          hslot, hk, hk'⟩
        · simp [firstFit, room, hfit]
        · simp [firstFit, room', hfit']

/-- What is claimed from both lists of blocks is at the same place. -/
structure ClaimsBoth (lanes width : Nat) (bs after bs' after' : List Block) (s t s' t' : Store)
    (base base' index : Nat) : Prop where
  left : Claims lanes width bs after s t base index
  right : Claims lanes width bs' after' s' t' base' index
  cursors : SameCursors after after'
  position : ∃ (k : Nat) (block block' : Block), after[k]? = some block ∧
    after'[k]? = some block' ∧ block.base = base ∧ block'.base = base'

/-- New blocks at the ends of both lists have the same number. -/
theorem SameCursors.append {bs bs' : List Block} (h : SameCursors bs bs') {b b' : Block}
    (hcursor : b.cursor = b'.cursor) :
    SameCursors (bs ++ [b]) (bs' ++ [b']) ∧
      (bs ++ [b])[bs.length]? = some b ∧ (bs' ++ [b'])[bs.length]? = some b' := by
  refine ⟨List.rel_append h (.cons hcursor .nil), by simp, ?_⟩
  rw [h.length_eq]
  simp

/-- The fields lent are the same bits of neighbouring cells, from `base` on. -/
def Lending.At {lanes : Nat} (l : Lending lanes (Fin lanes → Field)) (base index width : Nat) :
    Prop :=
  ∀ lane : Fin lanes, (l.lent lane).ref = .ofCell (base + lane) ∧ (l.lent lane).offset = index ∧
    (l.lent lane).width = width

namespace Bank

variable {lanes : Nat}

theorem claimsBoth_lend (b b' : Bank lanes) {width : Nat} (fits : width ≤ cellBits) (s s' : Store)
    (h : SameCursors b.blocks b'.blocks) : ∃ base base' index,
      ClaimsBoth lanes width b.blocks (b.lend width fits s).bank.blocks b'.blocks
        (b'.lend width fits s').bank.blocks s (b.lend width fits s).store s'
        (b'.lend width fits s').store base base' index ∧
      (b.lend width fits s).At base index width ∧ (b'.lend width fits s').At base' index width := by
  unfold lend
  rcases firstFit_both h with ⟨hnone, hnone'⟩ | ⟨slot, after, slot', after', k, hfit, hfit', hsame,
    hslot, hk, hk'⟩
  · rw [hnone, hnone']
    have hcursor : (Slot.claimed ⟨.fresh s.size, Block.fresh_hasRoom fits⟩).cursor =
        (Slot.claimed ⟨.fresh s'.size, Block.fresh_hasRoom fits⟩).cursor := rfl
    have happend := h.append hcursor
    refine ⟨s.size, s'.size, 0, ⟨.append _ rfl rfl rfl (Nat.zero_add width) rfl rfl,
      .append _ rfl rfl rfl (Nat.zero_add width) rfl rfl, happend.1,
      _, _, _, happend.2.1, happend.2.2, rfl, rfl⟩, ?_, ?_⟩
    · exact fun lane => ⟨rfl, rfl, rfl⟩
    · exact fun lane => ⟨rfl, rfl, rfl⟩
  · rw [hfit, hfit']
    obtain ⟨before, rest, hblocks, rfl, -⟩ := firstFit_eq_some_iff.1 hfit
    obtain ⟨before', rest', hblocks', rfl, -⟩ := firstFit_eq_some_iff.1 hfit'
    refine ⟨slot.block.base, slot'.block.base, slot.block.cursor,
      ⟨.reuse before slot.block rest slot.room hblocks rfl rfl rfl rfl,
        .reuse before' slot'.block rest' slot'.room hblocks' rfl rfl rfl hslot, hsame,
        k, _, _, hk, hk', rfl, rfl⟩, ?_, ?_⟩
    · exact fun lane => ⟨rfl, rfl, rfl⟩
    · exact fun lane => ⟨rfl, hslot.symm, rfl⟩

theorem claimsBoth_lendWhole (b b' : Bank lanes) (s s' : Store)
    (h : SameCursors b.blocks b'.blocks) :
    ClaimsBoth lanes cellBits b.blocks (b.lendWhole s).bank.blocks b'.blocks
      (b'.lendWhole s').bank.blocks s (b.lendWhole s).store s' (b'.lendWhole s').store
      s.size s'.size 0 := by
  have hcursor : (Block.whole s.size).cursor = (Block.whole s'.size).cursor := rfl
  have happend := h.append hcursor
  exact ⟨b.claims_lendWhole s, b'.claims_lendWhole s', happend.1, _, _, _, happend.2.1,
    happend.2.2, rfl, rfl⟩

end Bank

/-! ## The same place in both machines -/

/-- Both fields are the same bits, in the same lane of the block of the same number. -/
structure SamePlace (sim sim' : Simulator) (f g : Field) : Prop where
  span : f.toSpan = g.toSpan
  cell : ∃ (p : Part) (k : Nat) (block block' : Block), (sim.blocks p)[k]? = some block ∧
    (sim'.blocks p)[k]? = some block' ∧ ∃ lane < p.lanes,
      f.ref = .ofCell (block.base + lane) ∧ g.ref = .ofCell (block'.base + lane)

/-- The blocks of a bank keep their numbers. -/
def Simulator.KeepsPlaces (sim sim' : Simulator) : Prop :=
  ∀ (p : Part) (k : Nat) (block : Block), (sim.blocks p)[k]? = some block →
    ∃ block', (sim'.blocks p)[k]? = some block' ∧ block'.base = block.base

namespace Simulator.KeepsPlaces

variable {sim sim' : Simulator}

theorem of_blocks (h : ∀ p, sim'.blocks p = sim.blocks p) : sim.KeepsPlaces sim' :=
  fun p k block hblock => ⟨block, by rwa [h p], rfl⟩

theorem refl (sim : Simulator) : sim.KeepsPlaces sim := of_blocks fun _ => rfl

theorem of_stats (h : ∃ stats, sim' = { sim with stats }) : sim.KeepsPlaces sim' := by
  obtain ⟨stats, rfl⟩ := h
  exact of_blocks (sim.blocks_withStats stats)

theorem trans {sim'' : Simulator} (h : sim.KeepsPlaces sim') (h' : sim'.KeepsPlaces sim'') :
    sim.KeepsPlaces sim'' := by
  intro p k block hblock
  obtain ⟨block', hblock', hbase⟩ := h p k block hblock
  obtain ⟨block'', hblock'', hbase'⟩ := h' p k block' hblock'
  exact ⟨block'', hblock'', hbase'.trans hbase⟩

theorem of_lends {m m' : Machine} {row : Row} (h : m.Lends m' row) :
    m.sim.KeepsPlaces m'.sim := by
  intro p k block hblock
  by_cases hp : p = row.part
  · subst hp
    obtain ⟨block', hblock', hbase, -⟩ := h.claims.getElem?_of_getElem? hblock
    exact ⟨block', hblock', hbase⟩
  · exact ⟨block, by rwa [h.others p hp], rfl⟩

end Simulator.KeepsPlaces

namespace SamePlace

variable {sim sim' simGrown simGrown' : Simulator} {f g : Field}

theorem mono (h : SamePlace sim sim' f g) (hleft : sim.KeepsPlaces simGrown)
    (hright : sim'.KeepsPlaces simGrown') : SamePlace simGrown simGrown' f g := by
  obtain ⟨p, k, block, block', hblock, hblock', lane, hlane, hf, hg⟩ := h.cell
  obtain ⟨grown, hgrown, hbase⟩ := hleft p k block hblock
  obtain ⟨grown', hgrown', hbase'⟩ := hright p k block' hblock'
  exact ⟨h.span, p, k, grown, grown', hgrown, hgrown', lane, hlane, by rw [hbase, hf],
    by rw [hbase', hg]⟩

theorem width_eq (h : SamePlace sim sim' f g) : f.width = g.width := congrArg Span.width h.span

theorem left (h : SamePlace sim sim' f g) : sim.Holds f := by
  obtain ⟨p, k, block, block', hblock, -, lane, hlane, hf, -⟩ := h.cell
  exact ⟨_, Simulator.cell_mem (List.mem_of_getElem? hblock) hlane, hf⟩

theorem right (h : SamePlace sim sim' f g) : sim'.Holds g := by
  obtain ⟨p, k, block, block', -, hblock', lane, hlane, -, hg⟩ := h.cell
  exact ⟨_, Simulator.cell_mem (List.mem_of_getElem? hblock') hlane, hg⟩

end SamePlace

/-! ## Links between all words -/

/-- The rows of all bits of a simulator, lent or not. -/
def Simulator.wholeRows (sim : Simulator) : List Row :=
  Part.all.flatMap fun p => (sim.blocks p).map fun block => ⟨p, block.base, 0, cellBits⟩

/-- Links between all bits at the same places. -/
def wholeLinks (sim sim' : Simulator) : List (Row × Row) := sim.wholeRows.zip sim'.wholeRows

section

variable {sim sim' : Simulator} {s t : Store}

theorem mem_wholeLinks (h : ∀ p, SameCursors (sim.blocks p) (sim'.blocks p)) {row row' : Row} :
    (row, row') ∈ wholeLinks sim sim' ↔
      ∃ (p : Part) (k : Nat) (block block' : Block), (sim.blocks p)[k]? = some block ∧
        (sim'.blocks p)[k]? = some block' ∧ row = ⟨p, block.base, 0, cellBits⟩ ∧
        row' = ⟨p, block'.base, 0, cellBits⟩ := by
  unfold wholeLinks Simulator.wholeRows
  rw [zip_flatMap fun p _ => by simp [(h p).length_eq]]
  simp only [List.mem_flatMap, List.zip_map, List.mem_map, Prod.map, Prod.mk.injEq, Prod.exists]
  constructor
  · rintro ⟨p, -, block, block', hmem, rfl, rfl⟩
    obtain ⟨k, hk⟩ := List.getElem?_of_mem hmem
    obtain ⟨hblock, hblock'⟩ := List.getElem?_zip_eq_some.1 hk
    exact ⟨p, k, block, block', hblock, hblock', rfl, rfl⟩
  · rintro ⟨p, k, block, block', hblock, hblock', rfl, rfl⟩
    refine ⟨p, p.mem_all, block, block', ?_, rfl, rfl⟩
    exact List.mem_of_getElem? (List.getElem?_zip_eq_some.2 ⟨hblock, hblock'⟩)

/-- Linked are the bits of one number in the same lane of the blocks of one number. -/
theorem linked_wholeLinks (h : ∀ p, SameCursors (sim.blocks p) (sim'.blocks p)) {a b : Bit} :
    Linked (wholeLinks sim sim') a b ↔
      ∃ (p : Part) (k : Nat) (block block' : Block), (sim.blocks p)[k]? = some block ∧
        (sim'.blocks p)[k]? = some block' ∧ ∃ lane < p.lanes, ∃ j < 64,
          a = ⟨block.base + lane, j⟩ ∧ b = ⟨block'.base + lane, j⟩ := by
  constructor
  · rintro ⟨⟨row, row'⟩, hlink, lane, hlane, j, hj, rfl, rfl⟩
    obtain ⟨p, k, block, block', hblock, hblock', rfl, rfl⟩ := (mem_wholeLinks h).1 hlink
    exact ⟨p, k, block, block', hblock, hblock', lane, hlane, j, hj, by simp [Row.bit],
      by simp [Row.bit]⟩
  · rintro ⟨p, k, block, block', hblock, hblock', lane, hlane, j, hj, rfl, rfl⟩
    exact ⟨_, (mem_wholeLinks h).2 ⟨p, k, block, block', hblock, hblock', rfl, rfl⟩, lane, hlane,
      j, hj, by simp [Row.bit], by simp [Row.bit]⟩

/-- Blocks of the same number are the only ones at their places. -/
theorem oneToOne_wholeLinks (hs : sim.Owns s) (ht : sim'.Owns t)
    (h : ∀ p, SameCursors (sim.blocks p) (sim'.blocks p)) :
    OneToOne (wholeLinks sim sim') := by
  intro a b a' b' hab hab'
  obtain ⟨p, k, block, block', hblock, hblock', lane, hlane, j, -, rfl, rfl⟩ :=
    (linked_wholeLinks h).1 hab
  obtain ⟨q, l, other, other', hother, hother', lane', hlane', j', -, rfl, rfl⟩ :=
    (linked_wholeLinks h).1 hab'
  constructor
  · intro heq
    obtain ⟨rfl, rfl, rfl⟩ :=
      hs.unique_index hblock hlane hother hlane' (congrArg Bit.cell heq)
    obtain rfl := Option.some.inj (hblock'.symm.trans hother')
    rw [show j = j' from congrArg Bit.index heq]
  · intro heq
    obtain ⟨rfl, rfl, rfl⟩ :=
      ht.unique_index hblock' hlane hother' hlane' (congrArg Bit.cell heq)
    obtain rfl := Option.some.inj (hblock.symm.trans hother)
    rw [show j = j' from congrArg Bit.index heq]

/-- Fields at the same place are linked bit by bit. -/
theorem SamePlace.alike (h : ∀ p, SameCursors (sim.blocks p) (sim'.blocks p)) {f g : Field}
    (hfg : SamePlace sim sim' f g) : Alike (wholeLinks sim sim') sim sim' f g := by
  refine ⟨hfg.left, hfg.right, hfg.width_eq, ?_⟩
  intro j a b ha hb
  obtain ⟨p, k, block, block', hblock, hblock', lane, hlane, hf, hg⟩ := hfg.cell
  obtain ⟨hj, hcell, hindex⟩ := Field.bit?_eq_some_iff.1 ha
  obtain ⟨-, hcell', hindex'⟩ := Field.bit?_eq_some_iff.1 hb
  rw [hf] at hcell
  rw [hg] at hcell'
  have hoffset : f.offset = g.offset := congrArg Span.offset hfg.span
  have hfits := f.fits
  rw [cellBits_eq] at hfits
  refine (linked_wholeLinks h).2 ⟨p, k, block, block', hblock, hblock', lane, hlane,
    f.offset + j, by omega, ?_, ?_⟩
  · rw [Option.some.inj hcell, ← hindex]
  · rw [Option.some.inj hcell', hoffset, ← hindex']

end

/-! ## Machines that have allocated the same -/

/-- Nothing has been allocated or registered, and no cell released. -/
structure Machine.Idles (m m' : Machine) : Prop where
  sim : ∃ stats, m'.sim = { m.sim with stats }
  live : ∀ c, m.store.isLive c = true → m'.store.isLive c = true

namespace Machine

variable {m m' m'' : Machine}

theorem Idles.refl (m : Machine) : m.Idles m := ⟨⟨_, rfl⟩, fun _ hc => hc⟩

theorem Idles.trans (h : m.Idles m') (h' : m'.Idles m'') : m.Idles m'' := by
  obtain ⟨stats, hsim⟩ := h.sim
  obtain ⟨stats', hsim'⟩ := h'.sim
  exact ⟨⟨stats', by rw [hsim', hsim]⟩, fun c hc => h'.live c (h.live c hc)⟩

theorem Stays.idles (h : m.Stays m') : m.Idles m' :=
  ⟨h.sim, fun c hc => (h.cells.live c).trans hc⟩

theorem idles_withStore {s : Store} (h : s.SameCells m.store) : m.Idles { m with store := s } :=
  ⟨⟨_, rfl⟩, fun c hc => (h.live c).trans hc⟩

end Machine

/-- The ends of both sockets are at the same places. -/
def SameWire (sim sim' : Simulator) (w w' : Socket) : Prop :=
  SamePlace sim sim' w.source w'.source ∧ SamePlace sim sim' w.target w'.target

/-- Both machines have lent the same bits of the same blocks and registered the same sockets.  If
`same` holds, all their words are equal, also where nothing has been lent yet. -/
structure Aligned (same : Prop) (m n : Machine) : Prop where
  left : m.sim.Owns m.store
  right : n.sim.Owns n.store
  cursors : ∀ p, SameCursors (m.sim.blocks p) (n.sim.blocks p)
  sockets : List.Forall₂ (SameWire m.sim n.sim) m.sim.sockets.sockets n.sim.sockets.sockets
  config : m.sim.config = n.sim.config
  agree : same → SameBits (wholeLinks m.sim n.sim) m.store n.store

theorem SameWire.mono {sim sim' simGrown simGrown' : Simulator} {w w' : Socket}
    (h : SameWire sim sim' w w') (hleft : sim.KeepsPlaces simGrown)
    (hright : sim'.KeepsPlaces simGrown') : SameWire simGrown simGrown' w w' :=
  ⟨h.1.mono hleft hright, h.2.mono hleft hright⟩

namespace Aligned

variable {same : Prop} {m m' n n' : Machine} {f g : Field}

theorem interleaved (h : Aligned same m n) :
    Interleaved (wholeLinks m.sim n.sim) m.sim n.sim m.sim.sockets.sockets
      n.sim.sockets.sockets := by
  have hall : ∀ {ws ws' : List Socket}, List.Forall₂ (SameWire m.sim n.sim) ws ws' →
      Interleaved (wholeLinks m.sim n.sim) m.sim n.sim ws ws' := by
    intro ws ws' hws
    induction hws with
    | nil => exact .nil
    | cons hwire _ ih => exact .both (hwire.1.alike h.cursors) (hwire.2.alike h.cursors) ih
  exact hall h.sockets

theorem wired_left (h : Aligned same m n) : m.sim.Wired := h.interleaved.wired_left

theorem wired_right (h : Aligned same m n) : n.sim.Wired := h.interleaved.wired_right

theorem oneToOne (h : Aligned same m n) : OneToOne (wholeLinks m.sim n.sim) :=
  oneToOne_wholeLinks h.left h.right h.cursors

theorem wholeLinks_eq {sim sim' sim₁ sim₁' : Simulator} (h : ∀ p, sim₁.blocks p = sim.blocks p)
    (h' : ∀ p, sim₁'.blocks p = sim'.blocks p) : wholeLinks sim₁ sim₁' = wholeLinks sim sim' := by
  simp only [wholeLinks, Simulator.wholeRows, h, h']

/-- Other contents of the cells that there are. -/
theorem of_blocks {same' : Prop} (h : Aligned same m n) (hm : ∀ p, m'.sim.blocks p = m.sim.blocks p)
    (hn : ∀ p, n'.sim.blocks p = n.sim.blocks p) (hleft : m'.sim.Owns m'.store)
    (hright : n'.sim.Owns n'.store)
    (hsockets : List.Forall₂ (SameWire m.sim n.sim) m'.sim.sockets.sockets
      n'.sim.sockets.sockets)
    (hconfig : m'.sim.config = n'.sim.config)
    (hagree : same' → SameBits (wholeLinks m.sim n.sim) m'.store n'.store) :
    Aligned same' m' n' := by
  refine ⟨hleft, hright, fun p => by rw [hm, hn]; exact h.cursors p, ?_, hconfig, ?_⟩
  · exact hsockets.imp fun _ _ hwire => hwire.mono (.of_blocks hm) (.of_blocks hn)
  · rw [wholeLinks_eq hm hn]
    exact hagree

theorem weaken {same' : Prop} (h : Aligned same m n) (hsame : same' → same) :
    Aligned same' m n := { h with agree := fun hsame' => h.agree (hsame hsame') }

/-- What the machines have reported and counted does not matter. -/
theorem of_stats (h : Aligned same m n) (hm : ∃ stats, m'.sim = { m.sim with stats })
    (hn : ∃ stats, n'.sim = { n.sim with stats }) (hleft : m'.sim.Owns m'.store)
    (hright : n'.sim.Owns n'.store)
    (hagree : same → SameBits (wholeLinks m.sim n.sim) m'.store n'.store) :
    Aligned same m' n' := by
  obtain ⟨stats, hm⟩ := hm
  obtain ⟨stats', hn⟩ := hn
  refine h.of_blocks ?_ ?_ hleft hright ?_ ?_ hagree
  · intro p
    rw [hm, Simulator.blocks_withStats]
  · intro p
    rw [hn, Simulator.blocks_withStats]
  · rw [hm, hn]
    exact h.sockets
  · rw [hm, hn]
    exact h.config

/-- What one machine does to its own words does not matter as long as they need not be equal. -/
theorem of_idles (h : Aligned False m n) (hm : m.Idles m') (hn : n.Idles n') :
    Aligned False m' n' := by
  have howns : ∀ {m m' : Machine}, m.Idles m' → m.sim.Owns m.store → m'.sim.Owns m'.store := by
    intro m m' hidles howns
    obtain ⟨stats, hsim⟩ := hidles.sim
    rw [hsim]
    exact ⟨fun c hc => hidles.live c (howns.live c hc), howns.apart⟩
  exact h.of_stats hm.sim hn.sim (howns hm h.left) (howns hn h.right) False.elim

/-- Both machines take a step. -/
theorem tick (h : Aligned same m n) : Attempt.Related (Aligned same) m.tick n.tick := by
  obtain ⟨m', htick, hticked⟩ := Machine.tick_of_wired h.left h.wired_left
  obtain ⟨n', htick', hticked'⟩ := Machine.tick_of_wired h.right h.wired_right
  rw [htick, htick']
  refine ⟨rfl, h.of_stats hticked.sim hticked'.sim (hticked.owns h.left)
    (hticked'.owns h.right) fun hsame => ?_⟩
  have hbits : ∀ link ∈ wholeLinks m.sim n.sim, m.sim.HasBits link.1 ∧ n.sim.HasBits link.2 := by
    rintro ⟨row, row'⟩ hlink
    obtain ⟨p, k, block, block', hblock, hblock', rfl, rfl⟩ := (mem_wholeLinks h.cursors).1 hlink
    exact ⟨⟨block, List.mem_of_getElem? hblock, rfl, Nat.le_of_eq (Nat.zero_add _)⟩,
      block', List.mem_of_getElem? hblock', rfl, Nat.le_of_eq (Nat.zero_add _)⟩
  have hshape : ∀ link ∈ wholeLinks m.sim n.sim,
      link.2.part = link.1.part ∧ link.2.width = link.1.width := by
    rintro ⟨row, row'⟩ hlink
    obtain ⟨p, k, block, block', -, -, rfl, rfl⟩ := (mem_wholeLinks h.cursors).1 hlink
    exact ⟨rfl, rfl⟩
  obtain ⟨s', t', heach, heach', hagree⟩ := h.interleaved.sameBits_each h.oneToOne
    (h.left.of_sameCells (m.sim.sameCells_tickGates m.store))
    (h.right.of_sameCells (n.sim.sameCells_tickGates n.store))
    (sameBits_tickGates h.left h.right hshape hbits (h.agree hsame))
  obtain rfl : m'.store = s' := congrArg Attempt.state (hticked.phases.symm.trans heach)
  obtain rfl : n'.store = t' := congrArg Attempt.state (hticked'.phases.symm.trans heach')
  exact @hagree

theorem run (h : Aligned same m n) (count : Nat) :
    Attempt.Related (Aligned same) (m.run count) (n.run count) := by
  induction count generalizing m n with
  | zero => exact ⟨rfl, h⟩
  | succ count ih =>
    rw [Machine.run, Machine.run, Attempt.times_succ, Attempt.times_succ]
    exact h.tick.andThen fun _ _ => ih

/-- The configurations are the same, so both settle after as many steps. -/
theorem settle (h : Aligned same m n) : Attempt.Related (Aligned same) m.settle n.settle := by
  unfold Machine.settle
  rw [← h.config]
  exact h.run m.sim.config.settleSteps

/-- Fields at the same place are edited in the same way. -/
theorem edit (h : Aligned same m n) (hfg : SamePlace m.sim n.sim f g) (e : Edit) :
    Attempt.Related (fun s t => Aligned same { m with store := s } { n with store := t })
      (f.edit e m.store) (g.edit e n.store) := by
  obtain ⟨s, hedit, hs⟩ := Field.edit_of_isLive e (h.left.isLive hfg.left)
  obtain ⟨t, hedit', ht⟩ := Field.edit_of_isLive e (h.right.isLive hfg.right)
  rw [hedit, hedit']
  refine ⟨rfl, h.of_blocks (fun _ => rfl) (fun _ => rfl) (h.left.of_sameCells hs.cells)
    (h.right.of_sameCells ht.cells) h.sockets h.config fun hsame => ?_⟩
  exact (hfg.alike h.cursors).sameBits_edit h.oneToOne (h.agree hsame) hs ht

/-- Fields at the same place read the same, if all words are equal. -/
theorem get_eq (h : Aligned same m n) (hsame : same) (hfg : SamePlace m.sim n.sim f g) :
    f.get m.store = g.get n.store :=
  (hfg.alike h.cursors).get_eq h.left h.right (h.agree hsame)

/-- Whatever the words were before, all are equal once both machines have been cleared. -/
theorem clear (h : Aligned same m n) : Aligned True m.clear n.clear := by
  refine h.of_blocks (fun _ => rfl) (fun _ => rfl)
    (h.left.of_sameCells (Store.sameCells_zero m.store m.sim.cells))
    (h.right.of_sameCells (Store.sameCells_zero n.store n.sim.cells)) h.sockets h.config fun _ => ?_
  intro a b hab
  obtain ⟨p, k, block, block', hblock, hblock', lane, hlane, j, -, rfl, rfl⟩ :=
    (linked_wholeLinks h.cursors).1 hab
  have hmem := Simulator.cell_mem (List.mem_of_getElem? hblock) hlane
  have hmem' := Simulator.cell_mem (List.mem_of_getElem? hblock') hlane
  simp [Machine.clear, Simulator.clear, Store.bit_zero, hmem, hmem']

/-- Others create cells beside both machines. -/
theorem others (h : Aligned same m n) (count count' : Nat) :
    Aligned same { m with store := m.store.pushZeros count }
      { n with store := n.store.pushZeros count' } := by
  have howns : ∀ {m : Machine} (count : Nat), m.sim.Owns m.store →
      m.sim.Owns (m.store.pushZeros count) :=
    fun count howns => ⟨fun c hc => Store.isLive_pushZeros.2 (.inl (howns.live c hc)), howns.apart⟩
  refine h.of_blocks (fun _ => rfl) (fun _ => rfl) (howns count h.left) (howns count' h.right)
    h.sockets h.config fun hsame => ?_
  intro a b hab
  rw [Store.bit_pushZeros, Store.bit_pushZeros, h.agree hsame hab]

end Aligned

end PackedLogic
