import PackedLogic.Machine.Basic
import PackedLogic.Proofs.Bits
import Mathlib.Data.List.Nodup
import Mathlib.Data.List.Pairwise
set_option autoImplicit false

/-!
# Ownership

A simulator owns five banks, one for each kind of gate and the bus.  `Simulator.Owns` says that the
cells of all their blocks exist and are told apart, so that a cell determines its bank, its block
and its lane (`Simulator.Owns.unique`).  A bit is lent if it lies below the cursor of its block.
-/

namespace PackedLogic

/-- The banks of a simulator. -/
inductive Part
  | gates (k : GateKind)
  | bus
  deriving DecidableEq, Repr

namespace Part

/-- The number of cells in a block of the bank. -/
def lanes : Part → Nat
  | gates k => k.arity
  | bus => 1

/-- All banks, in the order in which their cells are listed. -/
def all : List Part := GateKind.all.map gates ++ [bus]

theorem mem_all (p : Part) : p ∈ all := by
  cases p with
  | gates k => exact List.mem_append_left _ (List.mem_map_of_mem (GateKind.mem_all k))
  | bus => exact List.mem_append_right _ List.mem_cons_self

theorem nodup_all : all.Nodup := by decide

end Part

/-- Members of a list that share an element of their images are equal if all images together are
free of repetitions. -/
theorem eq_of_mem_of_nodup_flatMap {α β : Type} {l : List α} {f : α → List β}
    (h : (l.flatMap f).Nodup) {a b : α} (ha : a ∈ l) (hb : b ∈ l) {c : β} (hca : c ∈ f a)
    (hcb : c ∈ f b) : a = b := by
  have hpairs := (List.nodup_flatMap.1 h).2
  have hsymm : Std.Symm (Function.onFun List.Disjoint f) :=
    ⟨fun _ _ hdisjoint => List.disjoint_comm.1 hdisjoint⟩
  by_contra hne
  exact hpairs.forall ha hb hne hca hcb

/-- Positions of a list whose members share an element of their images are equal if all images
together are free of repetitions. -/
theorem index_eq_of_nodup_flatMap {α β : Type} {l : List α} {f : α → List β}
    (h : (l.flatMap f).Nodup) {n m : Nat} {a b : α} (ha : l[n]? = some a) (hb : l[m]? = some b)
    {c : β} (hca : c ∈ f a) (hcb : c ∈ f b) : n = m := by
  obtain ⟨hn, rfl⟩ := List.getElem?_eq_some_iff.1 ha
  obtain ⟨hm, rfl⟩ := List.getElem?_eq_some_iff.1 hb
  have hpairs := List.pairwise_iff_getElem.1 (List.nodup_flatMap.1 h).2
  rcases Nat.lt_trichotomy n m with hlt | heq | hgt
  · exact absurd hcb (hpairs n m hn hm hlt hca)
  · exact heq
  · exact absurd hca (hpairs m n hm hn hgt hcb)

namespace Simulator

/-- The blocks of one bank. -/
def blocks (sim : Simulator) : Part → List Block
  | .gates k => (sim.pool k).bank.blocks
  | .bus => sim.bus.blocks

/-- The simulator with other sockets. -/
def withSockets (sim : Simulator) (ws : List Socket) : Simulator := { sim with sockets := ⟨ws⟩ }

theorem blocks_withSockets (sim : Simulator) (ws : List Socket) (p : Part) :
    (sim.withSockets ws).blocks p = sim.blocks p := by
  cases p with
  | gates k => cases k <;> rfl
  | bus => rfl

/-- The names of the cells of one bank. -/
def cellsOf (sim : Simulator) (p : Part) : List Nat :=
  (sim.blocks p).flatMap fun block => List.range' block.base p.lanes

theorem cells_eq (sim : Simulator) : sim.cells = Part.all.flatMap sim.cellsOf := by
  simp only [cells, Part.all, List.flatMap_append, List.flatMap_map, List.flatMap_cons,
    List.flatMap_nil, List.append_nil]
  rfl

theorem mem_cellsOf {sim : Simulator} {p : Part} {c : Nat} :
    c ∈ sim.cellsOf p ↔ ∃ block ∈ sim.blocks p, ∃ lane < p.lanes, c = block.base + lane := by
  simp only [cellsOf, List.mem_flatMap, List.mem_range'_1]
  constructor
  · rintro ⟨block, hblock, hlo, hhi⟩
    exact ⟨block, hblock, c - block.base, by omega, by omega⟩
  · rintro ⟨block, hblock, lane, hlane, rfl⟩
    exact ⟨block, hblock, by omega, by omega⟩

theorem mem_cells {sim : Simulator} {c : Nat} :
    c ∈ sim.cells ↔
      ∃ p, ∃ block ∈ sim.blocks p, ∃ lane < p.lanes, c = block.base + lane := by
  rw [cells_eq, List.mem_flatMap]
  constructor
  · rintro ⟨p, -, hc⟩
    exact ⟨p, mem_cellsOf.1 hc⟩
  · rintro ⟨p, hc⟩
    exact ⟨p, p.mem_all, mem_cellsOf.2 hc⟩

theorem cell_mem {sim : Simulator} {p : Part} {block : Block} {lane : Nat}
    (hblock : block ∈ sim.blocks p) (hlane : lane < p.lanes) : block.base + lane ∈ sim.cells :=
  mem_cells.2 ⟨p, block, hblock, lane, hlane, rfl⟩

/-- All cells of the simulator exist, and no two blocks share one. -/
structure Owns (sim : Simulator) (s : Store) : Prop where
  live : ∀ c ∈ sim.cells, s.isLive c = true
  apart : sim.cells.Nodup

theorem Owns.of_sameCells {sim : Simulator} {s s' : Store} (h : sim.Owns s)
    (hcells : s'.SameCells s) : sim.Owns s' :=
  ⟨fun c hc => (hcells.live c).trans (h.live c hc), h.apart⟩

theorem Owns.withSockets {sim : Simulator} {s : Store} (h : sim.Owns s) (ws : List Socket) :
    (sim.withSockets ws).Owns s := ⟨h.live, h.apart⟩

/-- A cell determines its bank, its block and its lane. -/
theorem Owns.unique {sim : Simulator} {s : Store} (h : sim.Owns s) {p p' : Part}
    {block block' : Block} {lane lane' : Nat} (hblock : block ∈ sim.blocks p)
    (hlane : lane < p.lanes) (hblock' : block' ∈ sim.blocks p') (hlane' : lane' < p'.lanes)
    (heq : block.base + lane = block'.base + lane') :
    p = p' ∧ block = block' ∧ lane = lane' := by
  have hnodup := h.apart
  rw [cells_eq] at hnodup
  have hc : block.base + lane ∈ sim.cellsOf p :=
    mem_cellsOf.2 ⟨block, hblock, lane, hlane, rfl⟩
  have hc' : block.base + lane ∈ sim.cellsOf p' :=
    mem_cellsOf.2 ⟨block', hblock', lane', hlane', heq⟩
  obtain rfl : p = p' := eq_of_mem_of_nodup_flatMap hnodup p.mem_all p'.mem_all hc hc'
  have hpart : (sim.cellsOf p).Nodup := (List.nodup_flatMap.1 hnodup).1 p p.mem_all
  have hrow : block.base + lane ∈ List.range' block.base p.lanes :=
    List.mem_range'_1.2 ⟨by omega, by omega⟩
  have hrow' : block.base + lane ∈ List.range' block'.base p.lanes :=
    List.mem_range'_1.2 ⟨by omega, by omega⟩
  obtain rfl : block = block' := eq_of_mem_of_nodup_flatMap hpart hblock hblock' hrow hrow'
  exact ⟨rfl, rfl, by omega⟩

/-- A cell determines the number of its block. -/
theorem Owns.unique_index {sim : Simulator} {s : Store} (h : sim.Owns s) {p p' : Part}
    {k k' : Nat} {block block' : Block} {lane lane' : Nat} (hblock : (sim.blocks p)[k]? = some block)
    (hlane : lane < p.lanes) (hblock' : (sim.blocks p')[k']? = some block') (hlane' : lane' < p'.lanes)
    (heq : block.base + lane = block'.base + lane') : p = p' ∧ k = k' ∧ lane = lane' := by
  obtain ⟨rfl, rfl, rfl⟩ := h.unique (List.mem_of_getElem? hblock) hlane
    (List.mem_of_getElem? hblock') hlane' heq
  have hnodup := h.apart
  rw [cells_eq] at hnodup
  have hpart : (sim.cellsOf p).Nodup := (List.nodup_flatMap.1 hnodup).1 p p.mem_all
  have hcell : block.base + lane ∈ List.range' block.base p.lanes :=
    List.mem_range'_1.2 ⟨by omega, by omega⟩
  exact ⟨rfl, index_eq_of_nodup_flatMap hpart hblock hblock' hcell hcell, rfl⟩

/-- The field lies in a cell of the simulator. -/
def Holds (sim : Simulator) (f : Field) : Prop := ∃ c ∈ sim.cells, f.ref = .ofCell c

theorem Owns.isLive {sim : Simulator} {s : Store} (h : sim.Owns s) {f : Field}
    (hf : sim.Holds f) : f.isLive s = true := by
  obtain ⟨c, hc, href⟩ := hf
  exact Field.isLive_iff.2 ⟨c, href, h.live c hc⟩

theorem Holds.exists_bit {sim : Simulator} {f : Field} (h : sim.Holds f) {j : Nat}
    (hj : j < f.width) : ∃ b, f.bit? j = some b := by
  obtain ⟨c, -, href⟩ := h
  exact ⟨⟨c, f.offset + j⟩, Field.bit?_eq_some_iff.2 ⟨hj, by rw [href]; rfl, rfl⟩⟩

/-- Every socket joins two fields that lie in cells of the simulator. -/
def Wired (sim : Simulator) : Prop :=
  ∀ w ∈ sim.sockets.sockets, sim.Holds w.source ∧ sim.Holds w.target

/-- The bit has been lent: it lies below the cursor of its block. -/
def Lent (sim : Simulator) (b : Bit) : Prop :=
  ∃ p, ∃ block ∈ sim.blocks p, ∃ lane < p.lanes,
    b.cell = block.base + lane ∧ b.index < block.cursor

theorem Lent.mem_cells {sim : Simulator} {b : Bit} (h : sim.Lent b) : b.cell ∈ sim.cells := by
  obtain ⟨p, block, hblock, lane, hlane, hcell, -⟩ := h
  rw [hcell]
  exact cell_mem hblock hlane

/-! ## Growth -/

/-- Every block of one simulator is a block of the other, at the same place and with no fewer bits
lent. -/
def Grows (sim sim' : Simulator) : Prop :=
  ∀ p, ∀ block ∈ sim.blocks p,
    ∃ block' ∈ sim'.blocks p, block'.base = block.base ∧ block.cursor ≤ block'.cursor

namespace Grows

variable {sim sim' sim'' : Simulator}

theorem of_blocks (h : ∀ p, sim'.blocks p = sim.blocks p) : sim.Grows sim' := by
  intro p block hblock
  exact ⟨block, by rwa [h], rfl, Nat.le_refl _⟩

theorem refl (sim : Simulator) : sim.Grows sim := of_blocks fun _ => rfl

theorem trans (h : sim.Grows sim') (h' : sim'.Grows sim'') : sim.Grows sim'' := by
  intro p block hblock
  obtain ⟨block', hblock', hbase, hcursor⟩ := h p block hblock
  obtain ⟨block'', hblock'', hbase', hcursor'⟩ := h' p block' hblock'
  exact ⟨block'', hblock'', hbase'.trans hbase, Nat.le_trans hcursor hcursor'⟩

theorem mem_cells (h : sim.Grows sim') {c : Nat} (hc : c ∈ sim.cells) : c ∈ sim'.cells := by
  obtain ⟨p, block, hblock, lane, hlane, rfl⟩ := Simulator.mem_cells.1 hc
  obtain ⟨block', hblock', hbase, -⟩ := h p block hblock
  exact hbase ▸ cell_mem hblock' hlane

theorem holds (h : sim.Grows sim') {f : Field} (hf : sim.Holds f) : sim'.Holds f := by
  obtain ⟨c, hc, href⟩ := hf
  exact ⟨c, h.mem_cells hc, href⟩

theorem lent (h : sim.Grows sim') {b : Bit} (hb : sim.Lent b) : sim'.Lent b := by
  obtain ⟨p, block, hblock, lane, hlane, hcell, hindex⟩ := hb
  obtain ⟨block', hblock', hbase, hcursor⟩ := h p block hblock
  exact ⟨p, block', hblock', lane, hlane, by rw [hbase, hcell], by omega⟩

end Grows

end Simulator

end PackedLogic
