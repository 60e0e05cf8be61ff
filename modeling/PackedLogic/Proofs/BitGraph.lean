import PackedLogic.Proofs.Step
import Mathlib.Data.Nat.SuccPred
import Mathlib.Logic.Relation
import Mathlib.Order.SuccPred.Archimedean
import Mathlib.Order.WellFoundedSet
import Mathlib.Data.Set.Finite.Lattice
set_option autoImplicit false

/-!
# The graph of bits

Bits depend on each other through gates and through sockets.  A path in this graph is measured by
the number of sockets on it.  A graph without cycles is well founded
(`Simulator.wellFounded_drives`), and no path in it passes more than a certain number of sockets
(`Simulator.exists_socketPath_le`).
-/

namespace PackedLogic

namespace Simulator

/-- Bit `a` is an input of the gate whose output is bit `b`. -/
def GateEdge (sim : Simulator) (a b : Bit) : Prop :=
  ∃ k, ∃ block ∈ sim.blocks (.gates k), ∃ lane < k.inputs, ∃ i < 64,
    a = ⟨block.base + lane, i⟩ ∧ b = ⟨block.base + k.inputs, i⟩

/-- A socket copies bit `a` into bit `b`. -/
def SocketEdge (sim : Simulator) (a b : Bit) : Prop :=
  ∃ w ∈ sim.sockets.sockets, ∃ j, w.source.bit? j = some a ∧ w.target.bit? j = some b

/-- Bit `b` depends on bit `a` directly. -/
def Drives (sim : Simulator) (a b : Bit) : Prop := sim.GateEdge a b ∨ sim.SocketEdge a b

/-- Some socket copies into the bit. -/
def SocketTarget (sim : Simulator) (b : Bit) : Prop := ∃ a, sim.SocketEdge a b

/-- A path that ends in a bit, and the number of sockets on it. -/
inductive SocketPath (sim : Simulator) : Nat → Bit → Prop
  | start (b : Bit) : SocketPath sim 0 b
  | gate {n : Nat} {a b : Bit} : SocketPath sim n a → sim.GateEdge a b → SocketPath sim n b
  | socket {n : Nat} {a b : Bit} : SocketPath sim n a → sim.SocketEdge a b →
      SocketPath sim (n + 1) b

/-- All bits of the simulator. -/
def bits (sim : Simulator) : List Bit :=
  sim.cells.flatMap fun c => (List.range 64).map fun i => ⟨c, i⟩

theorem mem_bits {sim : Simulator} {b : Bit} :
    b ∈ sim.bits ↔ b.cell ∈ sim.cells ∧ b.index < 64 := by
  simp only [bits, List.mem_flatMap, List.mem_map, List.mem_range]
  constructor
  · rintro ⟨c, hc, i, hi, rfl⟩
    exact ⟨hc, hi⟩
  · rintro ⟨hc, hi⟩
    exact ⟨b.cell, hc, b.index, hi, rfl⟩

theorem Holds.mem_bits {sim : Simulator} {f : Field} (h : sim.Holds f) {j : Nat} {b : Bit}
    (hb : f.bit? j = some b) : b ∈ sim.bits := by
  obtain ⟨c, hc, href⟩ := h
  obtain ⟨hj, hcell, hindex⟩ := Field.bit?_eq_some_iff.1 hb
  rw [href] at hcell
  obtain rfl : c = b.cell := Option.some.inj hcell
  have fits : f.offset + f.width ≤ 64 := f.fits
  exact Simulator.mem_bits.2 ⟨hc, by omega⟩

/-- An edge joins two bits of the simulator. -/
theorem Drives.mem_bits {sim : Simulator} (hwired : sim.Wired) {a b : Bit}
    (h : sim.Drives a b) : a ∈ sim.bits ∧ b ∈ sim.bits := by
  rcases h with ⟨k, block, hblock, lane, hlane, i, hi, rfl, rfl⟩ | ⟨w, hw, j, ha, hb⟩
  · have hinput : block.base + lane ∈ sim.cells := cell_mem hblock (Nat.lt_succ_of_lt hlane)
    have houtput : block.base + k.inputs ∈ sim.cells := cell_mem hblock (Nat.lt_succ_self _)
    exact ⟨Simulator.mem_bits.2 ⟨hinput, hi⟩, Simulator.mem_bits.2 ⟨houtput, hi⟩⟩
  · exact ⟨(hwired w hw).1.mem_bits ha, (hwired w hw).2.mem_bits hb⟩

/-- Every bit of a target has a bit of the source that is copied into it. -/
theorem socketTarget_of_covers {sim : Simulator} (hwired : sim.Wired) {w : Socket}
    (hw : w ∈ sim.sockets.sockets) {b : Bit} (hb : w.target.Covers b) : sim.SocketTarget b := by
  obtain ⟨j, hj⟩ := hb
  have hlt : j < w.source.width := w.width_eq ▸ (Field.bit?_eq_some_iff.1 hj).1
  obtain ⟨a, ha⟩ := (hwired w hw).1.exists_bit hlt
  exact ⟨a, w, hw, j, ha, hj⟩

theorem GateEdge.gateOutput {sim : Simulator} {a b : Bit} (h : sim.GateEdge a b) :
    sim.GateOutput b := by
  obtain ⟨k, block, hblock, lane, -, i, hi, -, rfl⟩ := h
  exact ⟨k, block, hblock, i, hi, rfl⟩

/-- An input of a gate is not the output of a gate. -/
theorem GateEdge.not_gateOutput {sim : Simulator} {s : Store} (howns : sim.Owns s) {a b : Bit}
    (h : sim.GateEdge a b) : ¬ sim.GateOutput a := by
  obtain ⟨k, block, hblock, lane, hlane, i, -, rfl, -⟩ := h
  exact howns.not_gateOutput_of_ne hblock (Nat.lt_succ_of_lt hlane) (Nat.ne_of_lt hlane) i

/-! ## Graphs without cycles -/

/-- A numbering of the bits that grows along every edge rules cycles out. -/
theorem acyclic_of_rank {sim : Simulator} (rank : Bit → Nat)
    (h : ∀ a b, sim.Drives a b → rank a < rank b) (b : Bit) :
    ¬ Relation.TransGen sim.Drives b b := by
  have hgrows : ∀ a c, Relation.TransGen sim.Drives a c → rank a < rank c := by
    intro a c hpath
    induction hpath with
    | single hedge => exact h _ _ hedge
    | tail _ hedge ih => exact Nat.lt_trans ih (h _ _ hedge)
  intro hcycle
  exact Nat.lt_irrefl _ (hgrows b b hcycle)

/-- A graph without cycles is well founded, since the simulator has finitely many bits. -/
theorem wellFounded_drives {sim : Simulator} (hwired : sim.Wired)
    (hacyclic : ∀ b, ¬ Relation.TransGen sim.Drives b b) : WellFounded sim.Drives := by
  have hfinite : {b | b ∈ sim.bits}.Finite := List.finite_toSet sim.bits
  have hstrict : IsStrictOrder Bit (Relation.TransGen sim.Drives) :=
    { irrefl := hacyclic, trans := fun _ _ _ => Relation.TransGen.trans }
  have hwf := Set.wellFoundedOn_iff.1 (hfinite.wellFoundedOn (r := Relation.TransGen sim.Drives))
  apply Subrelation.wf _ hwf
  intro a b hedge
  exact ⟨Relation.TransGen.single hedge, (hedge.mem_bits hwired).1, (hedge.mem_bits hwired).2⟩

/-- Every function into the naturals is bounded on the bits of the simulator. -/
theorem exists_bound (sim : Simulator) (f : Bit → Nat) : ∃ n, ∀ b ∈ sim.bits, f b ≤ n := by
  have hfinite : {b | b ∈ sim.bits}.Finite := List.finite_toSet sim.bits
  obtain ⟨n, hn⟩ := (hfinite.image f).bddAbove
  exact ⟨n, fun b hb => hn (Set.mem_image_of_mem f hb)⟩

/-- The paths into one bit pass a bounded number of sockets. -/
theorem exists_socketPath_le_of_bit {sim : Simulator} (hwired : sim.Wired)
    (hwf : WellFounded sim.Drives) (b : Bit) : ∃ n, ∀ k, sim.SocketPath k b → k ≤ n := by
  induction b using hwf.induction with
  | _ b ih =>
    have hbefore : ∀ a, ∃ n, sim.Drives a b → ∀ k, sim.SocketPath k a → k ≤ n := by
      intro a
      by_cases h : sim.Drives a b
      · obtain ⟨n, hn⟩ := ih a h
        exact ⟨n, fun _ => hn⟩
      · exact ⟨0, fun h' => absurd h' h⟩
    choose f hf using hbefore
    obtain ⟨n, hn⟩ := sim.exists_bound f
    refine ⟨n + 1, ?_⟩
    intro k hk
    cases hk with
    | start => exact Nat.zero_le _
    | @gate _ a _ hpath hedge =>
      have hdrives : sim.Drives a b := Or.inl hedge
      have hle := hf a hdrives k hpath
      have hbound := hn a (hdrives.mem_bits hwired).1
      omega
    | @socket k a _ hpath hedge =>
      have hdrives : sim.Drives a b := Or.inr hedge
      have hle := hf a hdrives k hpath
      have hbound := hn a (hdrives.mem_bits hwired).1
      omega

/-- All paths together pass a bounded number of sockets. -/
theorem exists_socketPath_le {sim : Simulator} (hwired : sim.Wired)
    (hwf : WellFounded sim.Drives) : ∃ n, ∀ k b, sim.SocketPath k b → k ≤ n := by
  choose f hf using exists_socketPath_le_of_bit hwired hwf
  obtain ⟨n, hn⟩ := sim.exists_bound f
  refine ⟨n, ?_⟩
  intro k b hk
  by_cases hb : b ∈ sim.bits
  · exact Nat.le_trans (hf b k hk) (hn b hb)
  · cases hk with
    | start => exact Nat.zero_le _
    | gate _ hedge => exact absurd (Drives.mem_bits hwired (Or.inl hedge)).2 hb
    | socket _ hedge => exact absurd (Drives.mem_bits hwired (Or.inr hedge)).2 hb

theorem exists_longest_of_bit {sim : Simulator} (hwired : sim.Wired)
    (hwf : WellFounded sim.Drives) (b : Bit) : ∃ n, IsGreatest {k | sim.SocketPath k b} n := by
  obtain ⟨n, hn⟩ := exists_socketPath_le_of_bit hwired hwf b
  exact BddAbove.exists_isGreatest_of_nonempty ⟨n, fun k hk => hn k hk⟩ ⟨0, .start b⟩

theorem exists_longest {sim : Simulator} (hwired : sim.Wired) (hwf : WellFounded sim.Drives) :
    ∃ n, IsGreatest {k | ∃ b, sim.SocketPath k b} n := by
  obtain ⟨n, hn⟩ := exists_socketPath_le hwired hwf
  exact BddAbove.exists_isGreatest_of_nonempty ⟨n, fun k ⟨b, hk⟩ => hn k b hk⟩
    ⟨0, ⟨0, 0⟩, .start _⟩

end Simulator

end PackedLogic
