import PackedLogic.Proofs.BitGraph
set_option autoImplicit false

/-!
# Settling

A machine whose bits depend on each other without cycles, and each on one socket or one gate at
most, comes to rest: every bit takes on its combinational value after as many steps as there are
sockets on the longest path into it, one more for the output of a gate.  The state it comes to
rest in is the only one that its gates, its sockets and its undriven bits agree with, so that the
order in which the sockets were registered has no part in it.
-/

namespace PackedLogic

namespace Simulator

/-- The graph of bits has no cycle, no bit is the target of two socket bits, and no output of a gate
is the target of a socket. -/
structure Settleable (sim : Simulator) : Prop where
  acyclic : ∀ b, ¬ Relation.TransGen sim.Drives b b
  single : sim.sockets.sockets.Pairwise fun w w' =>
    ∀ b, w.target.Covers b → ¬ w'.target.Covers b
  apart : ∀ b, sim.SocketTarget b → ¬ sim.GateOutput b

/-- Undriven bits are as in `s`, every output of a gate is the function of its inputs, and every
target of a socket equals its source. -/
structure Combinational (sim : Simulator) (s : Store) (v : Bit → Bool) : Prop where
  undriven : ∀ b, (∀ a, ¬ sim.Drives a b) → v b = s.bit b
  gate : ∀ k, ∀ block ∈ sim.blocks (.gates k), ∀ i < 64,
    v ⟨block.base + k.inputs, i⟩ = k.bit fun lane => v ⟨block.base + lane, i⟩
  socket : ∀ a b, sim.SocketEdge a b → v b = v a

theorem GateOutput.exists_edge {sim : Simulator} {b : Bit} (h : sim.GateOutput b) :
    ∃ a, sim.GateEdge a b := by
  obtain ⟨k, block, hblock, i, hi, rfl⟩ := h
  have hpos : 0 < k.inputs := by cases k <;> decide
  exact ⟨⟨block.base, i⟩, k, block, hblock, 0, hpos, i, hi, rfl, rfl⟩

/-- At most one valuation agrees with gates, sockets and undriven bits. -/
theorem Combinational.unique {sim : Simulator} (hwf : WellFounded sim.Drives) {s : Store}
    {u v : Bit → Bool} (hu : sim.Combinational s u) (hv : sim.Combinational s v) : u = v := by
  funext b
  induction b using hwf.induction with
  | _ b ih =>
    by_cases hout : sim.GateOutput b
    · obtain ⟨k, block, hblock, i, hi, rfl⟩ := hout
      rw [hu.gate k block hblock i hi, hv.gate k block hblock i hi]
      congr 1
      funext lane
      exact ih _ (Or.inl ⟨k, block, hblock, lane, lane.isLt, i, hi, rfl, rfl⟩)
    · by_cases htarget : sim.SocketTarget b
      · obtain ⟨a, hedge⟩ := htarget
        rw [hu.socket a b hedge, hv.socket a b hedge]
        exact ih a (Or.inr hedge)
      · have hnone : ∀ a, ¬ sim.Drives a b := by
          rintro a (hedge | hedge)
          · exact hout hedge.gateOutput
          · exact htarget ⟨a, hedge⟩
        rw [hu.undriven b hnone, hv.undriven b hnone]

/-! ## What one step does to a bit -/

section Step

variable {sim : Simulator} {s s' : Store}

/-- Bits outside all targets are as the gate phase left them. -/
theorem Steps.bit_of_not_target (howns : sim.Owns s) (hwired : sim.Wired)
    (hsteps : sim.Steps s s') {b : Bit} (hb : ¬ sim.SocketTarget b) :
    s'.bit b = (sim.tickGates s).bit b := by
  have hgates := howns.of_sameCells (sim.sameCells_tickGates s)
  obtain ⟨s'', heach, -, houtside⟩ := Socket.each_tick_of_isLive (hgates.isLive_ends hwired)
  have hsame : Attempt.done s'' = Attempt.done s' := heach.symm.trans hsteps
  obtain rfl : s'' = s' := congrArg Attempt.state hsame
  apply houtside
  intro w hw hcovers
  exact hb (socketTarget_of_covers hwired hw hcovers)

theorem Steps.bit_undriven (howns : sim.Owns s) (hwired : sim.Wired) (hsteps : sim.Steps s s')
    {b : Bit} (hb : ∀ a, ¬ sim.Drives a b) : s'.bit b = s.bit b := by
  have htarget : ¬ sim.SocketTarget b := fun ⟨a, hedge⟩ => hb a (Or.inr hedge)
  have hout : ¬ sim.GateOutput b := by
    intro hout
    obtain ⟨a, hedge⟩ := hout.exists_edge
    exact hb a (Or.inl hedge)
  rw [hsteps.bit_of_not_target howns hwired htarget, bit_tickGates_of_not_output hout]

theorem Steps.bit_output (howns : sim.Owns s) (hwired : sim.Wired) (hset : sim.Settleable)
    (hsteps : sim.Steps s s') {k : GateKind} {block : Block}
    (hblock : block ∈ sim.blocks (.gates k))
    {i : Nat} (hi : i < 64) :
    s'.bit ⟨block.base + k.inputs, i⟩ = k.bit fun lane => s.bit ⟨block.base + lane, i⟩ := by
  have hout : sim.GateOutput ⟨block.base + k.inputs, i⟩ := ⟨k, block, hblock, i, hi, rfl⟩
  rw [hsteps.bit_of_not_target howns hwired fun htarget => hset.apart _ htarget hout,
    bit_tickGates_output howns hblock hi]

/-- The target of a socket receives the value that the source has after the step or, if the source
is a target itself, perhaps the value that it had before. -/
theorem Steps.bit_target (howns : sim.Owns s) (hwired : sim.Wired) (hset : sim.Settleable)
    (hsteps : sim.Steps s s') {a b : Bit} (hedge : sim.SocketEdge a b) :
    s'.bit b = s'.bit a ∨ (sim.SocketTarget a ∧ s'.bit b = s.bit a) := by
  obtain ⟨w, hw, j, ha, hb⟩ := hedge
  obtain ⟨before, after, hsplit⟩ := List.append_of_mem hw
  have hgates := howns.of_sameCells (sim.sameCells_tickGates s)
  have hlive := hgates.isLive_ends hwired
  rw [hsplit] at hlive
  obtain ⟨mid, s₃, hpasses⟩ := Socket.exists_passes hlive
  have hall : sim.sockets.tick (sim.tickGates s) = .done s₃ := by
    rw [SocketRegistry.tick, hsplit, hpasses.done]
  obtain rfl : s₃ = s' := congrArg Attempt.state (hall.symm.trans hsteps)
  have hsingle := hset.single
  rw [hsplit, List.pairwise_append, List.pairwise_cons] at hsingle
  obtain ⟨-, ⟨hlater, -⟩, hearlier⟩ := hsingle
  have hkeep : s₃.bit b = mid.bit a :=
    hpasses.copied ha hb fun w' hw' => hlater w' hw' b ⟨j, hb⟩
  by_cases hagain : ∃ w' ∈ w :: after, w'.target.Covers a
  · -- The source is written at this socket or later, hence not earlier.
    obtain ⟨w', hw', hcovers⟩ := hagain
    have hmem : w' ∈ sim.sockets.sockets := hsplit ▸ List.mem_append_right _ hw'
    have hsourceTarget : sim.SocketTarget a := socketTarget_of_covers hwired hmem hcovers
    refine Or.inr ⟨hsourceTarget, ?_⟩
    rw [hkeep, hpasses.early a fun w'' hw'' hcovers' => hearlier w'' hw'' w' hw' a hcovers' hcovers]
    exact bit_tickGates_of_not_output (hset.apart a hsourceTarget)
  · exact Or.inl (hkeep.trans
      (hpasses.late a fun w' hw' hcovers => hagain ⟨w', hw', hcovers⟩).symm)

end Step

/-! ## Many steps -/

section Run

variable {sim : Simulator} {σ : Nat → Store}

/-- A bit no longer changes once as many steps have been taken as there are sockets on any path into
it; the output of a gate needs one step more. -/
theorem bit_stable (howns : ∀ t, sim.Owns (σ t)) (hwired : sim.Wired) (hset : sim.Settleable)
    (hsteps : ∀ t, sim.Steps (σ t) (σ (t + 1))) (b : Bit) :
    ∀ n, (∀ k, sim.SocketPath k b → k ≤ n) → ∀ t, n ≤ t → (sim.GateOutput b → n < t) →
      (σ (t + 1)).bit b = (σ t).bit b := by
  -- Induction along the graph: a bit follows the bits that drive it.
  induction b using (wellFounded_drives hwired hset.acyclic).induction with
  | _ b ih =>
    intro n hn t ht hlate
    by_cases hout : sim.GateOutput b
    · have hlt := hlate hout
      obtain ⟨t, rfl⟩ : ∃ t', t = t' + 1 := ⟨t - 1, by omega⟩
      obtain ⟨k, block, hblock, i, hi, rfl⟩ := hout
      rw [(hsteps (t + 1)).bit_output (howns _) hwired hset hblock hi,
        (hsteps t).bit_output (howns _) hwired hset hblock hi]
      congr 1
      funext lane
      have hedge : sim.GateEdge ⟨block.base + lane, i⟩ ⟨block.base + k.inputs, i⟩ :=
        ⟨k, block, hblock, lane, lane.isLt, i, hi, rfl, rfl⟩
      have hnot := hedge.not_gateOutput (howns t)
      exact ih _ (Or.inl hedge) n (fun m hm => hn m (.gate hm hedge)) t (by omega)
        fun hinput => absurd hinput hnot
    · by_cases htarget : sim.SocketTarget b
      · obtain ⟨a, hedge⟩ := htarget
        have hpos : 1 ≤ n := hn 1 (.socket (.start a) hedge)
        obtain ⟨t, rfl⟩ : ∃ t', t = t' + 1 := ⟨t - 1, by omega⟩
        have hbound : ∀ m, sim.SocketPath m a → m ≤ n - 1 := by
          intro m hm
          have hle := hn (m + 1) (.socket hm hedge)
          omega
        have hnow : (σ (t + 2)).bit a = (σ (t + 1)).bit a :=
          ih a (Or.inr hedge) (n - 1) hbound (t + 1) (by omega) fun _ => by omega
        have hbefore : sim.SocketTarget a → (σ (t + 1)).bit a = (σ t).bit a := by
          intro hsource
          exact ih a (Or.inr hedge) (n - 1) hbound t (by omega)
            fun hgate => absurd hgate (hset.apart a hsource)
        have hlast : (σ (t + 2)).bit b = (σ (t + 1)).bit a := by
          rcases (hsteps (t + 1)).bit_target (howns _) hwired hset hedge with h | ⟨-, h⟩
          · rw [h, hnow]
          · exact h
        have hfirst : (σ (t + 1)).bit b = (σ (t + 1)).bit a := by
          rcases (hsteps t).bit_target (howns _) hwired hset hedge with h | ⟨hsource, h⟩
          · exact h
          · rw [h, hbefore hsource]
        rw [hlast, hfirst]
      · apply (hsteps t).bit_undriven (howns t) hwired
        rintro a (hedge | hedge)
        · exact hout hedge.gateOutput
        · exact htarget ⟨a, hedge⟩

theorem bit_eq_of_stable {b : Bit} {n : Nat}
    (hstable : ∀ t, n ≤ t → (σ (t + 1)).bit b = (σ t).bit b) {t : Nat} (ht : n ≤ t) :
    (σ t).bit b = (σ n).bit b := by
  induction t, ht using Nat.le_induction with
  | base => rfl
  | succ t ht ih => rw [hstable t ht, ih]

/-- From the moment on at which the target of a socket may no longer change, it is as at any later
time. -/
theorem bit_target_eq (howns : ∀ t, sim.Owns (σ t)) (hwired : sim.Wired) (hset : sim.Settleable)
    (hsteps : ∀ t, sim.Steps (σ t) (σ (t + 1))) {b : Bit} {n : Nat}
    (hn : ∀ k, sim.SocketPath k b → k ≤ n) (hb : sim.SocketTarget b) {t u : Nat} (ht : n ≤ t)
    (hu : n ≤ u) : (σ t).bit b = (σ u).bit b := by
  have hrest : ∀ t, n ≤ t → (σ (t + 1)).bit b = (σ t).bit b := fun t ht =>
    bit_stable howns hwired hset hsteps b n hn t ht fun hout => absurd hout (hset.apart b hb)
  rw [bit_eq_of_stable hrest ht, bit_eq_of_stable hrest hu]

/-- One step later this is so for every bit. -/
theorem bit_eq_of_lt (howns : ∀ t, sim.Owns (σ t)) (hwired : sim.Wired) (hset : sim.Settleable)
    (hsteps : ∀ t, sim.Steps (σ t) (σ (t + 1))) {b : Bit} {n : Nat}
    (hn : ∀ k, sim.SocketPath k b → k ≤ n) {t u : Nat} (ht : n < t) (hu : n < u) :
    (σ t).bit b = (σ u).bit b := by
  have hrest : ∀ t, n + 1 ≤ t → (σ (t + 1)).bit b = (σ t).bit b := fun t ht =>
    bit_stable howns hwired hset hsteps b n hn t (Nat.le_of_succ_le ht) fun _ => ht
  rw [bit_eq_of_stable hrest ht, bit_eq_of_stable hrest hu]

theorem bit_undriven_eq (howns : ∀ t, sim.Owns (σ t)) (hwired : sim.Wired)
    (hsteps : ∀ t, sim.Steps (σ t) (σ (t + 1))) {b : Bit} (hb : ∀ a, ¬ sim.Drives a b) (t : Nat) :
    (σ t).bit b = (σ 0).bit b :=
  bit_eq_of_stable (fun t _ => (hsteps t).bit_undriven (howns t) hwired hb) (Nat.zero_le t)

/-- The state reached once every path has been followed agrees with all gates and sockets. -/
theorem combinational_of_run (howns : ∀ t, sim.Owns (σ t)) (hwired : sim.Wired)
    (hset : sim.Settleable) (hsteps : ∀ t, sim.Steps (σ t) (σ (t + 1))) {n : Nat}
    (hn : ∀ k b, sim.SocketPath k b → k ≤ n) : sim.Combinational (σ 0) (σ (n + 1)).bit := by
  have hstable : ∀ b, ¬ sim.GateOutput b → (σ (n + 1)).bit b = (σ n).bit b := by
    intro b hb
    exact bit_stable howns hwired hset hsteps b n (fun k hk => hn k b hk) n (Nat.le_refl n)
      fun hout => absurd hout hb
  refine ⟨?_, ?_, ?_⟩
  · intro b hb
    exact bit_undriven_eq howns hwired hsteps hb (n + 1)
  · intro k block hblock i hi
    rw [(hsteps n).bit_output (howns n) hwired hset hblock hi]
    congr 1
    funext lane
    have hedge : sim.GateEdge ⟨block.base + lane, i⟩ ⟨block.base + k.inputs, i⟩ :=
      ⟨k, block, hblock, lane, lane.isLt, i, hi, rfl, rfl⟩
    exact (hstable _ (hedge.not_gateOutput (howns n))).symm
  · intro a b hedge
    rcases (hsteps n).bit_target (howns n) hwired hset hedge with h | ⟨hsource, h⟩
    · exact h
    · rw [h, hstable a (hset.apart a hsource)]

end Run

/-! ## Another order of registration -/

section Reordered

variable {sim : Simulator} {ws : List Socket}

theorem gateEdge_withSockets : (sim.withSockets ws).GateEdge = sim.GateEdge := by
  funext a b
  simp only [GateEdge, blocks_withSockets]

theorem gateOutput_withSockets : (sim.withSockets ws).GateOutput = sim.GateOutput := by
  funext b
  simp only [GateOutput, blocks_withSockets]

theorem socketEdge_withSockets (hperm : ws.Perm sim.sockets.sockets) :
    (sim.withSockets ws).SocketEdge = sim.SocketEdge := by
  funext a b
  simp only [SocketEdge, withSockets, hperm.mem_iff]

theorem drives_withSockets (hperm : ws.Perm sim.sockets.sockets) :
    (sim.withSockets ws).Drives = sim.Drives := by
  funext a b
  rw [Drives, Drives, gateEdge_withSockets, socketEdge_withSockets hperm]

theorem wired_withSockets (hperm : ws.Perm sim.sockets.sockets) (hwired : sim.Wired) :
    (sim.withSockets ws).Wired :=
  fun w hw => hwired w (hperm.mem_iff.1 hw)

theorem settleable_withSockets (hperm : ws.Perm sim.sockets.sockets) (hset : sim.Settleable) :
    (sim.withSockets ws).Settleable := by
  refine ⟨?_, ?_, ?_⟩
  · rw [drives_withSockets hperm]
    exact hset.acyclic
  · have hsymm : ∀ {w w' : Socket}, (∀ b, w.target.Covers b → ¬ w'.target.Covers b) →
        ∀ b, w'.target.Covers b → ¬ w.target.Covers b :=
      fun h b hb' hb => h b hb hb'
    exact (hperm.pairwise_iff hsymm).2 hset.single
  · rw [gateOutput_withSockets]
    unfold SocketTarget
    rw [socketEdge_withSockets hperm]
    exact hset.apart

theorem combinational_withSockets (hperm : ws.Perm sim.sockets.sockets) {s : Store}
    {v : Bit → Bool} (h : (sim.withSockets ws).Combinational s v) : sim.Combinational s v := by
  refine ⟨?_, ?_, ?_⟩
  · rw [← drives_withSockets hperm]
    exact h.undriven
  · intro k block hblock
    exact h.gate k block (by rwa [blocks_withSockets])
  · rw [← socketEdge_withSockets hperm]
    exact h.socket

theorem socketPath_withSockets (hperm : ws.Perm sim.sockets.sockets) {n : Nat} {b : Bit}
    (h : (sim.withSockets ws).SocketPath n b) : sim.SocketPath n b := by
  induction h with
  | start b => exact .start b
  | gate _ hedge ih => exact .gate ih (gateEdge_withSockets ▸ hedge)
  | socket _ hedge ih => exact .socket ih (socketEdge_withSockets hperm ▸ hedge)

end Reordered

end Simulator

namespace Machine

theorem stores_of_wired {m : Machine} (howns : m.sim.Owns m.store) (hwired : m.sim.Wired) :
    (∀ t, m.sim.Owns (m.after t).store) ∧
      ∀ t, m.sim.Steps (m.after t).store (m.after (t + 1)).store := by
  refine ⟨fun t => (run_of_wired howns hwired t).2.2.1, ?_⟩
  intro t
  obtain ⟨-, ⟨stats, hsim⟩, -, -, hticked⟩ := run_of_wired howns hwired t
  have hphases := hticked.phases
  rw [hsim] at hphases
  exact hphases

theorem sameCells_after {m : Machine} (howns : m.sim.Owns m.store) (hwired : m.sim.Wired)
    (t : Nat) : (m.after t).store.SameCells m.store := by
  induction t with
  | zero => exact Store.SameCells.refl m.store
  | succ t ih => exact (run_of_wired howns hwired t).2.2.2.2.cells.trans ih

/-- The machine with its sockets registered in another order. -/
def reordered (m : Machine) (ws : List Socket) : Machine := { m with sim := m.sim.withSockets ws }

/-- Once every path has been followed, a step leaves the store as it is. -/
theorem store_at_rest {m : Machine} (howns : m.sim.Owns m.store) (hwired : m.sim.Wired)
    (hset : m.sim.Settleable) {n : Nat} (hn : ∀ k b, m.sim.SocketPath k b → k ≤ n) {t : Nat}
    (ht : n + 1 ≤ t) :
    (m.after t).tick.state.store = (m.after t).store ∧
      (m.after t).store = (m.after (n + 1)).store := by
  obtain ⟨hall, hsteps⟩ := stores_of_wired howns hwired
  have hsame : ∀ {t u}, n < t → n < u → (m.after t).store = (m.after u).store := by
    intro t u ht hu
    have hcells := sameCells_after howns hwired
    refine Store.ext_bit ((hcells t).trans (hcells u).symm) ?_
    intro b
    exact Simulator.bit_eq_of_lt hall hwired hset hsteps (fun k hk => hn k b hk) ht hu
  refine ⟨?_, hsame ht (Nat.lt_succ_self n)⟩
  rw [(run_of_wired howns hwired t).2.2.2.1]
  exact hsame (Nat.lt_succ_of_lt ht) ht

/-- The order of the sockets has no part in the state of rest. -/
theorem store_at_rest_reordered {m : Machine} (howns : m.sim.Owns m.store)
    (hwired : m.sim.Wired) (hset : m.sim.Settleable) {n : Nat}
    (hn : ∀ k b, m.sim.SocketPath k b → k ≤ n) {ws : List Socket}
    (hperm : ws.Perm m.sim.sockets.sockets) :
    ((m.reordered ws).after (n + 1)).store = (m.after (n + 1)).store := by
  obtain ⟨hall, hsteps⟩ := stores_of_wired howns hwired
  have howns' : (m.reordered ws).sim.Owns (m.reordered ws).store := ⟨howns.live, howns.apart⟩
  have hwired' : (m.reordered ws).sim.Wired := Simulator.wired_withSockets hperm hwired
  obtain ⟨hall', hsteps'⟩ := stores_of_wired howns' hwired'
  have hcomb := Simulator.combinational_of_run hall hwired hset hsteps hn
  have hcomb' := Simulator.combinational_of_run hall' hwired'
    (Simulator.settleable_withSockets hperm hset) hsteps'
    fun k b hk => hn k b (Simulator.socketPath_withSockets hperm hk)
  have hbits := (Simulator.combinational_withSockets hperm hcomb').unique
    (Simulator.wellFounded_drives hwired hset.acyclic) hcomb
  have hcells := sameCells_after howns' hwired' (n + 1)
  have hcells' := sameCells_after howns hwired (n + 1)
  exact Store.ext_bit (hcells.trans hcells'.symm) (congrFun hbits)

/-- From any state, a machine with a settleable graph of bits takes all its steps, and there is
exactly one valuation that agrees with its gates, its sockets and its undriven bits.  The target
of a socket has its value from the `n`-th step on, where `n` is the largest number of sockets on a
path into it, and the output of a gate from the next step on.  One step after the longest path of
all the store no longer changes, and it is the same store for every order of the sockets. -/
theorem settles {m : Machine} (howns : m.sim.Owns m.store) (hwired : m.sim.Wired)
    (hset : m.sim.Settleable) :
    (∀ t, (m.run t).fault? = none) ∧
    ∃ v, (m.sim.Combinational m.store v ∧ ∀ u, m.sim.Combinational m.store u → u = v) ∧
      (∀ b, ∃ n, IsGreatest {k | m.sim.SocketPath k b} n ∧
        (m.sim.SocketTarget b → ∀ t, n ≤ t → (m.after t).store.bit b = v b) ∧
        (m.sim.GateOutput b → ∀ t, n + 1 ≤ t → (m.after t).store.bit b = v b)) ∧
      ∃ n, IsGreatest {k | ∃ b, m.sim.SocketPath k b} n ∧
        (∀ t, n + 1 ≤ t → (m.after t).tick.state.store = (m.after t).store ∧
          (m.after t).store = (m.after (n + 1)).store) ∧
        (∀ b, (m.after (n + 1)).store.bit b = v b) ∧
        ∀ ws, ws.Perm m.sim.sockets.sockets →
          ((m.reordered ws).after (n + 1)).store = (m.after (n + 1)).store := by
  have hwf := Simulator.wellFounded_drives hwired hset.acyclic
  obtain ⟨hall, hsteps⟩ := stores_of_wired howns hwired
  obtain ⟨n, hn⟩ := Simulator.exists_longest hwired hwf
  have hpaths : ∀ k b, m.sim.SocketPath k b → k ≤ n := fun k b hk => hn.2 ⟨b, hk⟩
  have hcomb : m.sim.Combinational m.store (m.after (n + 1)).store.bit :=
    Simulator.combinational_of_run hall hwired hset hsteps hpaths
  refine ⟨fun t => by rw [(run_of_wired howns hwired t).1]; rfl, (m.after (n + 1)).store.bit,
    ⟨hcomb, fun u hu => hu.unique hwf hcomb⟩, ?_, n, hn, ?_, fun _ => rfl, ?_⟩
  · intro b
    obtain ⟨d, hd⟩ := Simulator.exists_longest_of_bit hwired hwf b
    have hle : d ≤ n := hpaths d b hd.1
    have hdepth : ∀ k, m.sim.SocketPath k b → k ≤ d := fun k hk => hd.2 hk
    refine ⟨d, hd, ?_, ?_⟩
    · intro htarget t ht
      exact Simulator.bit_target_eq hall hwired hset hsteps hdepth htarget ht
        (Nat.le_succ_of_le hle)
    · intro _ t ht
      exact Simulator.bit_eq_of_lt hall hwired hset hsteps hdepth ht (Nat.lt_succ_of_le hle)
  · intro t ht
    exact store_at_rest howns hwired hset hpaths ht
  · intro ws hperm
    exact store_at_rest_reordered howns hwired hset hpaths hperm

/-- An AND gate, a bus of one bit and an inverter in a row; the later socket is registered first. -/
def relay : Machine where
  sim :=
    { andGates := ⟨⟨[⟨0, 1, one_le_cellBits⟩]⟩⟩
      notGates := ⟨⟨[⟨4, 1, one_le_cellBits⟩]⟩⟩
      bus := ⟨[⟨3, 1, one_le_cellBits⟩]⟩
      sockets := ⟨[
        ⟨⟨⟨0, 1, one_le_cellBits⟩, .ofCell 3⟩, ⟨⟨0, 1, one_le_cellBits⟩, .ofCell 4⟩, rfl⟩,
        ⟨⟨⟨0, 1, one_le_cellBits⟩, .ofCell 2⟩, ⟨⟨0, 1, one_le_cellBits⟩, .ofCell 3⟩, rfl⟩]⟩ }
  store := ⟨#[some 1, some 1, some 0, some 0, some 0, some 0]⟩

theorem settleable_relay : relay.sim.Settleable := by
  have hsockets : ∀ w ∈ relay.sim.sockets.sockets,
      (w.source.ref = .ofCell 3 ∧ w.target.ref = .ofCell 4) ∨
        (w.source.ref = .ofCell 2 ∧ w.target.ref = .ofCell 3) := by decide
  have hcell : ∀ {f : Field} {c j : Nat} {b : Bit}, f.ref = .ofCell c → f.bit? j = some b →
      b.cell = c := by
    intro f c j b href hb
    have h := (Field.bit?_eq_some_iff.1 hb).2.1
    rw [href] at h
    exact (Option.some.inj h).symm
  refine ⟨Simulator.acyclic_of_rank Bit.cell ?_, ?_, ?_⟩
  · rintro a b (⟨k, block, -, lane, hlane, i, -, rfl, rfl⟩ | ⟨w, hw, j, ha, hb⟩)
    · exact Nat.add_lt_add_left hlane block.base
    · rcases hsockets w hw with ⟨hs, ht⟩ | ⟨hs, ht⟩
      · rw [hcell hs ha, hcell ht hb]
        decide
      · rw [hcell hs ha, hcell ht hb]
        decide
  · refine List.Pairwise.cons ?_ (List.pairwise_singleton _ _)
    rintro w' hw' b ⟨j, hj⟩ ⟨j', hj'⟩
    obtain rfl := List.mem_singleton.1 hw'
    have h₁ : b.cell = 4 := hcell rfl hj
    have h₂ : b.cell = 3 := hcell rfl hj'
    omega
  · rintro b ⟨a, w, hw, j, -, hb⟩ ⟨k, block, hblock, i, -, rfl⟩
    have hout : block.base + k.inputs = 2 ∨ block.base + k.inputs = 5 := by
      cases k with
      | and => exact Or.inl (by rw [List.mem_singleton.1 hblock]; rfl)
      | not => exact Or.inr (by rw [List.mem_singleton.1 hblock]; rfl)
      | or => cases hblock
      | xor => cases hblock
    have htarget : block.base + k.inputs = 4 ∨ block.base + k.inputs = 3 := by
      rcases hsockets w hw with ⟨-, ht⟩ | ⟨-, ht⟩
      · exact Or.inl (hcell ht hb)
      · exact Or.inr (hcell ht hb)
    omega

/-- The relay comes to rest. -/
theorem settles_relay :
    relay.sim.Owns relay.store ∧ relay.sim.Wired ∧ relay.sim.Settleable ∧
      ∃ v, relay.sim.Combinational relay.store v ∧
        ∃ n, ∀ b, (relay.after (n + 1)).store.bit b = v b := by
  have howns : relay.sim.Owns relay.store := ⟨by decide, by decide⟩
  have hwired : relay.sim.Wired := by
    unfold Simulator.Wired Simulator.Holds
    decide
  obtain ⟨-, v, ⟨hv, -⟩, -, n, -, -, hrest, -⟩ := settles howns hwired settleable_relay
  exact ⟨howns, hwired, settleable_relay, v, hv, n, hrest⟩

end Machine

end PackedLogic
