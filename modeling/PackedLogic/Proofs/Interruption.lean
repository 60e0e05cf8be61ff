import PackedLogic.Proofs.Step
set_option autoImplicit false

/-!
# Steps that fail

A step fails at the first socket with an end that has no cell, and what it did before stays done
(`Machine.tick_of_dangles`).  No step creates or releases a cell, so the sockets that dangle after
a step are those that dangled before it, and a run fails in its first step or not at all
(`Machine.run_of_live`, `Machine.run_of_dangles`).
-/

namespace PackedLogic

namespace Socket

/-- An end of the socket has no cell: it has been released, or there never was one.  It does not
matter how many bits the socket copies. -/
def Dangles (w : Socket) (s : Store) : Prop :=
  w.source.isLive s = false ∨ w.target.isLive s = false

instance (w : Socket) (s : Store) : Decidable (w.Dangles s) :=
  inferInstanceAs (Decidable (_ ∨ _))

variable {w : Socket} {ws : List Socket} {s s' : Store}

theorem not_dangles_iff :
    ¬ w.Dangles s ↔ w.source.isLive s = true ∧ w.target.isLive s = true := by
  rw [Dangles, not_or, Bool.not_eq_false, Bool.not_eq_false]

theorem dangles_of_sameCells (h : s'.SameCells s) : w.Dangles s' ↔ w.Dangles s := by
  rw [Dangles, Dangles, Field.isLive_of_sameCells h, Field.isLive_of_sameCells h]

theorem not_dangles_of_sameCells (h : s'.SameCells s) (hlive : ∀ w ∈ ws, ¬ w.Dangles s) :
    ∀ w ∈ ws, ¬ w.Dangles s' :=
  fun w hw hdangles => hlive w hw ((dangles_of_sameCells h).1 hdangles)

/-- A socket that dangles is refused, whichever of its ends has no cell, and nothing is written. -/
theorem tick_of_dangles (h : w.Dangles s) : w.tick s = .failed s .danglingReference := by
  cases hsource : w.source.isLive s with
  | false => rw [tick, Field.get_eq, Field.value?_eq_none_of_not_isLive hsource]
  | true =>
    have htarget : w.target.isLive s = false := h.resolve_left (by simp [hsource])
    obtain ⟨v, hvalue, -⟩ := Field.value?_eq_of_isLive hsource
    rw [tick, Field.get_eq, hvalue]
    exact Field.edit_of_not_isLive _ htarget

/-- Of sockets one of which dangles, there is a first that does. -/
theorem exists_first_dangles (h : ∃ w ∈ ws, w.Dangles s) :
    ∃ before w after, ws = before ++ w :: after ∧ (∀ v ∈ before, ¬ v.Dangles s) ∧ w.Dangles s := by
  cases hfind : ws.find? fun w => decide (w.Dangles s) with
  | none =>
    obtain ⟨w, hw, hdangles⟩ := h
    exact absurd (decide_eq_true hdangles) (List.find?_eq_none.1 hfind w hw)
  | some w =>
    obtain ⟨hw, before, after, hsplit, hbefore⟩ := List.find?_eq_some_iff_append.1 hfind
    refine ⟨before, w, after, hsplit, ?_, of_decide_eq_true hw⟩
    intro v hv
    simpa using hbefore v hv

/-- Sockets that do not dangle are all applied, and a cell that none of them copies into keeps its
word. -/
theorem each_tick_of_not_dangles (h : ∀ w ∈ ws, ¬ w.Dangles s) :
    ∃ s', Attempt.each tick ws s = .done s' ∧ s'.SameCells s ∧
      ∀ c, (∀ w ∈ ws, w.target.ref.cell? ≠ some c) → s'.word? c = s.word? c := by
  obtain ⟨s', heach, hcells, houtside⟩ :=
    each_tick_of_isLive fun w hw => not_dangles_iff.1 (h w hw)
  refine ⟨s', heach, hcells, ?_⟩
  intro c hc
  refine Store.word?_eq_of_bit_eq hcells fun i _ => houtside ⟨c, i⟩ ?_
  intro w hw hcovers
  exact hc w hw (Field.covers_iff.1 hcovers).1

end Socket

namespace Machine

variable {m m' : Machine}

/-! ## One step -/

/-- All gates are evaluated and then the sockets are applied in order, which leads to the store.  Cells
that are neither outputs of gates nor targets of these sockets hold what they held. -/
structure Applies (m : Machine) (ws : List Socket) (s' : Store) : Prop where
  applied : Attempt.each Socket.tick ws (m.sim.tickGates m.store) = .done s'
  cells : s'.SameCells m.store
  others : ∀ c, (∀ k, ∀ block ∈ m.sim.blocks (.gates k), c ≠ block.base + k.inputs) →
    (∀ w ∈ ws, w.target.ref.cell? ≠ some c) → s'.word? c = m.store.word? c

theorem exists_applies {ws : List Socket} (h : ∀ w ∈ ws, ¬ w.Dangles m.store) :
    ∃ s', m.Applies ws s' := by
  have hgates := m.sim.sameCells_tickGates m.store
  obtain ⟨s', heach, hcells, hothers⟩ :=
    Socket.each_tick_of_not_dangles (Socket.not_dangles_of_sameCells hgates h)
  refine ⟨s', heach, hcells.trans hgates, ?_⟩
  intro c houtput htarget
  rw [hothers c htarget]
  refine Store.word?_eq_of_bit_eq hgates fun i _ => Simulator.bit_tickGates_of_not_output ?_
  rintro ⟨k, block, hblock, i', -, heq⟩
  exact houtput k block hblock (congrArg Bit.cell heq)

/-- Where a step ends that fails: the sockets ahead of the first that dangles are applied, and but
for its cells the machine is as it was. -/
structure Halts (m m' : Machine) : Prop where
  first : ∃ before w after, m.sim.sockets.sockets = before ++ w :: after ∧
    (∀ v ∈ before, ¬ v.Dangles m.store) ∧ w.Dangles m.store ∧ m.Applies before m'.store
  sim : m'.sim = m.sim
  log : m'.log = m.log

/-- Where a step ends that is completed: all sockets are applied, and the step is counted, with the
blocks of all pools and the sockets. -/
structure Completes (m m' : Machine) : Prop where
  applies : m.Applies m.sim.sockets.sockets m'.store
  sim : m'.sim = { m.sim with
    stats :=
      { steps := m.sim.stats.steps + 1
        gateEvaluations := m.sim.stats.gateEvaluations +
          (m.sim.andGates.bank.blocks.length + m.sim.notGates.bank.blocks.length +
            m.sim.orGates.bank.blocks.length + m.sim.xorGates.bank.blocks.length)
        socketTransfers := m.sim.stats.socketTransfers + m.sim.sockets.sockets.length } }

theorem tick_of_dangles (h : ∃ w ∈ m.sim.sockets.sockets, w.Dangles m.store) :
    ∃ m', m.tick = .failed m' .danglingReference ∧ m.Halts m' := by
  obtain ⟨before, w, after, hsplit, hbefore, hw⟩ := Socket.exists_first_dangles h
  obtain ⟨s', happlies⟩ := exists_applies hbefore
  have hphase : m.sim.sockets.tick (m.sim.tickGates m.store) = .failed s' .danglingReference := by
    have hw' := (Socket.dangles_of_sameCells happlies.cells).2 hw
    rw [SocketRegistry.tick, hsplit, Attempt.each_append, happlies.applied, Attempt.done_andThen,
      Attempt.each_cons, Socket.tick_of_dangles hw', Attempt.failed_andThen]
  refine ⟨{ m with store := s' }, ?_, ⟨before, w, after, hsplit, hbefore, hw, happlies⟩, rfl, rfl⟩
  simp only [tick, hphase, Attempt.failed]

theorem tick_of_live (h : ∀ w ∈ m.sim.sockets.sockets, ¬ w.Dangles m.store) :
    ∃ m', m.tick = .done m' ∧ m.Completes m' := by
  obtain ⟨s', happlies⟩ := exists_applies h
  have hphase : m.sim.sockets.tick (m.sim.tickGates m.store) = .done s' := happlies.applied
  have hblocks : m.sim.gateBlocks =
      m.sim.andGates.bank.blocks.length + m.sim.notGates.bank.blocks.length +
        m.sim.orGates.bank.blocks.length + m.sim.xorGates.bank.blocks.length := by
    simp [Simulator.gateBlocks, GateKind.all, Simulator.pool, Bank.blockCount, Nat.add_assoc]
  simp only [tick, hphase, Attempt.done, hblocks]
  refine ⟨_, rfl, ?_⟩
  split
  · exact ⟨happlies, rfl⟩
  · exact ⟨happlies, rfl⟩

/-! ## Many steps -/

/-- A number of steps that are completed, one after the other, lead from one machine to another. -/
inductive Advances : Nat → Machine → Machine → Prop
  | refl (m : Machine) : Advances 0 m m
  | step {n : Nat} {m m' m'' : Machine} (htick : m.tick = .done m') (hrest : Advances n m' m'') :
      Advances (n + 1) m m''

/-- A completed step leaves the sockets as they are, and all cells in existence. -/
theorem Completes.live (h : m.Completes m')
    (hlive : ∀ w ∈ m.sim.sockets.sockets, ¬ w.Dangles m.store) :
    ∀ w ∈ m'.sim.sockets.sockets, ¬ w.Dangles m'.store := by
  rw [h.sim]
  exact Socket.not_dangles_of_sameCells h.applies.cells hlive

theorem run_of_live (h : ∀ w ∈ m.sim.sockets.sockets, ¬ w.Dangles m.store) (n : Nat) :
    ∃ m', Advances n m m' ∧ m.run n = .done m' := by
  induction n generalizing m with
  | zero => exact ⟨m, .refl m, rfl⟩
  | succ n ih =>
    obtain ⟨m', htick, hcompletes⟩ := tick_of_live h
    obtain ⟨m'', hrest, hrun⟩ := ih (hcompletes.live h)
    refine ⟨m'', .step htick hrest, ?_⟩
    rw [run, Attempt.times_succ, htick, Attempt.done_andThen, ← run, hrun]

/-- A run that is to take a step at all ends with its first step if that fails. -/
theorem run_succ_of_dangles (h : ∃ w ∈ m.sim.sockets.sockets, w.Dangles m.store) (n : Nat) :
    m.run (n + 1) = m.tick := by
  obtain ⟨m', htick, -⟩ := tick_of_dangles h
  rw [run, Attempt.times_succ, htick, Attempt.failed_andThen]

/-- The outcome of `n` steps in a row: all of them are completed, or the first one fails. -/
inductive RunsTo (m : Machine) (n : Nat) (a : Attempt Machine) : Prop
  | through {m' : Machine} (hsteps : Advances n m m') (hdone : a = .done m')
  | halted (hpos : 0 < n) (hfault : m.tick.fault? = some .danglingReference) (hfirst : a = m.tick)

theorem runsTo_run (m : Machine) (n : Nat) : m.RunsTo n (m.run n) := by
  by_cases h : ∃ w ∈ m.sim.sockets.sockets, w.Dangles m.store
  · cases n with
    | zero => exact .through (.refl m) rfl
    | succ n =>
      obtain ⟨m', htick, -⟩ := tick_of_dangles h
      refine .halted n.succ_pos ?_ (run_succ_of_dangles h n)
      rw [htick]
      rfl
  · have hlive : ∀ w ∈ m.sim.sockets.sockets, ¬ w.Dangles m.store :=
      fun w hw hdangles => h ⟨w, hw, hdangles⟩
    obtain ⟨m', hsteps, hrun⟩ := run_of_live hlive n
    exact .through hsteps hrun

/-- A step fails exactly when a socket dangles, and then it is broken off at the first that does.
Otherwise it is counted.  A run is so many steps, and is broken off in the first of them or in
none. -/
theorem interrupted_at_once (m : Machine) :
    ((∃ f, m.tick.fault? = some f) ↔ ∃ w ∈ m.sim.sockets.sockets, w.Dangles m.store) ∧
      (∀ f, m.tick.fault? = some f → f = .danglingReference ∧ m.Halts m.tick.state) ∧
      (m.tick.fault? = none → m.Completes m.tick.state) ∧
      (∀ n, m.RunsTo n (m.run n)) ∧ m.RunsTo m.sim.config.settleSteps m.settle := by
  by_cases h : ∃ w ∈ m.sim.sockets.sockets, w.Dangles m.store
  · obtain ⟨m', htick, hhalts⟩ := tick_of_dangles h
    rw [htick]
    refine ⟨⟨fun _ => h, fun _ => ⟨_, rfl⟩⟩, ?_, nofun, m.runsTo_run, m.runsTo_run _⟩
    intro f hf
    exact ⟨(Option.some.inj hf).symm, hhalts⟩
  · have hlive : ∀ w ∈ m.sim.sockets.sockets, ¬ w.Dangles m.store :=
      fun w hw hdangles => h ⟨w, hw, hdangles⟩
    obtain ⟨m', htick, hcompletes⟩ := tick_of_live hlive
    rw [htick]
    refine ⟨⟨nofun, fun hdangles => absurd hdangles h⟩, nofun, fun _ => hcompletes, m.runsTo_run,
      m.runsTo_run _⟩

/-- A socket without bits between fields without cells stops every step. -/
example : ({ sim := { sockets := ⟨[⟨default, default, rfl⟩]⟩ } } : Machine).tick.fault? =
    some .danglingReference := rfl

end Machine

end PackedLogic
