import PackedLogic.Proofs.Ownership
set_option autoImplicit false

/-!
# One step, bit by bit

The gate phase of a step gives every output bit the function of its input bits, as they were
before the step, and changes no other bit (`Simulator.bit_tickGates_output`,
`Simulator.bit_tickGates_of_not_output`).  The socket phase of a simulator whose sockets join
fields of its own cells is always completed, so that such a machine takes every step
(`Machine.tick_of_wired`).
-/

namespace PackedLogic

/-! ## The gate phase -/

/-- Every gate but the inverter makes zero of zeros. -/
theorem GateKind.bit_false {k : GateKind} (h : k ≠ .not) : (k.bit fun _ => false) = false := by
  cases k with
  | not => exact absurd rfl h
  | and | or | xor => rfl

namespace GatePool

theorem sameCells_evaluate (k : GateKind) (s : Store) (block : Block) :
    (evaluate k s block).SameCells s :=
  Store.sameCells_modify _ _ _

theorem bit_evaluate_of_ne {k : GateKind} {s : Store} {block : Block} {b : Bit}
    (h : b.cell ≠ block.base + k.inputs) : (evaluate k s block).bit b = s.bit b := by
  rw [Store.bit, evaluate, Store.write, Store.read_modify_of_ne _ h, Store.bit]

/-- The evaluation of a block computes all its gates at once. -/
theorem bit_evaluate_output {k : GateKind} {s : Store} {block : Block} {i : Nat}
    (hlive : s.isLive (block.base + k.inputs) = true) (hi : i < 64) :
    (evaluate k s block).bit ⟨block.base + k.inputs, i⟩ =
      k.bit fun lane => s.bit ⟨block.base + lane, i⟩ := by
  rw [Store.bit, evaluate, Store.write, Store.read_modify_self _ hlive, k.getLsbD_output _ hi]
  rfl

theorem sameCells_tick {k : GateKind} (p : GatePool k) (s : Store) :
    (p.tick s).SameCells s := by
  unfold tick
  induction p.bank.blocks generalizing s with
  | nil => exact .refl s
  | cons block blocks ih => exact (ih _).trans (sameCells_evaluate k s block)

end GatePool

namespace Simulator

/-- The blocks of all gate pools with their kinds, in the order of evaluation. -/
def gateRows (sim : Simulator) : List (GateKind × Block) :=
  GateKind.all.flatMap fun k => (sim.blocks (.gates k)).map fun block => (k, block)

/-- Recomputes the outputs of some blocks, one after the other. -/
def evaluateRows (rows : List (GateKind × Block)) (s : Store) : Store :=
  rows.foldl (fun s row => GatePool.evaluate row.1 s row.2) s

theorem tickGates_eq (sim : Simulator) (s : Store) :
    sim.tickGates s = evaluateRows sim.gateRows s := by
  simp only [tickGates, evaluateRows, gateRows, List.foldl_flatMap, List.foldl_map]
  rfl

theorem mem_gateRows {sim : Simulator} {k : GateKind} {block : Block} :
    (k, block) ∈ sim.gateRows ↔ block ∈ sim.blocks (.gates k) := by
  simp only [gateRows, List.mem_flatMap, List.mem_map, Prod.mk.injEq]
  constructor
  · rintro ⟨k', -, block', hblock', rfl, rfl⟩
    exact hblock'
  · intro hblock
    exact ⟨k, GateKind.mem_all k, block, hblock, rfl, rfl⟩

/-- The cells of one block of a gate pool. -/
def rowCells (row : GateKind × Block) : List Nat := List.range' row.2.base row.1.arity

theorem cells_eq_gateRows (sim : Simulator) :
    sim.cells = sim.gateRows.flatMap rowCells ++ sim.bus.cells := by
  simp only [cells, gateRows, List.flatMap_assoc, List.flatMap_map]
  rfl

theorem sameCells_evaluateRows (rows : List (GateKind × Block)) (s : Store) :
    (evaluateRows rows s).SameCells s := by
  induction rows generalizing s with
  | nil => exact Store.SameCells.refl s
  | cons row rows ih =>
    exact (ih (GatePool.evaluate row.1 s row.2)).trans (GatePool.sameCells_evaluate _ _ _)

theorem bit_evaluateRows_of_ne {rows : List (GateKind × Block)} {s : Store} {b : Bit}
    (h : ∀ row ∈ rows, b.cell ≠ row.2.base + row.1.inputs) :
    (evaluateRows rows s).bit b = s.bit b := by
  induction rows generalizing s with
  | nil => rfl
  | cons row rows ih =>
    have hrest := ih (s := GatePool.evaluate row.1 s row.2)
      fun row' hrow' => h row' (List.mem_cons_of_mem row hrow')
    exact hrest.trans (GatePool.bit_evaluate_of_ne (h row List.mem_cons_self))

/-- If no two blocks share a cell, every output bit becomes the function of its input bits before. -/
theorem bit_evaluateRows_output {rows : List (GateKind × Block)} {s : Store}
    (hnodup : (rows.flatMap rowCells).Nodup) {k : GateKind} {block : Block}
    (hrow : (k, block) ∈ rows) (hlive : s.isLive (block.base + k.inputs) = true) {i : Nat}
    (hi : i < 64) :
    (evaluateRows rows s).bit ⟨block.base + k.inputs, i⟩ =
      k.bit fun lane => s.bit ⟨block.base + lane, i⟩ := by
  -- The rows before this one leave its inputs alone, and the rows after it leave its output alone.
  obtain ⟨before, after, rfl⟩ := List.append_of_mem hrow
  rw [List.flatMap_append, List.flatMap_cons] at hnodup
  obtain ⟨-, hrest, hbefore⟩ := List.nodup_append.1 hnodup
  obtain ⟨-, -, hafter⟩ := List.nodup_append.1 hrest
  have hown : ∀ lane, lane < k.arity → block.base + lane ∈ rowCells (k, block) :=
    fun lane hlane => List.mem_range'_1.2 ⟨Nat.le_add_right _ _, Nat.add_lt_add_left hlane _⟩
  have hout : ∀ row : GateKind × Block, row.2.base + row.1.inputs ∈ rowCells row :=
    fun row => List.mem_range'_1.2 ⟨Nat.le_add_right _ _, Nat.lt_succ_self _⟩
  have hlive' : (evaluateRows before s).isLive (block.base + k.inputs) = true := by
    rw [(sameCells_evaluateRows before s).live, hlive]
  have hinputs : ∀ lane : Fin k.inputs,
      (evaluateRows before s).bit ⟨block.base + lane, i⟩ = s.bit ⟨block.base + lane, i⟩ := by
    intro lane
    apply bit_evaluateRows_of_ne
    intro row hbrow heq
    exact hbefore _ (List.mem_flatMap.2 ⟨row, hbrow, hout row⟩) _
      (List.mem_append_left _ (hown lane (Nat.lt_succ_of_lt lane.isLt))) heq.symm
  unfold evaluateRows at hlive' hinputs ⊢
  rw [List.foldl_append, List.foldl_cons]
  refine (bit_evaluateRows_of_ne ?_).trans
    ((GatePool.bit_evaluate_output hlive' hi).trans (congrArg k.bit (funext hinputs)))
  intro row harow heq
  exact hafter _ (hown _ (Nat.lt_succ_self _)) _ (List.mem_flatMap.2 ⟨row, harow, hout row⟩) heq

theorem sameCells_tickGates (sim : Simulator) (s : Store) : (sim.tickGates s).SameCells s := by
  rw [tickGates_eq]
  exact sameCells_evaluateRows _ _

/-- The bit lies in the output lane of a block of gates. -/
def GateOutput (sim : Simulator) (b : Bit) : Prop :=
  ∃ k, ∃ block ∈ sim.blocks (.gates k), ∃ i < 64, b = ⟨block.base + k.inputs, i⟩

/-- Lanes of inputs are no output lanes. -/
theorem Owns.not_gateOutput_of_ne {sim : Simulator} {s : Store} (howns : sim.Owns s)
    {k : GateKind} {block : Block} (hblock : block ∈ sim.blocks (.gates k)) {lane : Nat}
    (hlane : lane < k.arity) (hne : lane ≠ k.inputs) (i : Nat) :
    ¬ sim.GateOutput ⟨block.base + lane, i⟩ := by
  rintro ⟨k', block', hblock', i', -, heq⟩
  obtain ⟨hpart, -, hlanes⟩ := howns.unique hblock hlane hblock' (Nat.lt_succ_self _)
    (congrArg Bit.cell heq)
  cases hpart
  exact hne hlanes

/-- The bus has no output lanes. -/
theorem Owns.not_gateOutput_bus {sim : Simulator} {s : Store} (howns : sim.Owns s) {block : Block}
    (hblock : block ∈ sim.blocks .bus) (i : Nat) : ¬ sim.GateOutput ⟨block.base, i⟩ := by
  rintro ⟨k, block', hblock', i', -, heq⟩
  have hcells : block.base + 0 = block'.base + k.inputs := congrArg Bit.cell heq
  obtain ⟨hpart, -⟩ := howns.unique hblock Nat.one_pos hblock' (Nat.lt_succ_self _) hcells
  cases hpart

/-- The gate phase changes output lanes only. -/
theorem bit_tickGates_of_not_output {sim : Simulator} {s : Store} {b : Bit}
    (h : ¬ sim.GateOutput b) : (sim.tickGates s).bit b = s.bit b := by
  rcases Nat.lt_or_ge b.index 64 with hlt | hge
  · rw [tickGates_eq]
    apply bit_evaluateRows_of_ne
    rintro ⟨k, block⟩ hrow hcell
    exact h ⟨k, block, mem_gateRows.1 hrow, b.index, hlt, by rw [← hcell]⟩
  · rw [Store.bit_of_ge hge, Store.bit_of_ge hge]

/-- After the gate phase every output bit is the function of its input bits before. -/
theorem bit_tickGates_output {sim : Simulator} {s : Store} (howns : sim.Owns s) {k : GateKind}
    {block : Block} (hblock : block ∈ sim.blocks (.gates k)) {i : Nat} (hi : i < 64) :
    (sim.tickGates s).bit ⟨block.base + k.inputs, i⟩ =
      k.bit fun lane => s.bit ⟨block.base + lane, i⟩ := by
  have hnodup := howns.apart
  rw [cells_eq_gateRows] at hnodup
  rw [tickGates_eq]
  exact bit_evaluateRows_output (List.nodup_append.1 hnodup).1 (mem_gateRows.2 hblock)
    (howns.live _ (cell_mem hblock (Nat.lt_succ_self _))) hi

end Simulator

/-! ## The socket phase -/

/-- Sockets between live fields are all applied, and only their targets change. -/
theorem Socket.each_tick_of_isLive {ws : List Socket} {s : Store}
    (h : ∀ w ∈ ws, w.source.isLive s = true ∧ w.target.isLive s = true) :
    ∃ s', Attempt.each Socket.tick ws s = .done s' ∧ s'.SameCells s ∧
      ∀ b, (∀ w ∈ ws, ¬ w.target.Covers b) → s'.bit b = s.bit b := by
  induction ws generalizing s with
  | nil => exact ⟨s, rfl, Store.SameCells.refl s, fun _ _ => rfl⟩
  | cons w ws ih =>
    obtain ⟨hsource, htarget⟩ := h w List.mem_cons_self
    obtain ⟨s₁, htick, hcopied⟩ := Socket.tick_of_isLive hsource htarget
    obtain ⟨s', heach, hcells, houtside⟩ := ih (s := s₁) fun w' hw' => by
      rw [Field.isLive_of_sameCells hcopied.cells, Field.isLive_of_sameCells hcopied.cells]
      exact h w' (List.mem_cons_of_mem w hw')
    refine ⟨s', ?_, hcells.trans hcopied.cells, ?_⟩
    · rw [Attempt.each_cons, htick, Attempt.done_andThen, heach]
    · intro b hb
      rw [houtside b fun w' hw' => hb w' (List.mem_cons_of_mem w hw'),
        hcopied.outside (hb w List.mem_cons_self)]

/-- Sockets with one among them lead from `s` to `s'`, and `mid` is what those before the one leave: a
bit that is not written before it, or not from it on, is as in `mid`, and so is what it copies. -/
structure Socket.Passes (before : List Socket) (w : Socket) (after : List Socket)
    (s mid s' : Store) : Prop where
  done : Attempt.each Socket.tick (before ++ w :: after) s = .done s'
  cells : s'.SameCells s
  early : ∀ b, (∀ v ∈ before, ¬ v.target.Covers b) → mid.bit b = s.bit b
  copied : ∀ {j : Nat} {a b : Bit}, w.source.bit? j = some a → w.target.bit? j = some b →
    (∀ v ∈ after, ¬ v.target.Covers b) → s'.bit b = mid.bit a
  late : ∀ b, (∀ v ∈ w :: after, ¬ v.target.Covers b) → s'.bit b = mid.bit b

theorem Socket.exists_passes {before after : List Socket} {w : Socket} {s : Store}
    (h : ∀ v ∈ before ++ w :: after, v.source.isLive s = true ∧ v.target.isLive s = true) :
    ∃ mid s', Passes before w after s mid s' := by
  have hends : ∀ {t : Store}, t.SameCells s → ∀ v ∈ w :: after,
      v.source.isLive t = true ∧ v.target.isLive t = true := by
    intro t hcells v hv
    rw [Field.isLive_of_sameCells hcells, Field.isLive_of_sameCells hcells]
    exact h v (List.mem_append_right _ hv)
  obtain ⟨mid, hbefore, hcells, hearly⟩ :=
    each_tick_of_isLive fun v hv => h v (List.mem_append_left _ hv)
  obtain ⟨hsource, htarget⟩ := hends hcells w List.mem_cons_self
  obtain ⟨next, htick, hcopied⟩ := tick_of_isLive hsource htarget
  obtain ⟨s', hafter, hcells', hlate⟩ := each_tick_of_isLive
    fun v hv => hends (hcopied.cells.trans hcells) v (List.mem_cons_of_mem w hv)
  refine ⟨mid, s', ?_, hcells'.trans (hcopied.cells.trans hcells), hearly, ?_, ?_⟩
  · rw [Attempt.each_append, hbefore, Attempt.done_andThen, Attempt.each_cons, htick,
      Attempt.done_andThen, hafter]
  · intro j a b ha hb hunwritten
    rw [hlate b hunwritten, hcopied.inside ha hb]
  · intro b hunwritten
    rw [hlate b fun v hv => hunwritten v (List.mem_cons_of_mem w hv),
      hcopied.outside (hunwritten w List.mem_cons_self)]

/-! ## The whole step -/

namespace Simulator

/-- The counters have no part in how the cells are laid out. -/
theorem blocks_withStats (sim : Simulator) (stats : Stats) (p : Part) :
    ({ sim with stats } : Simulator).blocks p = sim.blocks p := by
  cases p with
  | gates k => cases k <;> rfl
  | bus => rfl

theorem Owns.isLive_ends {sim : Simulator} {s : Store} (howns : sim.Owns s)
    (hwired : sim.Wired) :
    ∀ w ∈ sim.sockets.sockets, w.source.isLive s = true ∧ w.target.isLive s = true :=
  fun w hw => ⟨howns.isLive (hwired w hw).1, howns.isLive (hwired w hw).2⟩

end Simulator

/-- Evaluating all gates and then applying all sockets leads from one store to another. -/
def Simulator.Steps (sim : Simulator) (s s' : Store) : Prop :=
  sim.sockets.tick (sim.tickGates s) = .done s'

/-- What a completed step leaves as it was, and where its two phases lead. -/
structure Machine.Ticked (m m' : Machine) : Prop where
  sim : ∃ stats, m'.sim = { m.sim with stats }
  phases : m.sim.Steps m.store m'.store
  cells : m'.store.SameCells m.store

namespace Machine.Ticked

variable {m m' : Machine}

theorem blocks (h : m.Ticked m') (p : Part) : m'.sim.blocks p = m.sim.blocks p := by
  obtain ⟨stats, hsim⟩ := h.sim
  rw [hsim, Simulator.blocks_withStats]

theorem sockets (h : m.Ticked m') : m'.sim.sockets = m.sim.sockets := by
  obtain ⟨stats, hsim⟩ := h.sim
  rw [hsim]

theorem simCells (h : m.Ticked m') : m'.sim.cells = m.sim.cells := by
  obtain ⟨stats, hsim⟩ := h.sim
  rw [hsim]
  rfl

theorem owns (h : m.Ticked m') (howns : m.sim.Owns m.store) : m'.sim.Owns m'.store := by
  have hbefore := howns.of_sameCells h.cells
  exact ⟨fun c hc => hbefore.live c (h.simCells ▸ hc), h.simCells ▸ hbefore.apart⟩

theorem grows (h : m.Ticked m') : m.sim.Grows m'.sim := Simulator.Grows.of_blocks h.blocks

theorem wired (h : m.Ticked m') (hwired : m.sim.Wired) : m'.sim.Wired := by
  intro w hw
  rw [h.sockets] at hw
  exact ⟨h.grows.holds (hwired w hw).1, h.grows.holds (hwired w hw).2⟩

end Machine.Ticked

/-- A machine that owns its cells and whose sockets stay within them takes every step. -/
theorem Machine.tick_of_wired {m : Machine} (howns : m.sim.Owns m.store) (hwired : m.sim.Wired) :
    ∃ m', m.tick = .done m' ∧ m.Ticked m' := by
  have hgates := m.sim.sameCells_tickGates m.store
  obtain ⟨s', heach, hcells, -⟩ :=
    Socket.each_tick_of_isLive ((howns.of_sameCells hgates).isLive_ends hwired)
  have hphases : m.sim.sockets.tick (m.sim.tickGates m.store) = .done s' := heach
  have hsteps : m.sim.Steps m.store s' := hphases
  simp only [tick, hphases, Attempt.done]
  refine ⟨_, rfl, ?_⟩
  split
  · exact ⟨⟨_, rfl⟩, hsteps, hcells.trans hgates⟩
  · exact ⟨⟨_, rfl⟩, hsteps, hcells.trans hgates⟩

/-! ## Many steps -/

namespace Machine

/-- The machine after `t` steps, or where the first failing step left it. -/
def after (m : Machine) (t : Nat) : Machine := (m.run t).state

@[simp] theorem after_zero (m : Machine) : m.after 0 = m := rfl

/-- A completed run goes on with one more completed step. -/
theorem run_succ_of_done {m m' : Machine} {t : Nat} (hrun : m.run t = .done (m.after t))
    (htick : (m.after t).tick = .done m') :
    m.run (t + 1) = .done (m.after (t + 1)) ∧ m.after (t + 1) = m' := by
  have hrun' : m.run (t + 1) = .done m' := by
    rw [run, Attempt.times_add, ← run, hrun, Attempt.done_andThen, Attempt.times_succ, htick]
    rfl
  have hafter : m.after (t + 1) = m' := by
    rw [after, hrun']
    rfl
  exact ⟨hafter ▸ hrun', hafter⟩

/-- The run lemma: every step leaves a machine that owns its cells and is wired, so that there is a
next one. -/
theorem run_keeps_wired {m : Machine} (howns : m.sim.Owns m.store) (hwired : m.sim.Wired) (t : Nat) :
    m.run t = .done (m.after t) ∧ (∃ stats, (m.after t).sim = { m.sim with stats }) ∧
      (m.after t).sim.Owns (m.after t).store ∧ (m.after t).sim.Wired := by
  induction t with
  | zero => exact ⟨rfl, ⟨m.sim.stats, rfl⟩, howns, hwired⟩
  | succ t ih =>
    obtain ⟨hrun, ⟨stats, hsim⟩, howns', hwired'⟩ := ih
    obtain ⟨m', htick, hticked⟩ := tick_of_wired howns' hwired'
    obtain ⟨hrun', rfl⟩ := run_succ_of_done hrun htick
    obtain ⟨stats', hsim'⟩ := hticked.sim
    refine ⟨hrun', ⟨stats', ?_⟩, hticked.owns howns', hticked.wired hwired'⟩
    rw [hsim', hsim]

/-- A machine that owns its cells and whose sockets stay within them takes any number of steps,
one after the other. -/
theorem run_of_wired {m : Machine} (howns : m.sim.Owns m.store) (hwired : m.sim.Wired) (t : Nat) :
    m.run t = .done (m.after t) ∧ (∃ stats, (m.after t).sim = { m.sim with stats }) ∧
      m.sim.Owns (m.after t).store ∧ (m.after t).tick = .done (m.after (t + 1)) ∧
      (m.after t).Ticked (m.after (t + 1)) := by
  obtain ⟨hrun, ⟨stats, hsim⟩, howns', hwired'⟩ := run_keeps_wired howns hwired t
  obtain ⟨m', htick, hticked⟩ := tick_of_wired howns' hwired'
  obtain ⟨-, rfl⟩ := run_succ_of_done hrun htick
  refine ⟨hrun, ⟨stats, hsim⟩, ?_, htick, hticked⟩
  rw [hsim] at howns'
  exact ⟨howns'.live, howns'.apart⟩

end Machine

end PackedLogic
