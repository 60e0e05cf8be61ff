import PackedLogic.Proofs.AlignedBuild
set_option autoImplicit false

/-!
# Clearing forgets the past

A `Desk` is a simulator with all that it has handed out.  Two desks that are asked for the same
things in the same order hand out fields at the same places, whatever else is done at either of
them.  Once both have been cleared nobody can tell them apart (`Desk.clear_erases_history`).
-/

namespace PackedLogic

/-- A field that has been handed out: one lent by itself, a port of a circuit, shown or not, or an
end of a socket. -/
inductive Handle
  | field (n : Nat)
  | port (circuit : Nat) (path : List Nat) (name : String)
  | exposed (circuit : Nat) (path : List Nat) (name : String)
  | source (socket : Nat)
  | target (socket : Nat)

/-- What a simulator can be asked for.  Meanwhile others may create cells in its store. -/
inductive Task
  | lend (width : Nat)
  | lendBridge (views : List (List Nat))
  | lendGate (k : GateKind)
  | connect (source target : Handle)
  | build (s : Schematic)
  | edit (handle : Handle) (e : Edit)
  | tick
  | run (count : Nat)
  | settle
  | clear
  | resetStats
  | others (count : Nat)

/-- The task asks for fields, circuits or sockets. -/
def Task.isAllocation : Task → Bool
  | lend _ | lendBridge _ | lendGate _ | connect .. | build _ => true
  | edit .. | tick | run _ | settle | clear | resetStats | others _ => false

/-- A simulator, and what it has handed out in the order of handing out. -/
structure Desk where
  machine : Machine
  fields : List Field := []
  circuits : List Circuit := []

namespace Desk

/-- A new simulator, in a store where others may have cells. -/
def vacant (config : Config) (s : Store) : Desk :=
  { machine := { sim := { config }, store := s } }

/-- The field of a handle, if there is one. -/
def field? (d : Desk) : Handle → Option Field
  | .field n => d.fields[n]?
  | .port c path name => (d.circuits[c]?).bind fun c => c.field? path name
  | .exposed c path name => (d.circuits[c]?).bind fun c => c.exposedField? path name
  | .source n => (d.machine.sim.sockets.sockets[n]?).map Socket.source
  | .target n => (d.machine.sim.sockets.sockets[n]?).map Socket.target

/-- Reads the field of a handle. -/
def read (d : Desk) (handle : Handle) : Option (Except Fault Word) :=
  (d.field? handle).map fun f => f.get d.machine.store

/-- Hands out fields. -/
def handOut (d : Desk) (machine : Machine) (fields : List Field) : Desk :=
  { d with machine, fields := d.fields ++ fields }

/-- Does a task.  A task that names no field does nothing. -/
def step : Task → Desk → Attempt Desk
  | .lend width, d => .ofExcept d do
    let (machine, f) ← d.machine.lendBus? width
    return d.handOut machine [f]
  | .lendBridge views, d => .ofExcept d do
    let (machine, fields) ← d.machine.lendBridge? views
    return d.handOut machine fields.flatten
  | .lendGate k, d =>
    let (machine, terminals) := d.machine.lendGate k
    .done (d.handOut machine (List.ofFn terminals))
  | .connect source target, d =>
    match d.field? source, d.field? target with
    | some f, some g => .ofExcept d do
      let machine ← d.machine.connect? f g
      return { d with machine }
    | _, _ => .done d
  | .build s, d =>
    let built := d.machine.build s
    match built.circuit with
    | .ok c => .done { d with machine := built.machine, circuits := d.circuits ++ [c] }
    | .error fault => .failed { d with machine := built.machine } fault
  | .edit handle e, d =>
    match d.field? handle with
    | some f => (f.edit e d.machine.store).map fun store =>
        { d with machine := { d.machine with store } }
    | none => .done d
  | .tick, d => d.machine.tick.map fun machine => { d with machine }
  | .run count, d => (d.machine.run count).map fun machine => { d with machine }
  | .settle, d => d.machine.settle.map fun machine => { d with machine }
  | .clear, d => .done { d with machine := d.machine.clear }
  | .resetStats, d =>
    let sim := { d.machine.sim with stats := d.machine.sim.stats.reset }
    .done { d with machine := { d.machine with sim } }
  | .others count, d =>
    .done { d with machine := { d.machine with store := d.machine.store.pushZeros count } }

/-- Does tasks in order.  A task that is refused does not keep the next ones from being done. -/
def run (tasks : List Task) (d : Desk) : Desk :=
  tasks.foldl (fun d task => (step task d).state) d

theorem run_cons (task : Task) (tasks : List Task) (d : Desk) :
    d.run (task :: tasks) = (step task d).state.run tasks := rfl

theorem run_append (tasks more : List Task) (d : Desk) :
    d.run (tasks ++ more) = (d.run tasks).run more :=
  List.foldl_append

/-! ## Tasks that allocate nothing -/

/-- Nothing has been handed out. -/
structure Idles (d d' : Desk) : Prop where
  machine : d.machine.Idles d'.machine
  fields : d'.fields = d.fields
  circuits : d'.circuits = d.circuits

variable {d d' e e' : Desk} {task : Task}

theorem Idles.refl (d : Desk) : d.Idles d := ⟨.refl _, rfl, rfl⟩

theorem Idles.trans (h : d.Idles e) (h' : e.Idles e') : d.Idles e' :=
  ⟨h.machine.trans h'.machine, h'.fields.trans h.fields, h'.circuits.trans h.circuits⟩

theorem idles_step (h : ¬ task.isAllocation = true) (d : Desk) : d.Idles (step task d).state := by
  have hmachine : ∀ {machine : Machine}, d.machine.Idles machine → d.Idles { d with machine } :=
    fun hidles => ⟨hidles, rfl, rfl⟩
  cases task with
  | lend _ | lendBridge _ | lendGate _ | connect _ _ | build _ => exact absurd rfl h
  | edit handle e =>
    rw [step]
    cases d.field? handle with
    | none => exact .refl d
    | some f => exact hmachine (Machine.idles_withStore (f.sameCells_edit e d.machine.store))
  | tick => exact hmachine d.machine.stays_tick.idles
  | run count => exact hmachine (d.machine.stays_run count).idles
  | settle => exact hmachine (d.machine.stays_run _).idles
  | clear => exact hmachine (Machine.idles_withStore (Store.sameCells_zero _ _))
  | resetStats => exact hmachine ⟨⟨_, rfl⟩, fun _ hc => hc⟩
  | others count => exact hmachine ⟨⟨_, rfl⟩, fun c hc => Store.isLive_pushZeros.2 (.inl hc)⟩

theorem idles_run {tasks : List Task} (h : ∀ task ∈ tasks, ¬ task.isAllocation = true) (d : Desk) :
    d.Idles (d.run tasks) := by
  induction tasks generalizing d with
  | nil => exact .refl d
  | cons task tasks ih =>
    obtain ⟨htask, htasks⟩ := List.forall_mem_cons.1 h
    exact (idles_step htask d).trans (ih htasks _)

/-! ## Two desks -/

/-- Both desks have handed out the same.  If `same` holds, nothing that has been handed out can tell
them apart either. -/
structure Abreast (same : Prop) (d d' : Desk) : Prop where
  machines : Aligned same d.machine d'.machine
  fields : List.Forall₂ (SamePlace d.machine.sim d'.machine.sim) d.fields d'.fields
  circuits : List.Forall₂ (SameCircuits d.machine.sim d'.machine.sim) d.circuits d'.circuits

namespace Abreast

variable {same : Prop}

/-- What is behind a handle is at the same place in both. -/
theorem field? (h : Abreast same d d') (handle : Handle) :
    Option.Rel (SamePlace d.machine.sim d'.machine.sim) (d.field? handle) (d'.field? handle) := by
  cases handle with
  | field n => exact rel_getElem? h.fields n
  | port c path name =>
    exact rel_bind (rel_getElem? h.circuits c) fun _ _ hc => hc.ports path name
  | exposed c path name =>
    exact rel_bind (rel_getElem? h.circuits c) fun _ _ hc => hc.exposed path name
  | source n => exact rel_map (rel_getElem? h.machines.sockets n) fun _ _ hw => hw.1
  | target n => exact rel_map (rel_getElem? h.machines.sockets n) fun _ _ hw => hw.2

theorem read_eq (h : Abreast True d d') (handle : Handle) : d.read handle = d'.read handle := by
  unfold read
  rcases rel_cases (h.field? handle) with ⟨hf, hg⟩ | ⟨f, g, hf, hg, hfg⟩
  · rw [hf, hg]
    rfl
  · rw [hf, hg, Option.map_some, Option.map_some, h.machines.get_eq trivial hfg]

/-- Other states of machines that have kept their blocks in place. -/
theorem of_machines {same' : Prop} (h : Abreast same d d') {m m' : Machine}
    (haligned : Aligned same' m m') (hleft : d.machine.sim.KeepsPlaces m.sim)
    (hright : d'.machine.sim.KeepsPlaces m'.sim) : Abreast same' { d with machine := m } { d' with machine := m' } :=
  ⟨haligned, h.fields.imp fun _ _ hfg => hfg.mono hleft hright,
    h.circuits.imp fun _ _ hc => hc.mono hleft hright⟩

theorem of_idles (h : Abreast False d e) (hd : d.Idles d') (he : e.Idles e') :
    Abreast False d' e' := by
  have hall := h.of_machines (h.machines.of_idles hd.machine he.machine)
    (.of_stats hd.machine.sim) (.of_stats he.machine.sim)
  refine ⟨hall.machines, ?_, ?_⟩
  · rw [hd.fields, he.fields]
    exact hall.fields
  · rw [hd.circuits, he.circuits]
    exact hall.circuits

theorem handOut (h : Abreast same d d') {m m' : Machine} {fs gs : List Field}
    (hout : HandOut same d.machine d'.machine m m' fs gs) :
    Abreast same (d.handOut m fs) (d'.handOut m' gs) := by
  have hall := h.of_machines hout.aligned hout.left hout.right
  exact ⟨hall.machines, List.rel_append hall.fields hout.fields, hall.circuits⟩

/-- The machines have changed as a result of the same work, and their blocks are as they were. -/
theorem withMachines (h : Abreast same d d') {a b : Attempt Machine}
    (hab : Attempt.Related (Aligned same) a b) (ha : d.machine.Stays a.state)
    (hb : d'.machine.Stays b.state) :
    Attempt.Related (Abreast same) (a.map fun machine => { d with machine })
      (b.map fun machine => { d' with machine }) :=
  ⟨hab.fault, h.of_machines hab.state (.of_stats ha.sim) (.of_stats hb.sim)⟩

theorem connect (h : Abreast same d d') (source target : Handle) :
    Attempt.Related (Abreast same) (step (.connect source target) d)
      (step (.connect source target) d') := by
  rw [step, step]
  rcases rel_cases (h.field? source) with ⟨hf, hg⟩ | ⟨f, g, hf, hg, hsource⟩
  · rw [hf, hg]
    exact ⟨rfl, h⟩
  rcases rel_cases (h.field? target) with ⟨hf', hg'⟩ | ⟨f', g', hf', hg', htarget⟩
  · rw [hf, hg, hf', hg']
    exact ⟨rfl, h⟩
  · rw [hf, hg, hf', hg']
    refine SameOutcome.ofExcept ((h.machines.connect? hsource htarget).bind ?_) h
    intro m m' hout
    exact .done (h.of_machines hout.aligned hout.left hout.right)

theorem build (h : Abreast same d d') (s : Schematic) :
    Attempt.Related (Abreast same) (step (.build s) d) (step (.build s) d') := by
  obtain ⟨haligned, hcircuits⟩ := h.machines.build s
  have hall := h.of_machines haligned (.of_build d.machine s) (.of_build d'.machine s)
  rw [step, step]
  rcases hcircuits with ⟨fault, hc, hc'⟩ | ⟨c, c', hc, hc', hsame⟩
  · simp only [hc, hc']
    exact ⟨rfl, hall⟩
  · simp only [hc, hc']
    exact ⟨rfl, hall.machines, hall.fields, List.rel_append hall.circuits (.cons hsame .nil)⟩

theorem edit (h : Abreast same d d') (handle : Handle) (e : Edit) :
    Attempt.Related (Abreast same) (step (.edit handle e) d) (step (.edit handle e) d') := by
  rw [step, step]
  rcases rel_cases (h.field? handle) with ⟨hf, hg⟩ | ⟨f, g, hf, hg, hfg⟩
  · rw [hf, hg]
    exact ⟨rfl, h⟩
  · rw [hf, hg]
    have hedit := h.machines.edit hfg e
    exact ⟨hedit.fault, h.of_machines hedit.state (.refl _) (.refl _)⟩

/-- The same task has the same outcome at both desks, and they stay abreast. -/
theorem step (h : Abreast same d d') (task : Task) :
    Attempt.Related (Abreast same) (Desk.step task d) (Desk.step task d') := by
  cases task with
  | lend width =>
    exact ((h.machines.lendBus? width).bind fun _ _ hout => .done (h.handOut hout)).ofExcept h
  | lendBridge views =>
    exact ((h.machines.lendBridge? views).bind fun _ _ hout => .done (h.handOut hout)).ofExcept h
  | lendGate k => exact ⟨rfl, h.handOut (h.machines.lendGate k)⟩
  | connect source target => exact h.connect source target
  | build s => exact h.build s
  | edit handle e => exact h.edit handle e
  | tick => exact h.withMachines h.machines.tick d.machine.stays_tick d'.machine.stays_tick
  | run count =>
    exact h.withMachines (h.machines.run count) (d.machine.stays_run count)
      (d'.machine.stays_run count)
  | settle =>
    exact h.withMachines h.machines.settle (d.machine.stays_run _) (d'.machine.stays_run _)
  | clear => exact ⟨rfl, h.of_machines (h.machines.clear.weaken fun _ => trivial) (.refl _) (.refl _)⟩
  | resetStats =>
    refine ⟨rfl, h.of_machines ?_ (.of_stats ⟨_, rfl⟩) (.of_stats ⟨_, rfl⟩)⟩
    exact h.machines.of_stats ⟨_, rfl⟩ ⟨_, rfl⟩ ⟨h.machines.left.live, h.machines.left.apart⟩
      ⟨h.machines.right.live, h.machines.right.apart⟩ h.machines.agree
  | others count =>
    exact ⟨rfl, h.of_machines (h.machines.others count count) (.refl _) (.refl _)⟩

theorem run (h : Abreast same d d') (tasks : List Task) :
    Abreast same (d.run tasks) (d'.run tasks) := by
  induction tasks generalizing d d' with
  | nil => exact h
  | cons task tasks ih => exact ih (h.step task).state

/-- Desks that are asked for the same in the same order stay abreast, whatever is done in between. -/
theorem run_apart (h : Abreast False d d') {tasks tasks' : List Task}
    (hsame : tasks.filter Task.isAllocation = tasks'.filter Task.isAllocation) :
    Abreast False (d.run tasks) (d'.run tasks') := by
  induction tasks generalizing d d' tasks' with
  | nil =>
    rw [List.filter_nil, eq_comm, List.filter_eq_nil_iff] at hsame
    exact h.of_idles (.refl d) (idles_run hsame d')
  | cons task tasks ih =>
    by_cases htask : task.isAllocation = true
    · rw [List.filter_cons_of_pos htask, eq_comm, List.filter_eq_cons_iff] at hsame
      obtain ⟨before, after, rfl, hbefore, -, hafter⟩ := hsame
      rw [run_append, run_cons, run_cons]
      exact ih ((h.of_idles (.refl d) (idles_run hbefore d')).step task).state hafter.symm
    · rw [List.filter_cons_of_neg htask] at hsame
      rw [run_cons]
      exact ih (h.of_idles (idles_step htask d) (.refl d')) hsame

end Abreast

/-! ## Clearing -/

theorem abreast_vacant (config : Config) (s s' : Store) :
    Abreast False (vacant config s) (vacant config s') := by
  have howns : ∀ s : Store, (vacant config s).machine.sim.Owns s := fun _ => ⟨nofun, List.nodup_nil⟩
  have hcursors : ∀ p, SameCursors ((vacant config s).machine.sim.blocks p)
      ((vacant config s').machine.sim.blocks p) := by
    intro p
    cases p with
    | gates k => cases k <;> exact .nil
    | bus => exact .nil
  exact ⟨⟨howns s, howns s', hcursors, .nil, rfl, False.elim⟩, .nil, .nil⟩

/-- Every cell of the simulator holds zero, and nothing else of it has changed. -/
structure Cleared (d d' : Desk) : Prop where
  sim : d'.machine.sim = d.machine.sim
  zero : ∀ c ∈ d.machine.sim.cells, d'.machine.store.word? c = some 0
  fields : d'.fields = d.fields
  circuits : d'.circuits = d.circuits

theorem cleared_run_clear (h : d.machine.sim.Owns d.machine.store) : d.Cleared (d.run [.clear]) := by
  refine ⟨rfl, fun c hc => ?_, rfl, rfl⟩
  have hlive := ((Store.sameCells_zero d.machine.store d.machine.sim.cells).live c).trans
    (h.live c hc)
  have hbits : ∀ i, (d.machine.store.zero d.machine.sim.cells).bit ⟨c, i⟩ = false := by
    intro i
    rw [Store.bit_zero, if_pos hc]
  have hread : (d.machine.store.zero d.machine.sim.cells).read c = 0 :=
    BitVec.eq_of_getLsbD_eq fun i _ => (hbits i).trans BitVec.getLsbD_zero.symm
  exact hread ▸ Store.word?_eq_of_isLive hlive

/-- Clearing erases history.  Take two new simulators of one configuration, in any stores, and do at
both the same lendings, builds and connections in the same order, but whatever else at each of them
in between.  Then every field that has been handed out at one of them is the same span in the same
lane of the block of the same number as its counterpart at the other.  Clearing sets all cells to
zero and changes nothing else, and whatever is done at both thereafter, every field that has been
handed out reads the same. -/
theorem clear_erases_history (config : Config) (s s' : Store) {tasks tasks' : List Task}
    (hsame : tasks.filter Task.isAllocation = tasks'.filter Task.isAllocation) :
    let d := (vacant config s).run tasks
    let d' := (vacant config s').run tasks'
    (∀ handle, Option.Rel (SamePlace d.machine.sim d'.machine.sim) (d.field? handle)
        (d'.field? handle)) ∧
      d.Cleared (d.run [.clear]) ∧ d'.Cleared (d'.run [.clear]) ∧
      ∀ more handle, (d.run (.clear :: more)).read handle = (d'.run (.clear :: more)).read handle := by
  have h := (abreast_vacant config s s').run_apart hsame
  refine ⟨h.field?, cleared_run_clear h.machines.left, cleared_run_clear h.machines.right, ?_⟩
  intro more handle
  have hcleared : Abreast True (((vacant config s).run tasks).run [.clear])
      (((vacant config s').run tasks').run [.clear]) :=
    h.of_machines h.machines.clear (.refl _) (.refl _)
  exact (hcleared.run more).read_eq handle

/-- A gate that steps and is written to on one side alone, where its cells are others too. -/
theorem clear_erases_history_inverter :
    let tasks := [Task.lendGate .not, .tick, .edit (.field 0) (.set 1), .lend 3]
    let tasks' := [Task.others 2, .lendGate .not, .lend 3, .edit (.field 2) (.set 5)]
    let d := (vacant {} {}).run tasks
    let d' := (vacant {} {}).run tasks'
    tasks.filter Task.isAllocation = tasks'.filter Task.isAllocation ∧
      (∀ handle, Option.Rel (SamePlace d.machine.sim d'.machine.sim) (d.field? handle)
          (d'.field? handle)) ∧
      d.Cleared (d.run [.clear]) ∧ d'.Cleared (d'.run [.clear]) ∧
      ∀ more handle, (d.run (.clear :: more)).read handle = (d'.run (.clear :: more)).read handle :=
  ⟨rfl, clear_erases_history {} {} {} rfl⟩

end Desk

end PackedLogic
