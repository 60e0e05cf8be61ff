import PackedLogic.Proofs.Enlargement
set_option autoImplicit false

/-!
# Owners and their work

Every cell has one owner: a single cell that stands for itself, a bank, a pool, or a simulator.
Registries of sockets own no cells.  An owner does one `Job` at a time, and `Served` is all that a
job can do: new cells get names that no cell had before, the cells there are stay in existence or
released, sockets are only added, and what is handed out lies in cells of the owner.
-/

namespace PackedLogic

/-! ## Owners and jobs -/

/-- Whatever owns cells, and registries of sockets. -/
inductive Owner
  | cell (i : Nat)
  | bank (lanes : Nat) (b : Bank lanes)
  | pool (k : GateKind) (p : GatePool k)
  | simulator (sim : Simulator)
  | registry (r : SocketRegistry)

namespace Owner

/-- The names of the cells that go with the owner. -/
def cells : Owner → List Nat
  | cell i => [i]
  | bank _ b => b.cells
  | pool _ p => p.bank.cells
  | simulator sim => sim.cells
  | registry _ => []

/-- The sockets that the owner has registered. -/
def sockets : Owner → List Socket
  | simulator sim => sim.sockets.sockets
  | registry r => r.sockets
  | cell _ | bank .. | pool .. => []

/-- The simulator, if the owner is one. -/
def simulator? : Owner → Option Simulator
  | simulator sim => some sim
  | cell _ | bank .. | pool .. | registry _ => none

/-- The steps that the owner has counted. -/
def steps : Owner → Nat
  | simulator sim => sim.stats.steps
  | cell _ | bank .. | pool .. | registry _ => 0

/-- The reference is to a cell of the owner. -/
def Holds (o : Owner) (r : CellRef) : Prop := ∃ c ∈ o.cells, r = .ofCell c

end Owner

/-- A field that a program has at hand: one that it keeps, a port of a circuit, or an end of a
socket. -/
inductive Access
  | kept (n : Nat)
  | port (circuit : Nat) (path : List Nat) (name : String)
  | exposed (circuit : Nat) (path : List Nat) (name : String)
  | source (owner socket : Nat)
  | target (owner socket : Nat)

/-- What an owner can be told to do.  An owner to which a job does not apply does nothing. -/
inductive Job
  | lend (width : Nat)
  | lendWhole
  | lendBridge (views : List (List Nat))
  | lendGate (k : GateKind)
  | connect (source target : Access)
  | build (s : Schematic)
  | tickGates (k : GateKind)
  | tickSockets
  | tick
  | run (n : Nat)
  | settle
  | clear
  | resetStats
  | write (w : Word)

/-- An owner after a job, and what it has handed out. -/
structure Service where
  owner : Owner
  store : Store
  log : Array Event
  fields : List Field := []
  refs : List CellRef := []
  circuit? : Option Circuit := none

namespace Service

/-- Nothing is handed out by a simulator. -/
def ofMachine (m : Machine) : Service :=
  { owner := .simulator m.sim, store := m.store, log := m.log }

end Service

/-- The jobs of a simulator. -/
def Simulator.serve (field? : Access → Option Field) (m : Machine) : Job → Attempt Service
  | .lend width =>
    match m.lendBus? width with
    | .ok (m', f) => .done { Service.ofMachine m' with fields := [f] }
    | .error fault => .failed (.ofMachine m) fault
  | .lendWhole =>
    let l := m.sim.bus.lendWhole m.store
    .done { Service.ofMachine (m.afterLending { m.sim with bus := l.bank } l) with
      refs := List.ofFn l.lent }
  | .lendBridge views =>
    match m.lendBridge? views with
    | .ok (m', views) => .done { Service.ofMachine m' with fields := views.flatten }
    | .error fault => .failed (.ofMachine m) fault
  | .lendGate k =>
    let (m', terminals) := m.lendGate k
    .done { Service.ofMachine m' with fields := List.ofFn terminals }
  | .connect source target =>
    match field? source, field? target with
    | some f, some g => (Attempt.ofExcept m (m.connect? f g)).map .ofMachine
    | _, _ => .done (.ofMachine m)
  | .build s =>
    let built := m.build s
    match built.circuit with
    | .ok c => .done { Service.ofMachine built.machine with circuit? := some c }
    | .error fault => .failed (.ofMachine built.machine) fault
  | .tickGates k => .done (.ofMachine { m with store := (m.sim.pool k).tick m.store })
  | .tickSockets =>
    (m.sim.sockets.tick m.store).map fun store => .ofMachine { m with store }
  | .tick => m.tick.map .ofMachine
  | .run n => (m.run n).map .ofMachine
  | .settle => m.settle.map .ofMachine
  | .clear => .done (.ofMachine m.clear)
  | .resetStats =>
    .done (.ofMachine { m with sim := { m.sim with stats := m.sim.stats.reset } })
  | .write _ => .done (.ofMachine m)

/-- Lends a bridge from a bank that stands for itself, if the bank has a single lane. -/
def Bank.workBridge (views : List (List Nat)) (s : Store) (log : Array Event) :
    {lanes : Nat} → Bank lanes → Attempt Service
  | 1, b =>
    match b.bridge? views s with
    | .ok l => .done
        { owner := .bank 1 l.bank, store := l.store, log, fields := l.lent.flatten }
    | .error fault => .failed { owner := .bank 1 b, store := s, log } fault
  | lanes, b => .done { owner := .bank lanes b, store := s, log }

/-- The jobs of a bank that stands for itself. -/
def Bank.work {lanes : Nat} (b : Bank lanes) (s : Store) (log : Array Event) :
    Job → Attempt Service
  | .lend width =>
    match b.lend? width s with
    | .ok l => .done
        { owner := .bank lanes l.bank, store := l.store, log := log ++ l.events
          fields := List.ofFn l.lent }
    | .error fault => .failed { owner := .bank lanes b, store := s, log } fault
  | .lendWhole =>
    let l := b.lendWhole s
    .done { owner := .bank lanes l.bank, store := l.store, log, refs := List.ofFn l.lent }
  | .lendBridge views => b.workBridge views s log
  | .clear => .done { owner := .bank lanes b, store := b.clear s, log }
  | _ => .done { owner := .bank lanes b, store := s, log }

/-- The jobs of a pool that stands for itself. -/
def GatePool.work {k : GateKind} (p : GatePool k) (s : Store) (log : Array Event) :
    Job → Attempt Service
  | .lendGate _ =>
    let l := p.lend s
    .done
      { owner := .pool k ⟨l.bank⟩, store := l.store, log := log ++ l.events
        fields := List.ofFn l.lent }
  | .tickGates _ => .done { owner := .pool k p, store := p.tick s, log }
  | .clear => .done { owner := .pool k p, store := p.bank.clear s, log }
  | _ => .done { owner := .pool k p, store := s, log }

/-- The jobs of a registry that stands for itself. -/
def SocketRegistry.work (field? : Access → Option Field) (r : SocketRegistry) (s : Store)
    (log : Array Event) : Job → Attempt Service
  | .connect source target =>
    match field? source, field? target with
    | some f, some g =>
      (Attempt.ofExcept r (r.add? f g)).map fun r => { owner := .registry r, store := s, log }
    | _, _ => .done { owner := .registry r, store := s, log }
  | .tickSockets => (r.tick s).map fun store => { owner := .registry r, store, log }
  | _ => .done { owner := .registry r, store := s, log }

/-- Does a job.  `field?` tells the fields that the caller has at hand. -/
def Owner.serve (field? : Access → Option Field) (job : Job) (s : Store) (log : Array Event) :
    Owner → Attempt Service
  | .cell i =>
    match job with
    | .write w => .done { owner := .cell i, store := s.write i w, log }
    | _ => .done { owner := .cell i, store := s, log }
  | .bank _ b => b.work s log job
  | .pool _ p => p.work s log job
  | .simulator sim => Simulator.serve field? ⟨sim, s, log⟩ job
  | .registry r => r.work field? s log job

/-! ## What jobs do -/

/-- The socket joins cells of its owner, or fields that the caller had at hand. -/
def Owner.Joins (field? : Access → Option Field) (job : Job) (o : Owner) (w : Socket) : Prop :=
  (o.Holds w.source.ref ∧ o.Holds w.target.ref) ∨
    ∃ source target, job = .connect source target ∧ field? source = some w.source ∧
      field? target = some w.target

/-- All that a job can do. -/
structure Served (field? : Access → Option Field) (job : Job) (o : Owner) (s : Store)
    (v : Service) : Prop where
  enlarges : Enlarges o.cells v.owner.cells s v.store
  sockets : ∃ added, v.owner.sockets = o.sockets ++ added ∧
    ∀ w ∈ added, v.owner.Joins field? job w
  fields : ∀ f ∈ v.fields, v.owner.Holds f.ref
  refs : ∀ r ∈ v.refs, v.owner.Holds r
  circuit : ∀ c, v.circuit? = some c → ∀ r, c.Mentions r → v.owner.Holds r
  kind : v.owner.simulator?.isSome = o.simulator?.isSome
  /-- As long as a socket dangles, no step is counted. -/
  steps : (∃ w ∈ o.sockets, w.Dangles s) → v.owner.steps ≤ o.steps

namespace Served

variable {field? : Access → Option Field} {job : Job} {o : Owner} {s s' : Store}
  {log : Array Event} {m m' : Machine}

/-- Nothing but the contents of cells has changed. -/
theorem of_sameCells (h : s'.SameCells s) (log : Array Event) :
    Served field? job o s { owner := o, store := s', log } :=
  ⟨.of_sameCells h, ⟨[], (List.append_nil _).symm, nofun⟩, nofun, nofun, nofun, rfl,
    fun _ => Nat.le_refl _⟩

theorem of_lends {row : Row} (h : m.Lends m' row) {fields : List Field} {refs : List CellRef}
    (hfields : ∀ f ∈ fields, m'.sim.Holds f)
    (hrefs : ∀ r ∈ refs, (Owner.simulator m'.sim).Holds r) :
    Served field? job (.simulator m.sim) m.store
      { Service.ofMachine m' with fields, refs } := by
  refine ⟨.of_lends h, ⟨[], ?_, nofun⟩, hfields, hrefs, nofun, rfl, fun _ => ?_⟩
  · simp [Service.ofMachine, Owner.sockets, h.sockets]
  · simp [Service.ofMachine, Owner.steps, h.stats]

theorem of_stays (h : m.Stays m')
    (hsteps : (∃ w ∈ m.sim.sockets.sockets, w.Dangles m.store) →
      m'.sim.stats.steps ≤ m.sim.stats.steps) :
    Served field? job (.simulator m.sim) m.store (.ofMachine m') := by
  obtain ⟨stats, hsim⟩ := h.sim
  have hcells : m'.sim.cells = m.sim.cells := by
    rw [hsim]
    rfl
  have henlarges : Enlarges m.sim.cells m'.sim.cells m.store m'.store := by
    rw [hcells]
    exact .of_sameCells h.cells
  refine ⟨henlarges, ⟨[], ?_, nofun⟩, nofun, nofun, nofun, rfl, hsteps⟩
  simp [Service.ofMachine, Owner.sockets, hsim]

theorem of_connect {f g : Field} {source target : Access} (hf : field? source = some f)
    (hg : field? target = some g) :
    Served field? (.connect source target) (.simulator m.sim) m.store
      (.ofMachine (Attempt.ofExcept m (m.connect? f g)).state) := by
  by_cases hwidth : f.width = g.width
  · rw [m.connect?_of_eq hwidth]
    refine ⟨.refl _ _, ⟨[⟨f, g, hwidth⟩], rfl, ?_⟩, nofun, nofun, nofun, rfl,
      fun _ => Nat.le_refl _⟩
    intro w hw
    obtain rfl := List.mem_singleton.1 hw
    exact .inr ⟨source, target, rfl, hf, hg⟩
  · rw [m.connect?_of_ne hwidth]
    exact of_sameCells (.refl _) _

theorem of_build (m : Machine) (s : Schematic) {circuit? : Option Circuit}
    (hcircuit : ∀ c, circuit? = some c → (m.build s).circuit = .ok c) :
    Served field? job (.simulator m.sim) m.store
      { Service.ofMachine (m.build s).machine with circuit? } := by
  obtain ⟨henlarges, ⟨added, hsockets, hadded⟩, hstats, -⟩ := m.grown_populateAll s
  rw [← m.machine_build] at henlarges hsockets hadded hstats
  refine ⟨henlarges, ⟨added, hsockets, fun w hw => .inl (hadded w hw)⟩, nofun, nofun, ?_, rfl,
    fun _ => ?_⟩
  · intro c hc r hr
    exact Machine.holds_of_mentions (hcircuit c hc) hr
  · simp [Service.ofMachine, Owner.steps, hstats]

end Served

/-- The whole cells that are lent belong to the bank. -/
theorem Bank.exists_lendWhole {lanes : Nat} (b : Bank lanes) (s : Store) {r : CellRef}
    (hr : r ∈ List.ofFn (b.lendWhole s).lent) :
    ∃ c ∈ (b.lendWhole s).bank.cells, r = .ofCell c := by
  obtain ⟨lane, rfl⟩ := List.mem_ofFn.1 hr
  refine ⟨s.size + lane, ?_, rfl⟩
  rw [Bank.mem_cells]
  exact ⟨.whole s.size, by simp [lendWhole], Nat.le_add_right _ _,
    Nat.add_lt_add_left lane.isLt _⟩

/-- A simulator does all its jobs in this way. -/
theorem Simulator.served_serve (field? : Access → Option Field) (m : Machine) (job : Job) :
    Served field? job (.simulator m.sim) m.store (Simulator.serve field? m job).state := by
  cases job with
  | lend width =>
    by_cases fits : width ≤ cellBits
    · obtain ⟨m', f, hlent, row, -, -, hlends, hcut⟩ := m.lends_lendBus? fits
      simp only [serve, hlent]
      exact .of_lends hlends (by simpa using hlends.holds_of_cut hcut) nofun
    · simp only [serve, m.lendBus?_of_wide fits]
      exact .of_sameCells (.refl _) _
  | lendWhole =>
    refine .of_lends (Machine.lends_of_claims_bus (m.sim.bus.claims_lendWhole m.store) _)
      (List.forall_mem_nil _) ?_
    intro r hr
    obtain ⟨c, hc, rfl⟩ := m.sim.bus.exists_lendWhole m.store hr
    exact ⟨c, List.mem_append_right _ hc, rfl⟩
  | lendBridge views =>
    by_cases fits : ∀ widths ∈ views, total widths ≤ cellBits
    · obtain ⟨m', fields, hlent, row, -, -, hlends, hcut, rfl⟩ := m.lends_lendBridge? fits
      simp only [serve, hlent]
      refine .of_lends hlends ?_ nofun
      intro f hf
      obtain ⟨view, hview, hf⟩ := List.mem_flatten.1 hf
      obtain ⟨widths, -, rfl⟩ := List.mem_map.1 hview
      obtain ⟨span, -, rfl⟩ := List.mem_map.1 hf
      exact hlends.holds_of_cut (hcut span)
    · simp only [serve, m.lendBridge?_of_wide fits]
      exact .of_sameCells (.refl _) _
  | lendGate k =>
    obtain ⟨row, -, -, hlends, hcut⟩ := m.lends_lendGate k
    refine .of_lends hlends ?_ nofun
    intro f hf
    obtain ⟨lane, rfl⟩ := List.mem_ofFn.1 hf
    exact hlends.holds_of_cut (hcut lane)
  | connect source target =>
    simp only [serve]
    split
    · rename_i f g hf hg
      exact .of_connect hf hg
    · exact .of_sameCells (.refl _) _
  | build s =>
    simp only [serve]
    split
    · rename_i c hc
      refine .of_build m s ?_
      intro c' hc'
      rw [hc, Option.some.inj hc']
    · exact .of_build m s nofun
  | tickGates k => exact .of_stays ⟨⟨_, rfl⟩, (m.sim.pool k).sameCells_tick _⟩ fun _ => Nat.le_refl _
  | tickSockets =>
    have hstays : m.Stays { m with store := (m.sim.sockets.tick m.store).state } :=
      ⟨⟨_, rfl⟩, m.sim.sockets.sameCells_tick _⟩
    exact .of_stays hstays fun _ => Nat.le_refl _
  | tick =>
    refine .of_stays m.stays_tick fun hdangles => ?_
    obtain ⟨m', htick, hhalts⟩ := Machine.tick_of_dangles hdangles
    have hsim : m.tick.state.sim = m.sim := by
      rw [htick]
      exact hhalts.sim
    exact Nat.le_of_eq (congrArg (fun sim => sim.stats.steps) hsim)
  | run n =>
    refine .of_stays (m.stays_run n) fun hdangles => ?_
    have hsim := Machine.sim_run_of_dangles hdangles n
    exact Nat.le_of_eq (congrArg (fun sim => sim.stats.steps) hsim)
  | settle =>
    refine .of_stays (m.stays_run _) fun hdangles => ?_
    have hsim := Machine.sim_run_of_dangles hdangles m.sim.config.settleSteps
    exact Nat.le_of_eq (congrArg (fun sim => sim.stats.steps) hsim)
  | clear =>
    exact .of_stays ⟨⟨_, rfl⟩, Store.sameCells_zero _ _⟩ fun _ => Nat.le_refl _
  | resetStats => exact .of_stays ⟨⟨_, rfl⟩, .refl _⟩ fun _ => Nat.zero_le _
  | write w => exact .of_sameCells (.refl _) _

section

variable {lanes : Nat} {s : Store} {log : Array Event}

/-- A bank that stands for itself lends from its own cells. -/
theorem Bank.served_claims {field? : Access → Option Field} {job : Job} {b b' : Bank lanes}
    {s' : Store} {width base index : Nat}
    (hclaims : Claims lanes width b.blocks b'.blocks s s' base index) {fields : List Field}
    {refs : List CellRef} (hfields : ∀ f ∈ fields, ∃ c ∈ b'.cells, f.ref = .ofCell c)
    (hrefs : ∀ r ∈ refs, ∃ c ∈ b'.cells, r = .ofCell c) :
    Served field? job (.bank lanes b) s
      { owner := .bank lanes b', store := s', log, fields, refs } :=
  ⟨.of_claims hclaims, ⟨[], rfl, nofun⟩, hfields, hrefs, nofun, rfl, fun _ => Nat.le_refl _⟩

/-- The fields lent belong to the bank. -/
theorem Bank.exists_lend (b : Bank lanes) {width : Nat} (fits : width ≤ cellBits) {f : Field}
    (hf : f ∈ List.ofFn (b.lend width fits s).lent) :
    ∃ c ∈ (b.lend width fits s).bank.cells, f.ref = .ofCell c := by
  obtain ⟨lane, rfl⟩ := List.mem_ofFn.1 hf
  obtain ⟨base, index, hclaims, hlent⟩ := b.claims_lend width fits s
  obtain ⟨block, hblock, hbase, -⟩ := hclaims.exists_mem
  refine ⟨base + lane, ?_, (hlent lane).1⟩
  rw [Bank.mem_cells]
  exact ⟨block, hblock, by omega, by omega⟩

theorem Bank.served_workBridge (field? : Access → Option Field) {job : Job} (b : Bank lanes)
    (views : List (List Nat)) :
    Served field? job (.bank lanes b) s (b.workBridge views s log).state := by
  match lanes, b with
  | 0, _ | _ + 2, _ => exact .of_sameCells (.refl _) _
  | 1, b =>
    have hwork : b.workBridge views s log = match b.bridge? views s with
      | .ok l => .done { owner := .bank 1 l.bank, store := l.store, log, fields := l.lent.flatten }
      | .error fault => .failed { owner := .bank 1 b, store := s, log } fault := rfl
    rw [hwork]
    by_cases fits : ∀ widths ∈ views, total widths ≤ cellBits
    · rw [b.bridge?_of_fits s fits]
      refine served_claims (b.claims_lendWhole s) ?_ (List.forall_mem_nil _)
      intro f hf
      obtain ⟨view, hview, hf⟩ := List.mem_flatten.1 hf
      obtain ⟨widths, -, rfl⟩ := List.mem_map.1 hview
      obtain ⟨span, -, rfl⟩ := List.mem_map.1 hf
      exact b.exists_lendWhole s (List.mem_ofFn.2 ⟨0, rfl⟩)
    · rw [b.bridge?_of_wide s fits]
      exact .of_sameCells (.refl _) _

theorem Bank.served_work (field? : Access → Option Field) (b : Bank lanes) (job : Job) :
    Served field? job (.bank lanes b) s (b.work s log job).state := by
  cases job with
  | lend width =>
    by_cases fits : width ≤ cellBits
    · obtain ⟨base, index, hclaims, -⟩ := b.claims_lend width fits s
      simp only [work, lend?_of_fits b fits]
      exact served_claims hclaims (fun f hf => b.exists_lend fits hf) (List.forall_mem_nil _)
    · simp only [work, lend?_of_wide b (Nat.lt_of_not_le fits)]
      exact .of_sameCells (.refl _) _
  | lendWhole =>
    exact served_claims (b.claims_lendWhole s) (List.forall_mem_nil _)
      fun r hr => b.exists_lendWhole s hr
  | lendBridge views => exact b.served_workBridge field? views
  | clear => exact .of_sameCells (Store.sameCells_zero _ _) _
  | lendGate | connect | build | tickGates | tickSockets | tick | run | settle | resetStats
  | write => exact .of_sameCells (.refl _) _

theorem GatePool.served_work {k : GateKind} (field? : Access → Option Field) (p : GatePool k)
    (job : Job) : Served field? job (.pool k p) s (p.work s log job).state := by
  cases job with
  | lendGate k' =>
    obtain ⟨base, index, hclaims, -⟩ := p.bank.claims_lend 1 one_le_cellBits s
    exact ⟨.of_claims hclaims, ⟨[], rfl, nofun⟩,
      fun f hf => p.bank.exists_lend one_le_cellBits hf, nofun, nofun, rfl,
      fun _ => Nat.le_refl _⟩
  | tickGates k' => exact .of_sameCells (p.sameCells_tick s) _
  | clear => exact .of_sameCells (Store.sameCells_zero _ _) _
  | lend | lendWhole | lendBridge | connect | build | tickSockets | tick | run | settle
  | resetStats | write => exact .of_sameCells (.refl _) _

theorem SocketRegistry.served_work (field? : Access → Option Field) (r : SocketRegistry)
    (job : Job) : Served field? job (.registry r) s (r.work field? s log job).state := by
  cases job with
  | connect source target =>
    simp only [work]
    split
    · rename_i f g hf hg
      unfold add?
      split
      · rename_i hwidth
        refine ⟨.refl _ _, ⟨[⟨f, g, hwidth⟩], rfl, ?_⟩, nofun, nofun, nofun, rfl,
          fun _ => Nat.le_refl _⟩
        intro w hw
        obtain rfl := List.mem_singleton.1 hw
        exact .inr ⟨source, target, rfl, hf, hg⟩
      · exact .of_sameCells (.refl _) _
    · exact .of_sameCells (.refl _) _
  | tickSockets => exact .of_sameCells (r.sameCells_tick s) _
  | lend | lendWhole | lendBridge | lendGate | build | tickGates | tick | run | settle | clear
  | resetStats | write => exact .of_sameCells (.refl _) _

/-- Whoever does a job, and whatever it is, and whether it is completed or fails. -/
theorem Owner.served_serve (field? : Access → Option Field) (job : Job) (o : Owner) :
    Served field? job o s (o.serve field? job s log).state := by
  cases o with
  | cell i =>
    cases job with
    | write w => exact .of_sameCells (Store.sameCells_modify s i _) _
    | lend | lendWhole | lendBridge | lendGate | connect | build | tickGates | tickSockets | tick
    | run | settle | clear | resetStats => exact .of_sameCells (.refl _) _
  | bank lanes b => exact b.served_work field? job
  | pool k p => exact p.served_work field? job
  | simulator sim => exact Simulator.served_serve field? ⟨sim, s, log⟩ job
  | registry r => exact r.served_work field? job

end

end PackedLogic
