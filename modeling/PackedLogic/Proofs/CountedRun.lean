import PackedLogic.Proofs.Counting
import PackedLogic.Proofs.Lifetimes
set_option autoImplicit false

/-!
# Counted runs

A program that uses the counted allocators wherever the machine uses its own: in gates, bus fields and
bridges, however they are asked for, in the building of a schematic, and where a field is made of a
reference.  All else it leaves to the machine.  It can do whatever a program can do, and from nothing it
never meets a breach (`World.stays_in_bounds`), so it ends where the machine ends.
-/

namespace PackedLogic

namespace Counted

variable (limit : Nat)

/-! ## Lending from a machine -/

/-- Lends one gate. -/
def lendGate (m : Machine) (k : GateKind) :
    Except Breach (Except Fault (Machine × (Fin k.arity → Field))) := do
  let answer ← lend limit (m.sim.pool k).bank 1 m.store
  return answer.map fun l => (m.afterLending (m.sim.setPool k ⟨l.bank⟩) l, l.lent)

/-- Lends a field of the bus. -/
def lendBus (m : Machine) (width : Nat) : Except Breach (Except Fault (Machine × Field)) := do
  let answer ← lend limit m.sim.bus width m.store
  return answer.map fun (l : Lending 1 (Fin 1 → Field)) =>
    (m.afterLending { m.sim with bus := l.bank } l, l.lent ⟨0, Nat.one_pos⟩)

/-- Lends a cell of the bus and lays several views over it. -/
def lendBridge (m : Machine) (views : List (List Nat)) :
    Except Breach (Except Fault (Machine × List (List Field))) := do
  let answer ← bridge limit m.sim.bus views m.store
  return answer.map fun l => (m.afterLending { m.sim with bus := l.bank } l, l.lent)

/-! ## Building a circuit -/

/-- Carries out one declaration of an instance. -/
def declare (i : Instance) (declaration : Declaration) (d : Draft) :
    Except Breach (Except Fault Draft) :=
  match declaration with
  | .gate k _ => do
    let answer ← lendGate limit d.machine k
    return answer.map fun (machine, terminals) =>
      { d with machine }.insertPorts i.path (declaration.names.zip (List.ofFn terminals))
  | .bridge views => do
    let answer ← lendBridge limit d.machine (views.map BridgeView.widths)
    return answer.map fun (machine, fields) =>
      { d with machine }.insertPorts i.path (declaration.names.zip fields.flatten)
  | .synonym .. | .connection .. | .exposure _ => return Draft.declare? i declaration d

/-- Carries out one step for every element, in order, up to the first fault. -/
def each {α σ : Type} (step : α → σ → Except Breach (Attempt σ)) :
    List α → σ → Except Breach (Attempt σ)
  | [], s => return .done s
  | a :: as, s => do
    match ← step a s with
    | ⟨s, none⟩ => each step as s
    | ⟨s, some fault⟩ => return .failed s fault

/-- Carries out all declarations of an instance. -/
def populate (i : Instance) (d : Draft) : Except Breach (Attempt Draft) := do
  let attempt ← each (fun declaration d => (declare limit i declaration d).map (.ofExcept d))
    i.schematic.declarations d
  return attempt.andThen fun d => .done (d.reportPopulated i)

/-- Populates all instances of a schematic, from the last one to the root. -/
def populateAll (m : Machine) (s : Schematic) : Except Breach (Attempt Draft) :=
  let m := m.report (.treeInstantiated s.name s.instances.length)
  each (populate limit) s.instances.reverse { machine := m }

/-- Builds a schematic into a machine. -/
def build (m : Machine) (s : Schematic) : Except Breach Built := do
  match ← populateAll limit m s with
  | ⟨d, none⟩ => return ⟨d.machine, .ok (s.assemble d.scope [])⟩
  | ⟨d, some fault⟩ => return ⟨d.machine, .error fault⟩

/-! ## Jobs and acts -/

/-- The jobs of a simulator. -/
def serveMachine (field? : Access → Option Field) (m : Machine) : Job → Except Breach (Attempt Service)
  | .lend width => do
    let answer ← lendBus limit m width
    return match answer with
      | .ok (m', f) => .done { Service.ofMachine m' with fields := [f] }
      | .error fault => .failed (.ofMachine m) fault
  | .lendBridge views => do
    let answer ← lendBridge limit m views
    return match answer with
      | .ok (m', views) => .done { Service.ofMachine m' with fields := views.flatten }
      | .error fault => .failed (.ofMachine m) fault
  | .lendGate k => do
    let answer ← lendGate limit m k
    return match answer with
      | .ok (m', terminals) => .done { Service.ofMachine m' with fields := List.ofFn terminals }
      | .error fault => .failed (.ofMachine m) fault
  | .build s => do
    let built ← build limit m s
    return match built.circuit with
      | .ok c => .done { Service.ofMachine built.machine with circuit? := some c }
      | .error fault => .failed (.ofMachine built.machine) fault
  | job => return Simulator.serve field? m job

/-- Lends a bridge from a bank that stands for itself, if the bank has a single lane. -/
def serveBridge (views : List (List Nat)) (s : Store) (log : Array Event) :
    {lanes : Nat} → Bank lanes → Except Breach (Attempt Service)
  | 1, b => do
    let answer ← bridge limit b views s
    return match answer with
      | .ok l =>
        .done { owner := .bank 1 l.bank, store := l.store, log, fields := l.lent.flatten }
      | .error fault => .failed { owner := .bank 1 b, store := s, log } fault
  | lanes, b => return .done { owner := .bank lanes b, store := s, log }

/-- The jobs of a bank that stands for itself. -/
def serveBank {lanes : Nat} (b : Bank lanes) (s : Store) (log : Array Event) :
    Job → Except Breach (Attempt Service)
  | .lend width => do
    let answer ← lend limit b width s
    return match answer with
      | .ok l =>
        .done
          { owner := .bank lanes l.bank, store := l.store, log := log ++ l.events
            fields := List.ofFn l.lent }
      | .error fault => .failed { owner := .bank lanes b, store := s, log } fault
  | .lendBridge views => serveBridge limit views s log b
  | job => return b.work s log job

/-- The jobs of a pool that stands for itself. -/
def servePool {k : GateKind} (p : GatePool k) (s : Store) (log : Array Event) :
    Job → Except Breach (Attempt Service)
  | .lendGate _ => do
    let answer ← lend limit p.bank 1 s
    return match answer with
      | .ok l =>
        .done
          { owner := .pool k ⟨l.bank⟩, store := l.store, log := log ++ l.events
            fields := List.ofFn l.lent }
      | .error fault => .failed { owner := .pool k p, store := s, log } fault
  | job => return p.work s log job

/-- Does a job. -/
def serve (field? : Access → Option Field) (job : Job) (s : Store) (log : Array Event) :
    Owner → Except Breach (Attempt Service)
  | .bank _ b => serveBank limit b s log job
  | .pool _ p => servePool limit p s log job
  | .simulator sim => serveMachine limit field? ⟨sim, s, log⟩ job
  | o => return o.serve field? job s log

/-- Does one thing. -/
def step (w : World) : Act → Except Breach (Attempt World)
  | .work n job =>
    match w.owner? n with
    | some o => do
      let attempt ← serve limit w.field? job w.store w.log o
      return attempt.map (w.absorb n)
    | none => return .done w
  | .makeField ref offset width =>
    match w.refs[ref]? with
    | some r => do
      let answer ← make limit offset width r
      return .ofExcept w (answer.map fun f => { w with fields := w.fields ++ [f] })
    | none => return .done w
  | act => return w.step act

/-- Does one thing after the other. -/
def run (acts : List Act) (w : World) : Except Breach World :=
  acts.foldlM (fun w act => do
    let attempt ← step limit w act
    return attempt.state) w

/-! ## No breach -/

variable {limit} (hlimit : 2 * cellBits ≤ limit)

include hlimit

theorem lendGate_eq (m : Machine) (k : GateKind) : lendGate limit m k = .ok (.ok (m.lendGate k)) := by
  rw [lendGate, lend_eq hlimit, Bank.lend?_of_fits _ one_le_cellBits]
  rfl

theorem lendBus_eq (m : Machine) (width : Nat) : lendBus limit m width = .ok (m.lendBus? width) := by
  rw [lendBus, lend_eq hlimit, Machine.lendBus?]
  cases m.sim.bus.lend? width m.store <;> rfl

theorem lendBridge_eq (m : Machine) (views : List (List Nat)) :
    lendBridge limit m views = .ok (m.lendBridge? views) := by
  rw [lendBridge, bridge_eq (Nat.le_trans (by decide) hlimit), Machine.lendBridge?]
  cases m.sim.bus.bridge? views m.store <;> rfl

theorem declare_eq (i : Instance) (declaration : Declaration) (d : Draft) :
    declare limit i declaration d = .ok (Draft.declare? i declaration d) := by
  cases declaration with
  | gate k name =>
    rw [declare, lendGate_eq hlimit]
    rfl
  | bridge views =>
    rw [declare, lendBridge_eq hlimit, Draft.declare?]
    cases d.machine.lendBridge? (views.map BridgeView.widths) <;> rfl
  | synonym target name => rfl
  | connection source target => rfl
  | exposure port => rfl

omit hlimit in
/-- Steps that meet no breach can be carried out one after the other. -/
theorem each_eq {α σ : Type} {counted : α → σ → Except Breach (Attempt σ)} {step : α → σ → Attempt σ}
    (h : ∀ a s, counted a s = .ok (step a s)) (as : List α) (s : σ) :
    each counted as s = .ok (Attempt.each step as s) := by
  induction as generalizing s with
  | nil => rfl
  | cons a as ih =>
    rw [each, h, Attempt.each_cons]
    rcases step a s with ⟨s', _ | fault⟩
    · exact ih s'
    · rfl

theorem populate_eq (i : Instance) (d : Draft) :
    populate limit i d = .ok (d.populate i) := by
  have hdeclare : ∀ declaration d, (declare limit i declaration d).map (Attempt.ofExcept d) =
      .ok (Attempt.ofExcept d (Draft.declare? i declaration d)) := by
    intro declaration d
    rw [declare_eq hlimit]
    rfl
  rw [populate, each_eq hdeclare]
  rfl

theorem populateAll_eq (m : Machine) (s : Schematic) :
    populateAll limit m s = .ok (m.populateAll s) :=
  each_eq (populate_eq hlimit) _ _

theorem build_eq (m : Machine) (s : Schematic) : build limit m s = .ok (m.build s) := by
  rw [build, populateAll_eq hlimit, Machine.build]
  rcases m.populateAll s with ⟨d, _ | fault⟩ <;> rfl

theorem serveMachine_eq (field? : Access → Option Field) (m : Machine) (job : Job) :
    serveMachine limit field? m job = .ok (Simulator.serve field? m job) := by
  cases job with
  | lend width =>
    rw [serveMachine, lendBus_eq hlimit]
    rfl
  | lendBridge views =>
    rw [serveMachine, lendBridge_eq hlimit]
    rfl
  | lendGate k =>
    rw [serveMachine, lendGate_eq hlimit]
    rfl
  | build s =>
    rw [serveMachine, build_eq hlimit]
    rfl
  | lendWhole | connect | tickGates | tickSockets | tick | run | settle | clear | resetStats | write =>
    rfl

theorem serveBridge_eq (views : List (List Nat)) (s : Store) (log : Array Event) {lanes : Nat}
    (b : Bank lanes) : serveBridge limit views s log b = .ok (b.workBridge views s log) := by
  match lanes, b with
  | 0, _ | _ + 2, _ => rfl
  | 1, b =>
    change bridge limit b views s >>= _ = _
    rw [bridge_eq (Nat.le_trans (by decide) hlimit)]
    rfl

theorem serveBank_eq {lanes : Nat} (b : Bank lanes) (s : Store) (log : Array Event) (job : Job) :
    serveBank limit b s log job = .ok (b.work s log job) := by
  cases job with
  | lend width =>
    rw [serveBank, lend_eq hlimit]
    rfl
  | lendBridge views => exact serveBridge_eq hlimit views s log b
  | lendWhole | lendGate | connect | build | tickGates | tickSockets | tick | run | settle | clear
  | resetStats | write => rfl

theorem servePool_eq {k : GateKind} (p : GatePool k) (s : Store) (log : Array Event) (job : Job) :
    servePool limit p s log job = .ok (p.work s log job) := by
  cases job with
  | lendGate k' =>
    rw [servePool, lend_eq hlimit, Bank.lend?_of_fits _ one_le_cellBits]
    rfl
  | lend | lendWhole | lendBridge | connect | build | tickGates | tickSockets | tick | run | settle
  | clear | resetStats | write => rfl

theorem serve_eq (field? : Access → Option Field) (job : Job) (s : Store) (log : Array Event)
    (o : Owner) : serve limit field? job s log o = .ok (o.serve field? job s log) := by
  cases o with
  | bank lanes b => exact serveBank_eq hlimit b s log job
  | pool k p => exact servePool_eq hlimit p s log job
  | simulator sim => exact serveMachine_eq hlimit field? ⟨sim, s, log⟩ job
  | cell | registry => rfl

/-- No single act meets a breach. -/
theorem step_eq (w : World) (act : Act) : step limit w act = .ok (w.step act) := by
  cases act with
  | work n job =>
    rw [step, World.step]
    cases w.owner? n with
    | none => rfl
    | some o =>
      dsimp only
      rw [serve_eq hlimit]
      rfl
  | makeField ref offset width =>
    rw [step, World.step]
    cases w.refs[ref]? with
    | none => rfl
    | some r =>
      dsimp only
      rw [make_eq (Nat.le_trans (by decide) hlimit)]
      rfl
  | newCell | newBank | newPool | newSimulator | newRegistry | drop | refer | referTo | emptyRef | keep
  | emptyField | copyCircuit | dropCircuit | edit | update => rfl

/-- No run meets a breach. -/
theorem run_eq (acts : List Act) (w : World) : run limit acts w = .ok (w.run acts) := by
  induction acts generalizing w with
  | nil => rfl
  | cons act acts ih =>
    have hrest := ih (w.step act).state
    rw [run] at hrest ⊢
    rw [List.foldlM_cons, step_eq hlimit]
    exact hrest

end Counted

namespace World

/-- Whatever a program has done, and however large the sizes that it has asked for. -/
structure InBounds (acts : List Act) : Prop where
  /-- Every field at hand lies within a cell: those that are kept, the ports of circuits and the ends of
  sockets. -/
  fits : ∀ a f, (after acts).field? a = some f → f.offset + f.width ≤ cellBits
  /-- A field is made of a reference just where its range lies within a cell. -/
  makes : ∀ (r : CellRef) offset width,
    (offset + width ≤ cellBits ∧ ∃ f, Field.make? offset width r = .ok f ∧
        f.offset = offset ∧ f.width = width ∧ f.ref = r) ∨
      (cellBits < offset + width ∧ Field.make? offset width r = .error (.outOfBounds offset width))
  /-- No sum of sizes has exceeded 128, nor the largest size that can be counted, and all ranges and
  cursors that were formed without a test were in bounds. -/
  counted : ∀ limit, 128 ≤ limit → Counted.run limit acts {} = .ok (after acts)

/-- Everything stays in bounds. -/
theorem stays_in_bounds (acts : List Act) : InBounds acts where
  fits _ f _ := f.fits
  makes r offset width := by
    by_cases fits : offset + width ≤ cellBits
    · exact .inl ⟨fits, ⟨⟨offset, width, fits⟩, r⟩, dif_pos fits, rfl, rfl, rfl⟩
    · exact .inr ⟨Nat.lt_of_not_le fits, dif_neg fits⟩
  counted limit hlimit := Counted.run_eq hlimit acts {}

end World

end PackedLogic
