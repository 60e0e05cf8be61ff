import PackedLogic.Proofs.Drafts
set_option autoImplicit false

/-!
# The checker

Whether a schematic can be built, and with which fault it is refused, can be told without a
machine: only the names of ports and their widths matter.  `Schematic.check` visits the instances
in the order of building, from the last one to the root, and keeps a `Survey`, the width of every
port so far. Building has the outcome of the checker on every machine, since every declaration
does to the survey of a draft what the checker does (`Draft.survey_declare?`).
-/

namespace PackedLogic

/-- The width of every port of every instance, as far as there are ports. -/
abbrev Survey := List Nat → String → Option Nat

namespace Survey

/-- Adds a port.  One of the same name is overwritten. -/
def insert (v : Survey) (path : List Nat) (name : String) (width : Nat) : Survey :=
  fun p n => if p = path ∧ n = name then some width else v p n

/-- Adds several ports to one instance, in order. -/
def insertAll (v : Survey) (path : List Nat) (ports : List (String × Nat)) : Survey :=
  ports.foldl (fun v port => v.insert path port.1 port.2) v

/-- The width that a port has at the moment. -/
def width? (v : Survey) (path : List Nat) (name : String) : Except Fault Nat :=
  match v path name with
  | some width => .ok width
  | none => .error (.portNotFound name)

/-- Every terminal of a gate is one bit wide. -/
def addGate (path : List Nat) (v : Survey) (gate : GateKind × String) : Survey :=
  v.insertAll path ((gate.1.terminalNames gate.2).map fun name => (name, 1))

/-- The fault of the first view, counted from `n` on, that is wider than a cell. -/
def oversized? (n : Nat) : List BridgeView → Option Fault
  | [] => none
  | view :: views =>
    if 64 < total view.widths then
      some (.capacityExceeded n (min (total view.widths) (UInt64.size - 1)))
    else oversized? (n + 1) views

/-- The fields of a bridge have the widths that its views give, unless a view is too wide. -/
def addBridge? (path : List Nat) (v : Survey) (views : List BridgeView) : Except Fault Survey :=
  match oversized? 0 views with
  | some fault => .error fault
  | none => .ok (v.insertAll path (views.flatMap fun view => view.names.zip view.widths))

/-- A further name has the width of the port meant. -/
def addAlias? (path : List Nat) (v : Survey) (synonym : String × String) :
    Except Fault Survey := do
  let width ← v.width? path synonym.1
  return v.insert path synonym.2 width

/-- Both ends of a socket must be there and equally wide. -/
def checkConnection? (path : List Nat) (v : Survey) (wire : String × String) :
    Except Fault Survey := do
  let source ← v.width? path wire.1
  let target ← v.width? path wire.2
  if source = target then return v else throw (.socketSizeMismatch source target)

/-- An exposed port must be there; the parent sees it under the name of the instance. -/
def addExposed? (i : Instance) (v : Survey) (port : String) : Except Fault Survey := do
  let width ← v.width? i.path port
  match i.parent? with
  | some parent => return v.insert parent (memberName i.name port) width
  | none => return v

/-- Checks one instance: its gates kind by kind, then its bridges, aliases, connections and exposed
ports. -/
def visit? (v : Survey) (i : Instance) : Except Fault Survey := do
  let gates := GateKind.all.flatMap fun k => i.schematic.gates.filter fun g => g.1 = k
  let v := gates.foldl (addGate i.path) v
  let v ← i.schematic.bridges.foldlM (addBridge? i.path) v
  let v ← i.schematic.aliases.foldlM (addAlias? i.path) v
  let v ← i.schematic.connections.foldlM (checkConnection? i.path) v
  i.schematic.exposed.foldlM (addExposed? i) v

end Survey

/-- Checks a schematic, from its last instance to the root. -/
def Schematic.check (s : Schematic) : Except Fault Unit := do
  let _ ← s.instances.reverse.foldlM Survey.visit? fun _ _ => none
  return ()

/-! ## Sequences that may be refused -/

namespace Attempt

variable {α σ τ : Type}

/-- The state reached, unless a fault ended the work. -/
def toExcept (a : Attempt σ) : Except Fault σ :=
  match a.fault? with
  | none => .ok a.state
  | some f => .error f

@[simp] theorem toExcept_done (s : σ) : (done s).toExcept = .ok s := rfl

@[simp] theorem toExcept_ofExcept (s : σ) (e : Except Fault σ) : (ofExcept s e).toExcept = e := by
  cases e <;> rfl

theorem toExcept_andThen (a : Attempt σ) (next : σ → Attempt σ) :
    (a.andThen next).toExcept = a.toExcept.bind fun s => (next s).toExcept := by
  rcases a with ⟨s, _ | f⟩ <;> rfl

theorem toExcept_each (step : α → σ → Attempt σ) (as : List α) (s : σ) :
    (each step as s).toExcept = as.foldlM (fun s a => (step a s).toExcept) s := by
  induction as generalizing s with
  | nil => rfl
  | cons a as ih =>
    rw [each_cons, toExcept_andThen, List.foldlM_cons]
    exact congrArg _ (funext ih)

end Attempt

/-- A function that turns every step into another turns a whole sequence into the other. -/
theorem map_foldlM {α σ τ : Type} {g : σ → τ} {step : σ → α → Except Fault σ}
    {step' : τ → α → Except Fault τ} (h : ∀ s a, (step s a).map g = step' (g s) a) (as : List α)
    (s : σ) : (as.foldlM step s).map g = as.foldlM step' (g s) := by
  induction as generalizing s with
  | nil => rfl
  | cons a as ih =>
    rw [List.foldlM_cons, List.foldlM_cons, ← h]
    cases hstep : step s a with
    | error f => rfl
    | ok s' => exact ih s'

/-! ## The survey of a draft -/

namespace Draft

/-- The widths of all ports so far. -/
def survey (d : Draft) : Survey := fun path name => (d.field? path name).map fun f => f.width

theorem survey_insertPort (d : Draft) (path : List Nat) (name : String) (f : Field) :
    (d.insertPort path name f).survey = d.survey.insert path name f.width := by
  funext p n
  rw [survey, field?_insertPort, Survey.insert]
  split
  · rfl
  · rfl

theorem survey_insertPorts (d : Draft) (path : List Nat) (ports : List (String × Field)) :
    (d.insertPorts path ports).survey =
      d.survey.insertAll path (ports.map fun port => (port.1, port.2.width)) := by
  induction ports generalizing d with
  | nil => rfl
  | cons port ports ih =>
    have hrest := ih (d.insertPort path port.1 port.2)
    rw [survey_insertPort] at hrest
    exact hrest

theorem survey_expose (d : Draft) (path : List Nat) (name : String) (f : Field) :
    (d.expose path name f).survey = d.survey := by
  funext p n
  rw [survey, field?_expose, survey]

theorem width?_survey (d : Draft) (path : List Nat) (name : String) :
    d.survey.width? path name = (d.port? path name).map fun f => f.width := by
  rw [port?_eq, Survey.width?, survey]
  cases d.field? path name <;> rfl

end Draft

/-- Names that belong to fields of given widths. -/
theorem map_zip_width {names : List String} {fields : List Field} {widths : List Nat}
    (h : fields.map (fun f => f.width) = widths) :
    (names.zip fields).map (fun port => (port.1, port.2.width)) = names.zip widths := by
  subst h
  rw [List.zip_map_right]
  rfl

theorem zip_replicate_length {α β : Type} (l : List α) (b : β) :
    l.zip (List.replicate l.length b) = l.map fun a => (a, b) := by
  induction l with
  | nil => rfl
  | cons a l ih => rw [List.length_cons, List.replicate_succ, List.zip_cons_cons, ih, List.map_cons]

theorem map_width_tile (offset : Nat) (widths : List Nat)
    (fits : offset + total widths ≤ cellBits) :
    (Span.tile offset widths fits).map (fun span => span.width) = widths := by
  induction widths generalizing offset with
  | nil => rfl
  | cons width widths ih => rw [Span.tile, List.map_cons, ih]

/-- The fields of all views of a bridge go with the names of all views, view by view. -/
theorem zip_flatMap_views (views : List BridgeView) :
    (views.flatMap BridgeView.names).zip (views.flatMap BridgeView.widths) =
      views.flatMap fun view => view.names.zip view.widths := by
  refine zip_flatMap fun view _ => ?_
  rw [BridgeView.names, List.length_map, List.length_range]

theorem oversized?_eq_none_iff {n : Nat} {views : List BridgeView} :
    Survey.oversized? n views = none ↔ ∀ view ∈ views, total view.widths ≤ cellBits := by
  induction views generalizing n with
  | nil => simp [Survey.oversized?]
  | cons view views ih =>
    rw [Survey.oversized?, List.forall_mem_cons, cellBits_eq]
    split
    · rename_i hwide
      exact ⟨nofun, fun h => absurd h.1 (Nat.not_le_of_lt hwide)⟩
    · rename_i hfits
      rw [ih, cellBits_eq]
      exact ⟨fun h => ⟨Nat.le_of_not_lt hfits, h⟩, fun h => h.2⟩

/-- The first view that is too wide is the one that a machine reports. -/
theorem oversized?_eq_some {n : Nat} {views : List BridgeView}
    (h : ¬ ∀ view ∈ views, total view.widths ≤ cellBits) :
    ∃ i, Survey.oversized? n views = some (.capacityExceeded (n + i)
        (min (total ((views.map BridgeView.widths).getD i [])) largestSize)) ∧
      (views.map BridgeView.widths).findIdx (fun widths => cellBits < total widths) = i := by
  induction views generalizing n with
  | nil => exact absurd (fun _ => nofun) h
  | cons view views ih =>
    rw [Survey.oversized?, List.map_cons, List.findIdx_cons]
    by_cases hwide : 64 < total view.widths
    · rw [if_pos hwide, cellBits_eq, decide_eq_true hwide]
      exact ⟨0, rfl, rfl⟩
    · rw [if_neg hwide, cellBits_eq, decide_eq_false hwide]
      obtain ⟨i, hsome, hidx⟩ := ih (n := n + 1) fun hall =>
        h (List.forall_mem_cons.2 ⟨Nat.le_of_not_lt hwide, hall⟩)
      refine ⟨i + 1, ?_, ?_⟩
      · rw [hsome, List.getD_cons_succ, Nat.add_right_comm, Nat.add_assoc]
      · rw [← hidx, cellBits_eq]
        rfl

/-! ## Declarations -/

/-- What the checker does for one declaration. -/
def Survey.declare? (i : Instance) (v : Survey) : Declaration → Except Fault Survey
  | .gate k name => .ok (addGate i.path v (k, name))
  | .bridge views => addBridge? i.path v views
  | .synonym target name => addAlias? i.path v (target, name)
  | .connection source target => checkConnection? i.path v (source, target)
  | .exposure port => addExposed? i v port

theorem Survey.visit?_eq (i : Instance) (v : Survey) :
    visit? v i = i.schematic.declarations.foldlM (declare? i) v := by
  have hgates : ∀ (gates : List (GateKind × String)) (v : Survey),
      (gates.map fun g => Declaration.gate g.1 g.2).foldlM (declare? i) v =
        .ok (gates.foldl (addGate i.path) v) := by
    intro gates
    induction gates with
    | nil => exact fun v => rfl
    | cons g gates ih =>
      intro v
      rw [List.map_cons, List.foldlM_cons]
      exact ih (addGate i.path v g)
  unfold visit? Schematic.declarations
  rw [← List.map_flatMap]
  simp only [List.foldlM_append, hgates, List.foldlM_map, bind_assoc]
  rfl

namespace Draft

variable {d : Draft} {i : Instance}

theorem survey_declare?_gate (k : GateKind) (name : String) :
    (declare? i (.gate k name) d).map survey = d.survey.declare? i (.gate k name) := by
  obtain ⟨row, -, -, -, hcut⟩ := d.machine.lends_lendGate k
  have hlength : (k.terminalNames name).length = k.arity := by
    rw [GateKind.terminalNames, List.length_map, List.length_range]
  have hones : (List.ofFn (d.machine.lendGate k).2).map (fun f => f.width) =
      List.replicate (k.terminalNames name).length 1 := by
    rw [List.map_ofFn, List.eq_replicate_iff]
    refine ⟨List.length_ofFn.trans hlength.symm, ?_⟩
    intro n hn
    obtain ⟨lane, rfl⟩ := List.mem_ofFn.1 hn
    exact (hcut lane).width_eq
  rw [declare?_gate]
  refine congrArg Except.ok ((survey_insertPorts _ _ _).trans ?_)
  rw [map_zip_width hones, zip_replicate_length]
  rfl

theorem survey_declare?_bridge (views : List BridgeView) :
    (declare? i (.bridge views) d).map survey = d.survey.declare? i (.bridge views) := by
  by_cases fits : ∀ view ∈ views, total view.widths ≤ cellBits
  · have fits' : ∀ widths ∈ views.map BridgeView.widths, total widths ≤ cellBits :=
      List.forall_mem_map.2 fits
    obtain ⟨m', fields, hok, row, -, -, -, -, rfl⟩ := d.machine.lends_lendBridge? fits'
    have hwidths : ((views.map BridgeView.widths).map fun widths =>
        (Span.tiles widths).map fun span => (⟨span, .ofCell row.base⟩ : Field)).flatten.map
          (fun f => f.width) = views.flatMap BridgeView.widths := by
      rw [List.map_flatten, List.map_map, List.map_map, List.flatMap_def]
      refine congrArg List.flatten (List.map_congr_left fun view hview => ?_)
      rw [Function.comp_apply, Function.comp_apply, List.map_map, Span.tiles,
        dif_pos (fits view hview)]
      exact map_width_tile 0 view.widths _
    rw [declare?_bridge_of_ok hok, Survey.declare?, Survey.addBridge?,
      oversized?_eq_none_iff.2 fits]
    refine congrArg Except.ok ((survey_insertPorts _ _ _).trans ?_)
    rw [map_zip_width hwidths, zip_flatMap_views]
    rfl
  · have fits' : ¬ ∀ widths ∈ views.map BridgeView.widths, total widths ≤ cellBits :=
      fun h => fits (List.forall_mem_map.1 h)
    obtain ⟨n, hsome, hidx⟩ := oversized?_eq_some (n := 0) fits
    rw [declare?_bridge_of_wide fits', Survey.declare?, Survey.addBridge?, hsome,
      oversizedView_eq, hidx, Nat.zero_add]
    rfl

theorem survey_declare?_synonym (target name : String) :
    (declare? i (.synonym target name) d).map survey =
      d.survey.declare? i (.synonym target name) := by
  rw [declare?, Survey.declare?, Survey.addAlias?, width?_survey]
  cases d.port? i.path target with
  | error f => rfl
  | ok field => exact congrArg Except.ok (survey_insertPort d i.path name field)

theorem survey_declare?_connection (source target : String) :
    (declare? i (.connection source target) d).map survey =
      d.survey.declare? i (.connection source target) := by
  rw [declare?, Survey.declare?, Survey.checkConnection?, width?_survey, width?_survey]
  cases d.port? i.path source with
  | error f => rfl
  | ok f =>
    cases d.port? i.path target with
    | error f => rfl
    | ok g =>
      by_cases heq : f.width = g.width
      · have hconnect := d.machine.connect?_of_eq heq
        simp only [hconnect, Except.map, bind, Except.bind, pure, Except.pure, if_pos heq]
        rfl
      · have hconnect := d.machine.connect?_of_ne heq
        simp only [hconnect, Except.map, bind, Except.bind, if_neg heq, throw, throwThe,
          MonadExceptOf.throw]

theorem survey_declare?_exposure (port : String) :
    (declare? i (.exposure port) d).map survey = d.survey.declare? i (.exposure port) := by
  rw [declare?, Survey.declare?, Survey.addExposed?, width?_survey]
  cases d.port? i.path port with
  | error f => rfl
  | ok f =>
    cases i.parent? with
    | none => exact congrArg Except.ok (survey_expose d i.path port f)
    | some parent =>
      refine congrArg Except.ok ((survey_expose _ i.path port f).trans ?_)
      exact survey_insertPort d parent (memberName i.name port) f

/-- Every declaration does to the survey what the checker does. -/
theorem survey_declare? (declaration : Declaration) :
    (declare? i declaration d).map survey = d.survey.declare? i declaration := by
  cases declaration with
  | gate k name => exact survey_declare?_gate k name
  | bridge views => exact survey_declare?_bridge views
  | synonym target name => exact survey_declare?_synonym target name
  | connection source target => exact survey_declare?_connection source target
  | exposure port => exact survey_declare?_exposure port

theorem survey_populate (i : Instance) (d : Draft) :
    (d.populate i).toExcept.map survey = d.survey.visit? i := by
  rw [populate, Attempt.toExcept_andThen, Attempt.toExcept_each, Survey.visit?_eq]
  simp only [Attempt.toExcept_ofExcept]
  rw [← map_foldlM fun d declaration => survey_declare? (d := d) declaration]
  cases i.schematic.declarations.foldlM (fun d declaration => declare? i declaration d) d with
  | error f => rfl
  | ok d' => rfl

end Draft

/-- Building a schematic has the outcome of the checker, on every machine: it succeeds exactly
when the checker accepts the schematic, and fails with the fault with which the checker rejects
it. -/
theorem Machine.build_outcome (m : Machine) (s : Schematic) :
    (m.build s).circuit.map (fun _ => ()) = s.check := by
  have hall : (m.populateAll s).toExcept.map Draft.survey =
      s.instances.reverse.foldlM Survey.visit? fun _ _ => none := by
    rw [populateAll, Attempt.toExcept_each, map_foldlM fun d i => d.survey_populate i]
    rfl
  rw [build, Schematic.check, ← hall]
  rcases m.populateAll s with ⟨d, _ | f⟩
  · rfl
  · rfl

end PackedLogic
