import PackedLogic.Machine.Compile
import PackedLogic.Proofs.Population
set_option autoImplicit false

/-!
# Sites

An instance of a draft works on three things: the machine, its own circuit and the circuit of its
parent.  Seen so (`Draft.site`), the draft undergoes just what a site undergoes, whether the instance
is populated or refused on the way (`Draft.site_populate`), and all other circuits stay as they are
(`Draft.circuit_populate`).
-/

namespace PackedLogic

/-- Steps that look alike through a function of the state reach states that look alike, and end with
the same fault. -/
theorem Attempt.map_each {α σ τ : Type} {g : σ → τ} {step : α → σ → Attempt σ}
    {step' : α → τ → Attempt τ} (h : ∀ a s, (step a s).map g = step' a (g s)) (as : List α) (s : σ) :
    (each step as s).map g = each step' as (g s) := by
  induction as generalizing s with
  | nil => rfl
  | cons a as ih =>
    rw [each_cons, each_cons, ← h a s]
    rcases step a s with ⟨t, _ | f⟩
    · exact ih t
    · rfl

namespace Draft

/-- The circuit of an instance so far, without those below it. -/
def circuit (d : Draft) (path : List Nat) : Circuit :=
  { ports := (d.scope path).ports, exposed := (d.scope path).exposed }

/-- What an instance of the draft works on. -/
def site (d : Draft) (i : Instance) : Site := ⟨d.machine, d.circuit i.path, i.parent?.map d.circuit⟩

variable {i : Instance}

/-! ## One port -/

theorem circuit_insertPort (d : Draft) (path : List Nat) (name : String) (f : Field)
    (p : List Nat) :
    (d.insertPort path name f).circuit p =
      if p = path then ((d.circuit path).insertPort d.machine name f).2 else d.circuit p := by
  rw [circuit, scope_insertPort]
  split <;> rfl

theorem machine_insertPort (d : Draft) (path : List Nat) (name : String) (f : Field) :
    (d.insertPort path name f).machine = ((d.circuit path).insertPort d.machine name f).1 := rfl

theorem circuit_expose (d : Draft) (path : List Nat) (name : String) (f : Field) (p : List Nat) :
    (d.expose path name f).circuit p =
      if p = path then (d.circuit path).expose name f else d.circuit p := by
  rw [circuit, expose, scope_setScope]
  split <;> rfl

/-- What changes one circuit is not seen by a parent elsewhere. -/
theorem map_parent?_congr {d d' : Draft} (h : ∀ p, p ≠ i.path → d'.circuit p = d.circuit p) :
    i.parent?.map d'.circuit = i.parent?.map d.circuit := by
  cases hparent : i.parent? with
  | none => rfl
  | some parent =>
    have hne : parent ≠ i.path := fun heq => i.parent?_ne_path (heq ▸ hparent)
    exact congrArg some (h parent hne)

theorem site_insertPort (d : Draft) (name : String) (f : Field) :
    (d.insertPort i.path name f).site i = (d.site i).insertPort name f := by
  have hparent : i.parent?.map (d.insertPort i.path name f).circuit = i.parent?.map d.circuit :=
    map_parent?_congr fun p hp => by rw [circuit_insertPort, if_neg hp]
  rw [site, hparent, circuit_insertPort, if_pos rfl, machine_insertPort]
  rfl

theorem site_insertPorts (d : Draft) (ports : List (String × Field)) :
    (d.insertPorts i.path ports).site i = (d.site i).insertPorts ports := by
  induction ports generalizing d with
  | nil => rfl
  | cons port ports ih =>
    refine (ih _).trans ?_
    rw [site_insertPort]
    rfl

theorem site_handOver (d : Draft) (port : String) (f : Field) :
    (d.handOver i port f).site i = (d.site i).handOver (memberName i.name port) f := by
  unfold handOver
  cases hparent : i.parent? with
  | none => simp only [site, Site.handOver, hparent, Option.map_none]
  | some parent =>
    have hne : i.path ≠ parent := fun heq => i.parent?_ne_path (heq ▸ hparent)
    simp only [site, Site.handOver, hparent, Option.map_some]
    rw [circuit_insertPort, if_neg hne, circuit_insertPort, if_pos rfl, machine_insertPort]

theorem site_expose (d : Draft) (name : String) (f : Field) :
    (d.expose i.path name f).site i =
      { d.site i with circuit := (d.circuit i.path).expose name f } := by
  have hparent : i.parent?.map (d.expose i.path name f).circuit = i.parent?.map d.circuit :=
    map_parent?_congr fun p hp => by rw [circuit_expose, if_neg hp]
  rw [site, hparent, circuit_expose, if_pos rfl]
  rfl

/-! ## One instance -/

/-- A declaration does to a draft what it does to the site of the instance. -/
theorem site_declare? (d : Draft) (declaration : Declaration) :
    (declare? i declaration d).map (fun d' => d'.site i) =
      Site.declare? i.name declaration (d.site i) := by
  cases declaration with
  | gate k name => exact congrArg Except.ok (site_insertPorts _ _)
  | bridge views =>
    have hlends : (d.site i).machine = d.machine := rfl
    rw [declare?, Site.declare?, hlends]
    cases d.machine.lendBridge? (views.map BridgeView.widths) with
    | error fault => rfl
    | ok lent => exact congrArg Except.ok (site_insertPorts _ _)
  | synonym target name =>
    have hport : (d.site i).circuit.port? target = d.port? i.path target := rfl
    rw [declare?, Site.declare?, hport]
    cases d.port? i.path target with
    | error fault => rfl
    | ok field => exact congrArg Except.ok (site_insertPort d name field)
  | connection source target =>
    have hport : ∀ n, (d.site i).circuit.port? n = d.port? i.path n := fun _ => rfl
    have hmachine : (d.site i).machine = d.machine := rfl
    simp only [declare?, Site.declare?, hport, hmachine]
    cases d.port? i.path source with
    | error fault => rfl
    | ok f =>
      cases d.port? i.path target with
      | error fault => rfl
      | ok g =>
        simp only [bind, Except.bind]
        cases d.machine.connect? f g with
        | error fault => rfl
        | ok machine => rfl
  | exposure port =>
    have hport : (d.site i).circuit.port? port = d.port? i.path port := rfl
    rw [declare?, Site.declare?, hport]
    cases d.port? i.path port with
    | error fault => rfl
    | ok field =>
      have hsite := site_expose (i := i) (d.handOver i port field) port field
      rw [site_handOver] at hsite
      have hcircuit : (d.handOver i port field).circuit i.path =
          ((d.site i).handOver (memberName i.name port) field).circuit := by
        rw [← site_handOver]
        rfl
      rw [hcircuit] at hsite
      exact congrArg Except.ok hsite

/-- Populating an instance does to a draft what it does to the site of the instance. -/
theorem site_populate (d : Draft) :
    (d.populate i).map (fun d' => d'.site i) =
      (d.site i).populate i.schematic i.name := by
  have hstep : ∀ (declaration : Declaration) (d : Draft),
      (Attempt.ofExcept d (declare? i declaration d)).map (fun d' => d'.site i) =
        .ofExcept (d.site i) (Site.declare? i.name declaration (d.site i)) := by
    intro declaration d
    rw [← site_declare?]
    cases declare? i declaration d <;> rfl
  rw [populate, Site.populate, ← Attempt.map_each (g := fun d' : Draft => d'.site i) hstep]
  rcases Attempt.each _ i.schematic.declarations d with ⟨e, _ | fault⟩ <;> rfl

/-- A declaration, carried out or not, leaves all circuits but two as they are. -/
theorem scope_declare? {d d' : Draft} {declaration : Declaration}
    (h : declare? i declaration d = .ok d') {p : List Nat} (hp : p ≠ i.path)
    (hparent : i.parent? ≠ some p) : d'.scope p = d.scope p := by
  cases declaration with
  | exposure port => exact (exposes_of_declare? h).others p hp hparent
  | gate | bridge | synonym | connection => exact (AddsPorts.of_declare? h nofun).others p hp

/-- An instance that is populated, or refused on the way, leaves all circuits but its own and its
parent's as they are. -/
theorem circuit_populate (d : Draft) {p : List Nat} (hp : p ≠ i.path)
    (hparent : i.parent? ≠ some p) : (d.populate i).state.circuit p = d.circuit p := by
  have hscope : ((declareAll i i.schematic.declarations d).state).scope p = d.scope p := by
    refine Attempt.each_keeps (P := fun d' : Draft => d'.scope p = d.scope p) ?_ _ rfl
    intro declaration e he
    cases hdeclare : declare? i declaration e with
    | error fault => exact he
    | ok e' => exact (scope_declare? hdeclare hp hparent).trans he
  have hstate : (d.populate i).state.scope p =
      (declareAll i i.schematic.declarations d).state.scope p := by
    rw [populate, ← declareAll]
    rcases declareAll i i.schematic.declarations d with ⟨e, _ | fault⟩ <;> rfl
  rw [circuit, hstate, hscope, circuit]

end Draft

end PackedLogic
