import PackedLogic.Proofs.Rearrangement
import PackedLogic.Proofs.Tenancy
set_option autoImplicit false

/-!
# The order of declarations

Gates and bridges that are declared in another order are lent elsewhere, so the circuits built of a
schematic and of a rearranged one are linked row by row, with the rows of the one side in the order
of the other (`TwinDrafts.lays`).  From outside nobody can tell the circuits apart
(`Tenancy.order_unobservable`).
-/

namespace PackedLogic

/-! ## What is lent for a declaration -/

/-- A field cut from a row: its lane, its first bit, and the number of its bits. -/
structure Cutting where
  lane : Nat
  offset : Nat
  width : Nat

/-- Bits of one bank, and the fields cut from them. -/
structure Blueprint where
  part : Part
  width : Nat
  cuts : List Cutting

namespace Declaration

/-- The bits that a declaration asks for, if it asks for any. -/
def blueprint? : Declaration → Option Blueprint
  | gate k _ => some ⟨.gates k, 1, (List.finRange k.arity).map fun lane : Fin k.arity => ⟨lane, 0, 1⟩⟩
  | bridge views => some ⟨.bus, cellBits, (views.map BridgeView.widths).flatMap fun widths =>
      (Span.tiles widths).map fun span => ⟨0, span.offset, span.width⟩⟩
  | synonym .. | connection .. | exposure _ => none

/-- A view of the bridge is wider than a cell. -/
def Oversized : Declaration → Prop
  | bridge views => ¬ ∀ widths ∈ views.map BridgeView.widths, total widths ≤ cellBits
  | gate .. | synonym .. | connection .. | exposure _ => False

end Declaration

/-- A declaration, the row that has been lent for it, and the fields cut from the row. -/
structure Laid where
  declaration : Declaration
  row : Row
  fields : List Field

namespace Laid

/-- The row and the fields are what the declaration asks for. -/
structure Fits (x : Laid) (blueprint : Blueprint) : Prop where
  blueprint? : x.declaration.blueprint? = some blueprint
  part : x.row.part = blueprint.part
  width : x.row.width = blueprint.width
  cuts : List.Forall₂ (fun cut f => x.row.Cut cut.lane cut.offset cut.width f) blueprint.cuts x.fields

/-- The names that the declaration gives to the fields. -/
def ports (x : Laid) : List (String × Field) := x.declaration.names.zip x.fields

end Laid

namespace Draft

variable {d d' e : Draft} {i : Instance} {path : List Nat}

/-- Gates and bridges are lent unless a view is wider than a cell. -/
theorem exists_laid (d : Draft) (i : Instance) {declaration : Declaration}
    (hlends : declaration.blueprint?.isSome = true) (hfits : ¬ declaration.Oversized) :
    ∃ (x : Laid) (blueprint : Blueprint) (m : Machine), x.declaration = declaration ∧ x.Fits blueprint ∧
      d.machine.Lends m x.row ∧
      declare? i declaration d = .ok ({ d with machine := m }.insertPorts i.path x.ports) := by
  cases declaration with
  | gate k name =>
    obtain ⟨row, hpart, hwidth, hlends, hcut⟩ := d.machine.lends_lendGate k
    refine ⟨⟨.gate k name, row, List.ofFn (d.machine.lendGate k).2⟩, _, _, rfl,
      ⟨rfl, hpart, hwidth, ?_⟩, hlends, declare?_gate d i k name⟩
    rw [List.ofFn_eq_map, List.forall₂_map_left_iff, List.forall₂_map_right_iff, List.forall₂_same]
    exact fun lane _ => hcut lane
  | bridge views =>
    obtain ⟨m, fields, hok, row, hpart, hwidth, hlends, hcut, rfl⟩ :=
      d.machine.lends_lendBridge? (Classical.not_not.1 hfits)
    refine ⟨⟨.bridge views, row, _⟩, _, m, rfl, ⟨rfl, hpart, hwidth, ?_⟩, hlends,
      declare?_bridge_of_ok hok⟩
    rw [← List.flatMap_def, ← List.map_flatMap, ← List.map_flatMap, List.forall₂_map_left_iff,
      List.forall₂_map_right_iff, List.forall₂_same]
    exact fun span _ => hcut span
  | synonym target name => cases hlends
  | connection source target => cases hlends
  | exposure port => cases hlends

theorem isDone_declareAll_of_oversized {declarations : List Declaration}
    (h : ∃ declaration ∈ declarations, declaration.Oversized) (d : Draft) :
    (declareAll i declarations d).isDone = false := by
  obtain ⟨declaration, hmem, hover⟩ := h
  obtain ⟨before, after, rfl⟩ := List.append_of_mem hmem
  cases declaration with
  | bridge views =>
    rw [declareAll, Attempt.each_append]
    rcases hbefore : Attempt.each _ before d with ⟨e, _ | fault⟩
    · rw [Attempt.andThen, Attempt.each_cons, declare?_bridge_of_wide hover]
      rfl
    · rfl
  | gate | synonym | connection | exposure => cases hover

/-! ## Ports of any order -/

theorem field?_insertPort_congr (h : d.field? = e.field?) (path : List Nat) (name : String)
    (f : Field) : (d.insertPort path name f).field? = (e.insertPort path name f).field? := by
  funext p n
  rw [field?_insertPort, field?_insertPort, h]

theorem field?_insertPorts_congr (h : d.field? = e.field?) (path : List Nat)
    (ports : List (String × Field)) :
    (d.insertPorts path ports).field? = (e.insertPorts path ports).field? := by
  induction ports generalizing d e with
  | nil => exact h
  | cons port ports ih => exact ih (field?_insertPort_congr h path port.1 port.2)

/-- Ports of different names may be inserted in any order. -/
theorem field?_insertPorts_perm {ports ports' : List (String × Field)} (hperm : ports.Perm ports')
    (hnodup : (ports.map Prod.fst).Nodup) (d : Draft) (path : List Nat) :
    (d.insertPorts path ports).field? = (d.insertPorts path ports').field? := by
  induction hperm generalizing d with
  | nil => rfl
  | cons port _ ih => exact ih (List.nodup_cons.1 hnodup).2 (d.insertPort path port.1 port.2)
  | swap port port' ports =>
    have hne : port'.1 ≠ port.1 := by simp_all
    refine field?_insertPorts_congr ?_ path ports
    funext p n
    simp only [field?_insertPort]
    by_cases hn : n = port.1
    · simp [hn, hne.symm]
    · simp [hn]
  | trans hfirst _ ih ih' =>
    exact (ih hnodup d).trans (ih' ((hfirst.map Prod.fst).nodup_iff.1 hnodup) d)

/-- The machine has lent what declarations ask for, and the fields have got their names. -/
structure Lays (path : List Nat) (d d' : Draft) (laid : List Laid) : Prop where
  lends : d.machine.LendsAll d'.machine (laid.map Laid.row)
  fits : ∀ x ∈ laid, ∃ blueprint, x.Fits blueprint
  ports : d'.field? = (d.insertPorts path (laid.flatMap Laid.ports)).field?

theorem exists_lays {declarations : List Declaration}
    (hlends : ∀ declaration ∈ declarations, declaration.blueprint?.isSome = true)
    (hfits : ∀ declaration ∈ declarations, ¬ declaration.Oversized)
    (howns : d.machine.sim.Owns d.machine.store) (hclean : d.machine.sim.Clean d.machine.store) :
    ∃ d' laid, declareAll i declarations d = .done d' ∧
      laid.map Laid.declaration = declarations ∧ Lays i.path d d' laid := by
  induction declarations generalizing d with
  | nil => exact ⟨d, [], rfl, rfl, .nil howns hclean, nofun, rfl⟩
  | cons declaration declarations ih =>
    obtain ⟨hhead, htail⟩ := List.forall_mem_cons.1 hlends
    obtain ⟨hhead', htail'⟩ := List.forall_mem_cons.1 hfits
    obtain ⟨x, blueprint, m, rfl, hx, hlent, hok⟩ := exists_laid d i hhead hhead'
    have hlent' : d.machine.Lends ({ d with machine := m }.insertPorts i.path x.ports).machine x.row :=
      hlent.of_eq (sim_insertPorts _ _ _) (store_insertPorts _ _ _)
    obtain ⟨d', laid, hdone, hdeclarations, hlays⟩ :=
      ih htail htail' (hlent'.owns howns) (hlent'.clean hclean)
    refine ⟨d', x :: laid, ?_, by rw [List.map_cons, hdeclarations], ?_, ?_, ?_⟩
    · rw [declareAll, Attempt.each_cons, hok]
      exact hdone
    · exact .cons howns hclean hlent' hlays.lends
    · exact List.forall_mem_cons.2 ⟨⟨blueprint, hx⟩, hlays.fits⟩
    · have hmachine : ({ d with machine := m } : Draft).field? = d.field? := rfl
      rw [hlays.ports, List.flatMap_cons, insertPorts_append]
      exact field?_insertPorts_congr (field?_insertPorts_congr hmachine _ _) _ _

/-- Declarations that give every name once may be told in any order. -/
theorem Lays.perm {laid laid' : List Laid} (h : Lays path d d' laid) (hperm : laid.Perm laid')
    (hnodup : ((laid.flatMap Laid.ports).map Prod.fst).Nodup) : Lays path d d' laid' :=
  ⟨h.lends.perm (hperm.map _), fun x hx => h.fits x (hperm.mem_iff.2 hx),
    h.ports.trans (field?_insertPorts_perm (hperm.flatMap fun _ _ => .refl _) hnodup d path)⟩

end Draft

/-! ## Both sides -/

/-- Fields that are cut in the same way are related if the same cuts are. -/
theorem forall₂_of_cuts {R : Field → Field → Prop} {P Q : Cutting → Field → Prop}
    {cuts : List Cutting} {fields fields' : List Field} (h : List.Forall₂ P cuts fields)
    (h' : List.Forall₂ Q cuts fields') (hR : ∀ cut f g, P cut f → Q cut g → R f g) :
    List.Forall₂ R fields fields' := by
  induction h generalizing fields' with
  | nil =>
    cases h'
    exact .nil
  | cons hf _ ih =>
    cases h' with
    | cons hg hrest => exact .cons (hR _ _ _ hf hg) (ih hrest)

section

variable {links : List (Row × Row)} {others : Field → Prop} {d d' e e' : Draft} {i j : Instance}
  {path : List Nat} {laid laid' : List Laid}

/-- The same declarations have been carried out on both sides, in the same order as they are told. -/
theorem TwinDrafts.lays_of_forall₂ (h : TwinDrafts links others d e) (hd : Draft.Lays path d d' laid)
    (he : Draft.Lays path e e' laid')
    (hsame : List.Forall₂ (fun x y => y.declaration = x.declaration) laid laid') :
    ∃ links, TwinDrafts links others d' e' := by
  have hmem : ∀ {x y : Laid}, (x, y) ∈ laid.zip laid' → y.declaration = x.declaration ∧
      x ∈ laid ∧ y ∈ laid' ∧ (x.row, y.row) ∈ (laid.map Laid.row).zip (laid'.map Laid.row) := by
    intro x y hxy
    have hrows : (x.row, y.row) ∈ (laid.zip laid').map (Prod.map Laid.row Laid.row) :=
      List.mem_map_of_mem hxy
    rw [← List.zip_map] at hrows
    exact ⟨List.forall₂_zip hsame hxy, (List.of_mem_zip hxy).1, (List.of_mem_zip hxy).2, hrows⟩
  have hblueprints : ∀ {x y : Laid}, (x, y) ∈ laid.zip laid' →
      ∃ blueprint, x.Fits blueprint ∧ y.Fits blueprint := by
    intro x y hxy
    obtain ⟨hdeclaration, hx, hy, -⟩ := hmem hxy
    obtain ⟨blueprint, hfits⟩ := hd.fits x hx
    obtain ⟨blueprint', hfits'⟩ := he.fits y hy
    have hblueprint := hfits'.blueprint?
    rw [hdeclaration, hfits.blueprint?] at hblueprint
    obtain rfl := Option.some.inj hblueprint
    exact ⟨blueprint, hfits, hfits'⟩
  have hshape : List.Forall₂ Row.SameShape (laid.map Laid.row) (laid'.map Laid.row) := by
    rw [List.forall₂_map_left_iff, List.forall₂_map_right_iff, List.forall₂_iff_zip]
    refine ⟨hsame.length_eq, fun hxy => ?_⟩
    obtain ⟨blueprint, hfits, hfits'⟩ := hblueprints hxy
    exact ⟨hfits'.part.trans hfits.part.symm, hfits'.width.trans hfits.width.symm⟩
  refine ⟨_, h.twins.lendAll hd.lends he.lends hshape, hd.lends.clean, he.lends.clean, ?_⟩
  rw [hd.ports, he.ports]
  refine AlikePorts.insertPorts path ?_ (h.ports.mono hd.lends.grows he.lends.grows fun hab =>
    linked_append.2 (Or.inr hab))
  have hzip : List.Forall₂ (fun x y => (x, y) ∈ laid.zip laid') laid laid' :=
    List.forall₂_iff_zip.2 ⟨hsame.length_eq, id⟩
  refine List.rel_flatMap hzip fun x y hxy => ?_
  obtain ⟨hdeclaration, hx, hy, hrows⟩ := hmem hxy
  obtain ⟨blueprint, hfits, hfits'⟩ := hblueprints hxy
  rw [Laid.ports, Laid.ports, hdeclaration]
  refine forall₂_zip_names (forall₂_of_cuts hfits.cuts hfits'.cuts fun cut f g hf hg => ?_) _
  exact hf.alike hg (hd.lends.hasRow _ (List.mem_map_of_mem hx))
    (he.lends.hasRow _ (List.mem_map_of_mem hy)) (List.mem_append_left _ hrows)

/-- Names that are given to fields are names of the declarations. -/
theorem sublist_names (laid : List Laid) : ((laid.flatMap Laid.ports).map Prod.fst).Sublist
    ((laid.map Laid.declaration).flatMap Declaration.names) := by
  have hzip : ∀ (names : List String) (fields : List Field),
      ((names.zip fields).map Prod.fst).Sublist names := by
    intro names
    induction names with
    | nil => exact fun _ => .refl _
    | cons name names ih =>
      intro fields
      cases fields with
      | nil => exact List.nil_sublist _
      | cons f fields => exact (ih fields).cons_cons name
  induction laid with
  | nil => exact .refl _
  | cons x laid ih =>
    rw [List.flatMap_cons, List.map_append, List.map_cons, List.flatMap_cons]
    exact (hzip _ _).append ih

/-- The same declarations have been carried out on both sides in any order, and none of their names
comes twice. -/
theorem TwinDrafts.lays (h : TwinDrafts links others d e) (hd : Draft.Lays path d d' laid)
    (he : Draft.Lays path e e' laid')
    (hperm : (laid.map Laid.declaration).Perm (laid'.map Laid.declaration))
    (hnodup : ((laid.map Laid.declaration).flatMap Declaration.names).Nodup) :
    ∃ links, TwinDrafts links others d' e' := by
  have hown : List.Forall₂ (fun declaration (x : Laid) => x.declaration = declaration)
      (laid'.map Laid.declaration) laid' :=
    List.forall₂_map_left_iff.2 (List.forall₂_same.2 fun _ _ => rfl)
  -- The right side is told in the order of the left one.
  obtain ⟨told, htold, hsort⟩ := List.perm_comp_forall₂ hperm hown
  have hnodup' : ((laid'.flatMap Laid.ports).map Prod.fst).Nodup :=
    ((hperm.flatMap fun _ _ => .refl _).nodup_iff.1 hnodup).sublist (sublist_names laid')
  exact h.lays_of_forall₂ hd (he.perm hsort.symm hnodup') (List.forall₂_map_left_iff.1 htold)

end

/-! ## Exposed ports of any order -/

namespace Draft

variable {d d' e : Draft} {i j : Instance} {ports : List String}

/-- Ports are exposed unless one of them is missing. -/
theorem isDone_exposures_iff :
    (declareAll i (ports.map .exposure) d).isDone = true ↔
      ∀ port ∈ ports, (d.field? i.path port).isSome = true := by
  induction ports generalizing d with
  | nil => exact ⟨fun _ => nofun, fun _ => rfl⟩
  | cons port ports ih =>
    rw [List.forall_mem_cons, List.map_cons, declareAll, Attempt.each_cons]
    cases hport : d.field? i.path port with
    | none =>
      have hrefused : declare? i (.exposure port) d = .error (.portNotFound port) := by
        rw [declare?, port?_eq, hport]
        rfl
      rw [hrefused]
      constructor
      · intro hdone
        cases hdone
      · rintro ⟨hsome, -⟩
        cases hsome
    | some f =>
      have hok : declare? i (.exposure port) d =
          .ok ((d.handOver i port f).expose i.path port f) := by
        rw [declare?, port?_eq, hport]
        rfl
      have hown := (exposes_of_declare? hok).own
      rw [hok, Attempt.ofExcept, Attempt.done_andThen, ← declareAll, ih]
      simp only [hown, Option.isSome_some, true_and]

/-- Exposing ports leaves the machine as it is. -/
theorem machine_exposures (h : declareAll i (ports.map .exposure) d = .done d') :
    d'.machine.sim = d.machine.sim ∧ d'.machine.store = d.machine.store := by
  induction ports generalizing d with
  | nil =>
    obtain rfl : d = d' := congrArg Attempt.state h
    exact ⟨rfl, rfl⟩
  | cons port ports ih =>
    obtain ⟨e, hstep, hrest⟩ := exists_of_declareAll_cons h
    obtain ⟨f, -, rfl⟩ := declare?_exposure_eq_ok hstep
    obtain ⟨hsim, hstore⟩ := machine_handOver i port f d
    obtain ⟨hsim', hstore'⟩ := ih hrest
    exact ⟨hsim'.trans hsim, hstore'.trans hstore⟩

/-- What an instance does depends on its place and its name alone. -/
theorem declareAll_congr (hpath : j.path = i.path) (hname : j.name = i.name)
    (declarations : List Declaration) :
    declareAll j declarations d = declareAll i declarations d := by
  have hparent : j.parent? = i.parent? := by rw [Instance.parent?, Instance.parent?, hpath]
  have hdeclare : ∀ (declaration : Declaration) (d : Draft),
      declare? j declaration d = declare? i declaration d := by
    intro declaration d
    cases declaration <;> simp only [declare?, hpath, hname, hparent]
  simp only [declareAll, hdeclare]

end Draft

theorem Attempt.exists_of_isDone {σ : Type} {a : Attempt σ} (h : a.isDone = true) :
    ∃ s, a = .done s := by
  obtain ⟨s, _ | fault⟩ := a
  · exact ⟨s, rfl⟩
  · cases h

section

variable {links : List (Row × Row)} {others : Field → Prop} {d d' e e' : Draft} {i j : Instance}

/-- The same ports have been shown on both sides, in any order. -/
theorem AlikePorts.exposes {sim sim' : Simulator} (h : AlikePorts links sim sim' d.field? e.field?)
    {ports ports' : List String} (hperm : ports.Perm ports') (hd : Draft.Exposes i ports d d')
    (he : Draft.Exposes i ports' e e') : AlikePorts links sim sim' d'.field? e'.field? := by
  intro p n
  by_cases hp : p = i.path
  · rw [hp, hd.own, he.own]
    exact h i.path n
  by_cases hhanded : i.parent? = some p ∧ ∃ port ∈ ports, n = memberName i.name port
  · obtain ⟨hparent, port, hport, rfl⟩ := hhanded
    obtain ⟨f, hf, -, hup⟩ := hd.shown port hport
    obtain ⟨g, hg, -, hup'⟩ := he.shown port (hperm.mem_iff.1 hport)
    rw [hup p hparent, hup' p hparent]
    have hfg := h i.path port
    rwa [hf, hg] at hfg
  · have hother : i.parent? = some p → ∀ port ∈ ports, n ≠ memberName i.name port :=
      fun hparent port hport hn => hhanded ⟨hparent, port, hport, hn⟩
    rw [hd.unnamed p n hp hother, he.unnamed p n hp fun hparent port hport =>
      hother hparent port (hperm.mem_iff.2 hport)]
    exact h p n

namespace TwinDrafts

theorem exposures (h : TwinDrafts links others d e) {ports ports' : List String}
    (hperm : ports.Perm ports') :
    Attempt.Agree (fun d e => ∃ links, TwinDrafts links others d e)
      (Draft.declareAll i (ports.map .exposure) d)
      (Draft.declareAll i (ports'.map .exposure) e) := by
  have hsame : ∀ port, (e.field? i.path port).isSome = (d.field? i.path port).isSome := by
    intro port
    rcases h.ports i.path port with ⟨hf, hg⟩ | ⟨f, g, hf, hg, -⟩
    · rw [hf, hg]
    · rw [hf, hg]
      rfl
  have hdone : (Draft.declareAll i (ports.map .exposure) d).isDone =
      (Draft.declareAll i (ports'.map .exposure) e).isDone := by
    rw [Bool.eq_iff_iff, Draft.isDone_exposures_iff, Draft.isDone_exposures_iff]
    simp only [hsame, hperm.mem_iff]
  cases hleft : (Draft.declareAll i (ports.map .exposure) d).isDone with
  | false => exact .inl ⟨hleft, by rw [← hdone, hleft]⟩
  | true =>
    obtain ⟨d', hd⟩ := Attempt.exists_of_isDone hleft
    obtain ⟨e', he⟩ := Attempt.exists_of_isDone (hdone.symm.trans hleft)
    obtain ⟨hsim, hstore⟩ := Draft.machine_exposures hd
    obtain ⟨hsim', hstore'⟩ := Draft.machine_exposures he
    rw [hd, he]
    exact .of_done ⟨links, h.of_eq hsim hstore hsim' hstore'
      (h.ports.exposes hperm (Draft.exposes_declareAll hd) (Draft.exposes_declareAll he))⟩

theorem lendings (h : TwinDrafts links others d e) {s t : Schematic} (hparts : s.SameParts t)
    (hnodup : (s.lendings.flatMap Declaration.names).Nodup) :
    Attempt.Agree (fun d e => ∃ links, TwinDrafts links others d e)
      (Draft.declareAll i s.lendings d) (Draft.declareAll i t.lendings e) := by
  have hlends : ∀ declaration ∈ s.lendings, declaration.blueprint?.isSome = true := by
    intro declaration hmem
    simp only [Schematic.lendings, List.mem_append, List.mem_flatMap, List.mem_map] at hmem
    rcases hmem with ⟨k, -, g, -, rfl⟩ | ⟨views, -, rfl⟩
    · rfl
    · rfl
  by_cases hover : ∃ declaration ∈ s.lendings, declaration.Oversized
  · obtain ⟨declaration, hmem, hwide⟩ := hover
    exact .inl ⟨Draft.isDone_declareAll_of_oversized ⟨declaration, hmem, hwide⟩ d,
      Draft.isDone_declareAll_of_oversized ⟨declaration, hparts.lendings.mem_iff.1 hmem, hwide⟩ e⟩
  · have hfits : ∀ declaration ∈ s.lendings, ¬ declaration.Oversized :=
      fun declaration hmem hwide => hover ⟨declaration, hmem, hwide⟩
    obtain ⟨d', laid, hd, hdeclarations, hlays⟩ :=
      Draft.exists_lays (i := i) hlends hfits h.twins.left h.cleanLeft
    obtain ⟨e', laid', he, hdeclarations', hlays'⟩ :=
      Draft.exists_lays (i := i) (fun x hx => hlends x (hparts.lendings.mem_iff.2 hx))
        (fun x hx => hfits x (hparts.lendings.mem_iff.2 hx)) h.twins.right h.cleanRight
    rw [hd, he]
    refine .of_done (h.lays hlays hlays' ?_ ?_)
    · rw [hdeclarations, hdeclarations']
      exact hparts.lendings
    · rw [hdeclarations]
      exact hnodup

/-- An instance and its counterpart are populated on both sides, or on none. -/
theorem populate_rearranged (h : TwinDrafts links others d e) (hpath : j.path = i.path)
    (hname : j.name = i.name) (hparts : i.schematic.SameParts j.schematic)
    (hnodup : i.schematic.portNames.Nodup) :
    Attempt.Agree (fun d e => ∃ links, TwinDrafts links others d e) (d.populate i)
      (e.populate j) := by
  have hlent : (i.schematic.lendings.flatMap Declaration.names).Nodup := by
    have hall := (List.nodup_append.1 hnodup).1
    rw [Schematic.declarations_eq, List.flatMap_append] at hall
    exact (List.nodup_append.1 hall).1
  have hdeclared : Attempt.Agree (fun d e => ∃ links, TwinDrafts links others d e)
      (Draft.declareAll i i.schematic.declarations d)
      (Draft.declareAll i j.schematic.declarations e) := by
    rw [Schematic.declarations_eq, Schematic.declarations_eq, hparts.linkings, Draft.declareAll,
      Draft.declareAll, Attempt.each_append, Attempt.each_append]
    refine Attempt.Agree.andThen (h.lendings hparts hlent) fun d e ⟨links, h⟩ => ?_
    rw [Attempt.each_append, Attempt.each_append]
    exact Attempt.Agree.andThen (.of_related (h.declareAll i i.schematic.linkings))
      fun d e ⟨links, h⟩ => h.exposures hparts.exposed
  have hright := Draft.declareAll_congr (d := e) hpath hname j.schematic.declarations
  rw [Draft.populate, Draft.populate, ← Draft.declareAll, ← Draft.declareAll, hright]
  refine hdeclared.andThen fun d e ⟨links, h⟩ => .of_done ⟨links, h.of_eq rfl rfl rfl rfl h.ports⟩

end TwinDrafts

/-! ## Builds -/

/-- A schematic and a rearranged one are built in machines that are linked, or neither of them is, and
the circuits have ports that are alike. -/
theorem Schematic.Rearranged.build {s t : Schematic} (h : s.Rearranged t) (hnames : s.NamesOnce)
    {m n : Machine} (htwins : Twins links others m n) (hm : m.sim.Clean m.store)
    (hn : n.sim.Clean n.store) :
    (∃ fault fault', (m.build s).circuit = .error fault ∧ (n.build t).circuit = .error fault') ∨
      ∃ c c' links', (m.build s).circuit = .ok c ∧ (n.build t).circuit = .ok c' ∧
        Twins links' others (m.build s).machine (n.build t).machine ∧
        AlikePorts links' (m.build s).machine.sim (n.build t).machine.sim c.field? c'.field? := by
  have hempty : TwinDrafts links others (m.draft s) (n.draft t) :=
    ⟨htwins.of_eq rfl rfl rfl rfl, hm, hn, fun _ _ => Or.inl ⟨rfl, rfl⟩⟩
  have hinstances : List.Forall₂ (fun i j => i.schematic.portNames.Nodup ∧ Counterparts s t i j)
      s.instances.reverse t.instances.reverse :=
    List.rel_reverse ((List.forall₂_and_left _ _).2 ⟨hnames, h.instances⟩)
  have hall : Attempt.Agree (fun d e => ∃ links, TwinDrafts links others d e)
      (m.populateAll s) (n.populateAll t) := by
    refine Attempt.Agree.each ?_ hinstances ⟨links, hempty⟩
    rintro i j d e ⟨hnodup, hij⟩ ⟨links, hde⟩
    exact hde.populate_rearranged hij.path hij.name (h.sameParts hij) hnodup
  rw [m.machine_build, n.machine_build, m.circuit_build, n.circuit_build]
  rcases hall with ⟨hleft, hright⟩ | ⟨d, e, hleft, hright, links', hde⟩
  · rcases hd : m.populateAll s with ⟨d, _ | fault⟩
    · rw [hd] at hleft
      cases hleft
    · rcases he : n.populateAll t with ⟨e, _ | fault'⟩
      · rw [he] at hright
        cases hright
      · exact .inl ⟨fault, fault', rfl, rfl⟩
  · rw [hleft, hright]
    refine .inr ⟨_, _, links', rfl, rfl, hde.twins, fun path name => ?_⟩
    rw [Schematic.field?_assemble, Schematic.field?_assemble]
    rcases rel_cases (h path) with ⟨hs, ht⟩ | ⟨_, _, hs, ht, -⟩
    · rw [hs, ht]
      exact .inl ⟨rfl, rfl⟩
    · rw [hs, ht]
      exact hde.ports path name

end

namespace Tenancy

/-- The order in which gates, bridges and exposed ports are declared is unobservable.  Take a
schematic below which no instance declares or receives a name twice, and rearrange these
declarations in it and in all schematics below it.  Either both are built into new machines, or
neither of them is.  If they are, let the same writes, steps and clearings happen to both: then
nothing is refused, and every port reads the same in both. -/
theorem order_unobservable {s t : Schematic} (h : s.Rearranged t) (hnames : s.NamesOnce)
    (config config' : Config) (store store' : Store) :
    ((vacant config store).moveIn? s).isOk = ((vacant config' store').moveIn? t).isOk ∧
      ∀ u v, (vacant config store).moveIn? s = .ok u → (vacant config' store').moveIn? t = .ok v →
        ∀ moves : List Move, (∀ move ∈ moves, move.isOwn = true) →
          (u.run moves).isDone = true ∧ (v.run moves).isDone = true ∧
            ∀ path name, (u.run moves).state.read path name =
              (v.run moves).state.read path name := by
  have hvacant := apart_vacant config config' store store'
  rcases h.build hnames hvacant.twins (clean_vacant config store) (clean_vacant config' store') with
    ⟨fault, fault', hc, hc'⟩ | ⟨c, c', links, hc, hc', htwins, hports⟩
  · refine ⟨by rw [moveIn?, moveIn?, hc, hc']; rfl, ?_⟩
    intro u v hu
    rw [moveIn?, hc] at hu
    cases hu
  · refine ⟨by rw [moveIn?, moveIn?, hc, hc']; rfl, ?_⟩
    intro u v hu hv moves hown
    rw [moveIn?, hc] at hu
    rw [moveIn?, hc'] at hv
    obtain rfl := Except.ok.inj hu
    obtain rfl := Except.ok.inj hv
    have hapart : Apart links
        { vacant config store with machine := ((vacant config store).machine.build s).machine, own := c }
        { vacant config' store' with
          machine := ((vacant config' store').machine.build t).machine, own := c' } :=
      ⟨htwins, hports⟩
    obtain ⟨u', v', hrun, hrun', hsame⟩ := hapart.run moves
    rw [List.filter_eq_self.2 hown] at hrun
    rw [hrun, hrun']
    exact ⟨rfl, rfl, fun path name => (hsame.read_eq path name).symm⟩

/-- Gates of two kinds, two bridges, and a circuit below. -/
def panel : Schematic :=
  { name := "PANEL"
    gates := [(.and, "left"), (.not, "flip"), (.and, "right")]
    bridges := [[⟨"byte", [8]⟩, ⟨"half", [4, 4]⟩], [⟨"flag", [1]⟩]]
    subs := [("gate", notAnd)]
    connections := [("left_c", "right_a"), ("gate_n_b", "flag_0")]
    exposed := ["right_c", "byte_0"] }

/-- The same panel, described from the last part to the first. -/
def reversedPanel : Schematic :=
  { panel with
    gates := panel.gates.reverse
    bridges := panel.bridges.reverse
    subs := [("gate", { notAnd with gates := notAnd.gates.reverse })]
    exposed := panel.exposed.reverse }

theorem rearranged_reversedPanel : panel.Rearranged reversedPanel :=
  .of_subs ⟨rfl, (List.reverse_perm _).symm, (List.reverse_perm _).symm, (List.reverse_perm _).symm,
    rfl, rfl, rfl⟩
    (.cons (.of_subs ⟨rfl, (List.reverse_perm _).symm, .refl _, .refl _, rfl, rfl, rfl⟩ .nil) .nil)

theorem order_unobservable_panel :
    panel.Rearranged reversedPanel ∧ panel.NamesOnce ∧
      ((vacant {} {}).moveIn? panel).isOk = ((vacant {} {}).moveIn? reversedPanel).isOk ∧
      ∀ u v, (vacant {} {}).moveIn? panel = .ok u → (vacant {} {}).moveIn? reversedPanel = .ok v →
        ∀ moves : List Move, (∀ move ∈ moves, move.isOwn = true) →
          (u.run moves).isDone = true ∧ (v.run moves).isDone = true ∧
            ∀ path name, (u.run moves).state.read path name =
              (v.run moves).state.read path name := by
  have hnames : panel.NamesOnce := by decide +kernel
  exact ⟨rearranged_reversedPanel, hnames,
    order_unobservable rearranged_reversedPanel hnames {} {} {} {}⟩

end Tenancy

end PackedLogic
