import PackedLogic.Machine.Build
import PackedLogic.Proofs.Lending
set_option autoImplicit false

/-!
# Drafts

What a draft knows of the ports of all instances is the map `Draft.field?`.  The operations on a
draft are described by what they do to this map; none but those that lend or connect does any work
on the machine.
-/

namespace PackedLogic

theorem exists_of_bind_eq_ok {ε α β : Type} {x : Except ε α} {next : α → Except ε β} {b : β}
    (h : x >>= next = .ok b) : ∃ a, x = .ok a ∧ next a = .ok b := by
  cases x with
  | error e => cases h
  | ok a => exact ⟨a, rfl, h⟩

/-- Lists that are put together of parts of equal lengths go together part by part. -/
theorem zip_flatMap {α β γ : Type} {l : List α} {f : α → List β} {g : α → List γ}
    (h : ∀ a ∈ l, (f a).length = (g a).length) :
    (l.flatMap f).zip (l.flatMap g) = l.flatMap fun a => (f a).zip (g a) := by
  induction l with
  | nil => rfl
  | cons a l ih =>
    obtain ⟨ha, hl⟩ := List.forall_mem_cons.1 h
    rw [List.flatMap_cons, List.flatMap_cons, List.flatMap_cons, List.zip_append ha, ih hl]

namespace Draft

/-- The field of a port of an instance, if there is such a port. -/
def field? (d : Draft) (path : List Nat) (name : String) : Option Field :=
  (d.scope path).ports[name]?

theorem port?_eq (d : Draft) (path : List Nat) (name : String) :
    d.port? path name = match d.field? path name with
      | some f => .ok f
      | none => .error (.portNotFound name) := rfl

theorem scope_setScope (d : Draft) (path : List Nat) (scope : Scope) (p : List Nat) :
    (d.setScope path scope).scope p = if p = path then scope else d.scope p := by
  rw [Draft.scope, setScope, Std.TreeMap.getD_insert, Draft.scope]
  by_cases hp : p = path
  · rw [if_pos (Std.LawfulEqCmp.compare_eq_iff_eq.2 hp.symm), if_pos hp]
  · rw [if_neg fun h => hp (Std.LawfulEqCmp.compare_eq_iff_eq.1 h).symm, if_neg hp]

/-- Whether there is a warning or not, the port map of one instance has one more entry. -/
theorem insertPort_eq (d : Draft) (path : List Nat) (name : String) (f : Field) :
    ∃ machine : Machine, machine.sim = d.machine.sim ∧ machine.store = d.machine.store ∧
      d.insertPort path name f = { d with machine }.setScope path
        { d.scope path with ports := (d.scope path).ports.insert name f } := by
  unfold insertPort
  dsimp only
  split
  · exact ⟨d.machine.report (.portRedeclared name), rfl, rfl, rfl⟩
  · exact ⟨d.machine, rfl, rfl, rfl⟩

/-- A port that is inserted hides another one of its name. -/
theorem field?_insertPort (d : Draft) (path : List Nat) (name : String) (f : Field)
    (p : List Nat) (n : String) :
    (d.insertPort path name f).field? p n =
      if p = path ∧ n = name then some f else d.field? p n := by
  obtain ⟨machine, -, -, heq⟩ := d.insertPort_eq path name f
  rw [heq, field?, scope_setScope]
  by_cases hp : p = path
  · subst hp
    rw [if_pos rfl, Std.TreeMap.getElem?_insert]
    by_cases hn : n = name
    · rw [if_pos (Std.LawfulEqCmp.compare_eq_iff_eq.2 hn.symm), if_pos ⟨rfl, hn⟩]
    · rw [if_neg fun h => hn (Std.LawfulEqCmp.compare_eq_iff_eq.1 h).symm,
        if_neg fun h => hn h.2, field?]
  · rw [if_neg hp, if_neg fun h => hp h.1]
    rfl

theorem field?_expose (d : Draft) (path : List Nat) (name : String) (f : Field) (p : List Nat)
    (n : String) : (d.expose path name f).field? p n = d.field? p n := by
  rw [field?, expose, scope_setScope]
  by_cases hp : p = path
  · rw [if_pos hp, hp]
    rfl
  · rw [if_neg hp, field?]

@[simp] theorem sim_insertPort (d : Draft) (path : List Nat) (name : String) (f : Field) :
    (d.insertPort path name f).machine.sim = d.machine.sim := by
  obtain ⟨machine, hsim, -, heq⟩ := d.insertPort_eq path name f
  rw [heq]
  exact hsim

@[simp] theorem store_insertPort (d : Draft) (path : List Nat) (name : String) (f : Field) :
    (d.insertPort path name f).machine.store = d.machine.store := by
  obtain ⟨machine, -, hstore, heq⟩ := d.insertPort_eq path name f
  rw [heq]
  exact hstore

@[simp] theorem sim_insertPorts (d : Draft) (path : List Nat) (ports : List (String × Field)) :
    (d.insertPorts path ports).machine.sim = d.machine.sim := by
  induction ports generalizing d with
  | nil => rfl
  | cons port ports ih => exact (ih _).trans (sim_insertPort d path port.1 port.2)

@[simp] theorem store_insertPorts (d : Draft) (path : List Nat) (ports : List (String × Field)) :
    (d.insertPorts path ports).machine.store = d.machine.store := by
  induction ports generalizing d with
  | nil => rfl
  | cons port ports ih => exact (ih _).trans (store_insertPort d path port.1 port.2)

/-! ## Declarations -/

theorem declare?_gate (d : Draft) (i : Instance) (k : GateKind) (name : String) :
    declare? i (.gate k name) d =
      .ok ({ d with machine := (d.machine.lendGate k).1 }.insertPorts i.path
        ((k.terminalNames name).zip (List.ofFn (d.machine.lendGate k).2))) := rfl

theorem declare?_bridge_of_ok {d : Draft} {i : Instance} {views : List BridgeView} {m' : Machine}
    {fields : List (List Field)}
    (h : d.machine.lendBridge? (views.map BridgeView.widths) = .ok (m', fields)) :
    declare? i (.bridge views) d =
      .ok ({ d with machine := m' }.insertPorts i.path
        ((views.flatMap BridgeView.names).zip fields.flatten)) := by
  rw [declare?, h]
  rfl

theorem declare?_bridge_of_wide {d : Draft} {i : Instance} {views : List BridgeView}
    (h : ¬ ∀ widths ∈ views.map BridgeView.widths, total widths ≤ cellBits) :
    declare? i (.bridge views) d = .error (oversizedView (views.map BridgeView.widths)) := by
  rw [declare?, d.machine.lendBridge?_of_wide h]
  rfl

/-- What a declaration can do to a draft: lend a row and name cuts of it, register a socket between
ports, or give ports further names. -/
inductive Changes (d d' : Draft) : Prop
  | lend {row : Row} (hlends : d.machine.Lends d'.machine row)
      (hports : ∀ {path : List Nat} {name : String} {f : Field}, d'.field? path name = some f →
        d.field? path name = some f ∨ ∃ lane offset width, row.Cut lane offset width f)
  | wire {path : List Nat} {source target : String} {f g : Field} (width_eq : f.width = g.width)
      (hf : d.field? path source = some f) (hg : d.field? path target = some g)
      (hsim : d'.machine.sim =
        d.machine.sim.withSockets (d.machine.sim.sockets.sockets ++ [⟨f, g, width_eq⟩]))
      (hstore : d'.machine.store = d.machine.store) (hports : d'.field? = d.field?)
  | name (hsim : d'.machine.sim = d.machine.sim) (hstore : d'.machine.store = d.machine.store)
      (hports : ∀ {path : List Nat} {name : String} {f : Field}, d'.field? path name = some f →
        ∃ path name, d.field? path name = some f)

theorem field?_insertPorts {d : Draft} {path : List Nat} {ports : List (String × Field)}
    {p : List Nat} {n : String} {f : Field}
    (h : (d.insertPorts path ports).field? p n = some f) :
    d.field? p n = some f ∨ ∃ port ∈ ports, port.2 = f := by
  induction ports generalizing d with
  | nil => exact Or.inl h
  | cons port ports ih =>
    rcases ih (d := d.insertPort path port.1 port.2) h with hold | ⟨port', hport', hf⟩
    · rw [field?_insertPort] at hold
      split at hold
      · exact Or.inr ⟨port, List.mem_cons_self, Option.some.inj hold⟩
      · exact Or.inl hold
    · exact Or.inr ⟨port', List.mem_cons_of_mem _ hport', hf⟩

theorem field?_of_port? {d : Draft} {path : List Nat} {name : String} {f : Field}
    (h : d.port? path name = .ok f) : d.field? path name = some f := by
  rw [port?_eq] at h
  cases hf : d.field? path name with
  | none =>
    rw [hf] at h
    cases h
  | some g =>
    rw [hf] at h
    exact congrArg some (Except.ok.inj h)

/-- A bridge that is carried out is lent, and the fields of its views become ports. -/
theorem declare?_bridge_eq_ok {d d' : Draft} {i : Instance} {views : List BridgeView}
    (h : declare? i (.bridge views) d = .ok d') :
    ∃ machine fields,
      d.machine.lendBridge? (views.map BridgeView.widths) = .ok (machine, fields) ∧
        d' = { d with machine }.insertPorts i.path
          ((views.flatMap BridgeView.names).zip fields.flatten) := by
  rw [declare?] at h
  obtain ⟨⟨machine, fields⟩, hlent, h⟩ := exists_of_bind_eq_ok h
  exact ⟨machine, fields, hlent, (Except.ok.inj h).symm⟩

/-- A further name stands for the field of a port. -/
theorem declare?_synonym_eq_ok {d d' : Draft} {i : Instance} {target name : String}
    (h : declare? i (.synonym target name) d = .ok d') :
    ∃ f, d.field? i.path target = some f ∧ d' = d.insertPort i.path name f := by
  rw [declare?] at h
  obtain ⟨f, hport, h⟩ := exists_of_bind_eq_ok h
  exact ⟨f, field?_of_port? hport, (Except.ok.inj h).symm⟩

/-- A connection that is carried out registers a socket between two ports of one width. -/
theorem declare?_connection_eq_ok {d d' : Draft} {i : Instance} {source target : String}
    (h : declare? i (.connection source target) d = .ok d') :
    ∃ w : Socket, d.field? i.path source = some w.source ∧
      d.field? i.path target = some w.target ∧
        d' = { d with machine := { d.machine with
          sim := d.machine.sim.withSockets (d.machine.sim.sockets.sockets ++ [w]) } } := by
  rw [declare?] at h
  obtain ⟨f, hf, h⟩ := exists_of_bind_eq_ok h
  obtain ⟨g, hg, h⟩ := exists_of_bind_eq_ok h
  obtain ⟨machine, hconnect, h⟩ := exists_of_bind_eq_ok h
  obtain rfl := Except.ok.inj h
  by_cases heq : f.width = g.width
  · rw [d.machine.connect?_of_eq heq] at hconnect
    obtain rfl := Except.ok.inj hconnect
    exact ⟨⟨f, g, heq⟩, field?_of_port? hf, field?_of_port? hg, rfl⟩
  · rw [d.machine.connect?_of_ne heq] at hconnect
    cases hconnect

/-- A draft does not change by being left alone. -/
theorem Changes.refl (d : Draft) : d.Changes d := .name rfl rfl fun hf => ⟨_, _, hf⟩

theorem changes_insertPorts {d : Draft} {m' : Machine} {row : Row} {path : List Nat}
    {ports : List (String × Field)} (hlends : d.machine.Lends m' row)
    (hcuts : ∀ port ∈ ports, ∃ lane offset width, row.Cut lane offset width port.2) :
    d.Changes ({ d with machine := m' }.insertPorts path ports) := by
  refine .lend (hlends.of_eq (sim_insertPorts _ _ _) (store_insertPorts _ _ _)) ?_
  intro p n f hf
  rcases field?_insertPorts hf with hold | ⟨port, hport, rfl⟩
  · exact Or.inl hold
  · exact Or.inr (hcuts port hport)

variable {d d' : Draft} {i : Instance}

theorem changes_gate {k : GateKind} {name : String} (h : declare? i (.gate k name) d = .ok d') :
    d.Changes d' := by
  obtain ⟨row, -, -, hlends, hcut⟩ := d.machine.lends_lendGate k
  rw [declare?_gate] at h
  obtain rfl := Except.ok.inj h
  refine changes_insertPorts hlends ?_
  rintro ⟨n, f⟩ hport
  obtain ⟨lane, rfl⟩ := List.mem_ofFn.1 (List.of_mem_zip hport).2
  exact ⟨_, _, _, hcut lane⟩

theorem changes_bridge {views : List BridgeView} (h : declare? i (.bridge views) d = .ok d') :
    d.Changes d' := by
  by_cases fits : ∀ widths ∈ views.map BridgeView.widths, total widths ≤ cellBits
  · obtain ⟨m', fields, hok, row, -, -, hlends, hcut, rfl⟩ := d.machine.lends_lendBridge? fits
    rw [declare?_bridge_of_ok hok] at h
    obtain rfl := Except.ok.inj h
    refine changes_insertPorts hlends ?_
    rintro ⟨n, f⟩ hport
    obtain ⟨fields, hfields, hf⟩ := List.mem_flatten.1 (List.of_mem_zip hport).2
    obtain ⟨widths, -, rfl⟩ := List.mem_map.1 hfields
    obtain ⟨span, -, rfl⟩ := List.mem_map.1 hf
    exact ⟨_, _, _, hcut span⟩
  · rw [declare?_bridge_of_wide fits] at h
    cases h

/-- A port that repeats the field of another one adds a name and nothing else. -/
theorem changes_insertPort {path : List Nat} {source : String} {f : Field}
    (hf : d.field? path source = some f) (p : List Nat) (n : String) :
    d.Changes (d.insertPort p n f) := by
  refine .name (sim_insertPort d p n f) (store_insertPort d p n f) ?_
  intro p' n' g hg
  rw [field?_insertPort] at hg
  split at hg
  · exact ⟨path, source, hg ▸ hf⟩
  · exact ⟨p', n', hg⟩

theorem changes_synonym {target name : String}
    (h : declare? i (.synonym target name) d = .ok d') : d.Changes d' := by
  obtain ⟨f, hf, rfl⟩ := declare?_synonym_eq_ok h
  exact changes_insertPort hf i.path name

theorem changes_connection {source target : String}
    (h : declare? i (.connection source target) d = .ok d') : d.Changes d' := by
  obtain ⟨w, hsource, htarget, rfl⟩ := declare?_connection_eq_ok h
  exact .wire w.width_eq hsource htarget rfl rfl rfl

theorem Changes.expose (h : d.Changes d') (path : List Nat) (name : String) (f : Field) :
    d.Changes (d'.expose path name f) := by
  have hfield : (d'.expose path name f).field? = d'.field? := by
    funext p n
    exact field?_expose d' path name f p n
  cases h with
  | lend hlends hports =>
    exact .lend (hlends.of_eq rfl rfl) fun hf => hports (hfield ▸ hf)
  | wire width_eq hf hg hsim hstore hports =>
    exact .wire width_eq hf hg hsim hstore (hfield.trans hports)
  | name hsim hstore hports =>
    exact .name hsim hstore fun hf => hports (hfield ▸ hf)

theorem changes_exposure {port : String} (h : declare? i (.exposure port) d = .ok d') :
    d.Changes d' := by
  rw [declare?] at h
  obtain ⟨f, hport, h⟩ := exists_of_bind_eq_ok h
  obtain rfl := Except.ok.inj h
  cases i.parent? with
  | none => exact (Changes.refl d).expose i.path port f
  | some parent =>
    have hchanges := changes_insertPort (field?_of_port? hport) parent (memberName i.name port)
    exact hchanges.expose i.path port f

theorem changes_of_declare? {declaration : Declaration}
    (h : declare? i declaration d = .ok d') : d.Changes d' := by
  cases declaration with
  | gate k name => exact changes_gate h
  | bridge views => exact changes_bridge h
  | synonym target name => exact changes_synonym h
  | connection source target => exact changes_connection h
  | exposure port => exact changes_exposure h

/-- No declaration takes anything back. -/
theorem Changes.grows (h : d.Changes d') :
    d.machine.sim.Grows d'.machine.sim := by
  cases h with
  | lend hlends _ => exact hlends.grows
  | wire _ _ _ hsim _ _ =>
    rw [hsim]
    exact .of_blocks (Simulator.blocks_withSockets _ _)
  | name hsim _ _ =>
    rw [hsim]
    exact .refl _

theorem Changes.owns (h : d.Changes d') (howns : d.machine.sim.Owns d.machine.store) :
    d'.machine.sim.Owns d'.machine.store := by
  cases h with
  | lend hlends _ => exact hlends.owns howns
  | wire _ _ _ hsim hstore _ =>
    rw [hsim, hstore]
    exact howns.withSockets _
  | name hsim hstore _ =>
    rw [hsim, hstore]
    exact howns

/-- The machine owns its cells, and its sockets and all ports so far stay within them. -/
structure Sound (d : Draft) : Prop where
  owns : d.machine.sim.Owns d.machine.store
  wired : d.machine.sim.Wired
  holds : ∀ {path : List Nat} {name : String} {f : Field}, d.field? path name = some f →
    d.machine.sim.Holds f

theorem Changes.sound (h : d.Changes d') (hsound : d.Sound) : d'.Sound := by
  have howns := h.owns hsound.owns
  have hgrows := h.grows
  cases h with
  | lend hlends hports =>
    refine ⟨howns, hlends.wired hsound.wired, ?_⟩
    intro path name f hf
    rcases hports hf with hold | ⟨lane, offset, width, hcut⟩
    · exact hgrows.holds (hsound.holds hold)
    · exact hlends.holds_of_cut hcut
  | wire width_eq hf hg hsim hstore hports =>
    refine ⟨howns, ?_, ?_⟩
    · intro w hw
      rw [hsim] at hw
      rcases List.mem_append.1 hw with hold | hnew
      · obtain ⟨hsource, htarget⟩ := hsound.wired w hold
        exact ⟨hgrows.holds hsource, hgrows.holds htarget⟩
      · obtain rfl := List.mem_singleton.1 hnew
        exact ⟨hgrows.holds (hsound.holds hf), hgrows.holds (hsound.holds hg)⟩
    · intro path name f hf
      rw [hports] at hf
      exact hgrows.holds (hsound.holds hf)
  | name hsim hstore hports =>
    refine ⟨howns, ?_, ?_⟩
    · rw [hsim]
      exact hsound.wired
    · intro path name f hf
      obtain ⟨path', name', hold⟩ := hports hf
      exact hgrows.holds (hsound.holds hold)

theorem changes_report (d : Draft) (e : Event) :
    d.Changes { d with machine := d.machine.report e } :=
  .name rfl rfl fun hf => ⟨_, _, hf⟩

end Draft

/-! ## Builds -/

/-- What every step keeps once those before it are completed, a whole sequence keeps, completed or
not. -/
theorem Attempt.each_keeps_along {α σ : Type} {step : α → σ → Attempt σ} {P : σ → Prop}
    {as : List α} {s : σ}
    (h : ∀ before a after t, as = before ++ a :: after → each step before s = .done t → P t →
      P (step a t).state) (hs : P s) : P (each step as s).state := by
  induction as generalizing s with
  | nil => exact hs
  | cons a as ih =>
    have hstep := h [] a as s rfl rfl hs
    rw [each_cons]
    rcases hattempt : step a s with ⟨t, _ | f⟩
    · rw [hattempt] at hstep
      refine ih ?_ hstep
      intro before b after u hsplit hreached
      refine h (a :: before) b after u (by rw [hsplit, List.cons_append]) ?_
      rw [each_cons, hattempt]
      exact hreached
    · rw [hattempt] at hstep
      exact hstep

/-- What every step keeps, a whole sequence keeps, completed or not. -/
theorem Attempt.each_keeps {α σ : Type} {step : α → σ → Attempt σ} {P : σ → Prop}
    (h : ∀ a s, P s → P (step a s).state) (as : List α) {s : σ} (hs : P s) :
    P (each step as s).state :=
  each_keeps_along (fun _ a _ t _ _ => h a t) hs

/-- What every declaration keeps, building a schematic keeps, completed or not. -/
theorem Machine.populateAll_keeps_of_declare? {P : Draft → Prop}
    (hdeclare : ∀ {i : Instance} {declaration : Declaration} {d d' : Draft},
      Draft.declare? i declaration d = .ok d' → P d → P d')
    (hreport : ∀ {d : Draft} (e : Event), P d → P { d with machine := d.machine.report e })
    (m : Machine) (s : Schematic) (hm : P { machine := m }) : P (m.populateAll s).state := by
  have hstep : ∀ (i : Instance) (declaration : Declaration) (d : Draft), P d →
      P (Attempt.ofExcept d (Draft.declare? i declaration d)).state := by
    intro i declaration d hd
    cases h : Draft.declare? i declaration d with
    | error f => exact hd
    | ok d' => exact hdeclare h hd
  have hpopulate : ∀ (i : Instance) (d : Draft), P d → P (d.populate i).state := by
    intro i d hd
    have hall := Attempt.each_keeps (hstep i) i.schematic.declarations hd
    rw [Draft.populate]
    rcases hattempt : Attempt.each _ i.schematic.declarations d with ⟨d', _ | f⟩
    · rw [hattempt] at hall
      exact hreport _ hall
    · rw [hattempt] at hall
      exact hall
  exact Attempt.each_keeps hpopulate s.instances.reverse
    (hreport (.treeInstantiated s.name s.instances.length) hm)

/-- What every change of a draft keeps, building a schematic keeps. -/
theorem Machine.populateAll_keeps {P : Draft → Prop}
    (hkeeps : ∀ {d d' : Draft}, P d → d.Changes d' → P d') (m : Machine) (s : Schematic)
    (hm : P { machine := m }) : P (m.populateAll s).state :=
  m.populateAll_keeps_of_declare? (fun h hd => hkeeps hd (Draft.changes_of_declare? h))
    (fun e hd => hkeeps hd (Draft.changes_report _ e)) s hm

theorem Machine.machine_build (m : Machine) (s : Schematic) :
    (m.build s).machine = (m.populateAll s).state.machine := by
  rw [build]
  rcases m.populateAll s with ⟨d, _ | f⟩ <;> rfl

theorem Machine.grows_build (m : Machine) (s : Schematic) :
    m.sim.Grows (m.build s).machine.sim := by
  rw [m.machine_build]
  exact m.populateAll_keeps (P := fun d => m.sim.Grows d.machine.sim)
    (fun hd hchanges => hd.trans hchanges.grows) s (.refl _)

/-- Building into a machine that owns its cells, with success or without, leaves everything within
them. -/
theorem Machine.sound_populateAll {m : Machine} (howns : m.sim.Owns m.store)
    (hwired : m.sim.Wired) (s : Schematic) : (m.populateAll s).state.Sound :=
  m.populateAll_keeps (fun hd hchanges => hchanges.sound hd) s ⟨howns, hwired, nofun⟩

theorem Machine.circuit_build (m : Machine) (s : Schematic) :
    (m.build s).circuit = match (m.populateAll s).fault? with
      | none => .ok (s.assemble (m.populateAll s).state.scope [])
      | some fault => .error fault := by
  rw [build]
  rcases m.populateAll s with ⟨d, _ | f⟩ <;> rfl

/-! ## Ports of built circuits -/

/-- The schematic of the instance at a path, if there is one. -/
def Schematic.at? : Schematic → List Nat → Option Schematic
  | s, [] => some s
  | s, n :: path => (s.subs[n]?).bind fun sub => sub.2.at? path

/-- The field of a port of the instance at a path. -/
def Circuit.field? (c : Circuit) (path : List Nat) (name : String) : Option Field :=
  (c.at? path).bind fun c => c.ports[name]?

namespace Schematic

theorem getElem?_assembleSubs (scope : List Nat → Scope) (path : List Nat) (start : Nat)
    (subs : List (String × Schematic)) (n : Nat) :
    (assembleSubs scope path start subs)[n]? =
      (subs[n]?).map fun sub => sub.2.assemble scope (path ++ [start + n]) := by
  induction subs generalizing start n with
  | nil => rfl
  | cons sub subs ih =>
    obtain ⟨name, s⟩ := sub
    cases n with
    | zero => rfl
    | succ n =>
      rw [assembleSubs, List.getElem?_cons_succ, List.getElem?_cons_succ, ih,
        Nat.succ_add_eq_add_succ]

theorem at?_assemble (s : Schematic) (scope : List Nat → Scope) (path q : List Nat) :
    (s.assemble scope path).at? q = (s.at? q).map fun t => t.assemble scope (path ++ q) := by
  induction q generalizing s path with
  | nil =>
    rw [List.append_nil]
    rfl
  | cons n q ih =>
    have hchildren : (s.assemble scope path).children = assembleSubs scope path 0 s.subs := by
      cases s
      rfl
    rw [Circuit.at?_cons, hchildren, getElem?_assembleSubs, Nat.zero_add, at?]
    cases s.subs[n]? with
    | none => rfl
    | some sub =>
      rw [Option.map_some, Option.bind_some, ih, List.append_assoc]
      rfl

/-- A built circuit has the ports that the instances had at the end. -/
theorem field?_assemble (s : Schematic) (d : Draft) (path : List Nat) (name : String) :
    (s.assemble d.scope []).field? path name = (s.at? path).bind fun _ => d.field? path name := by
  rw [Circuit.field?, at?_assemble, List.nil_append]
  cases s.at? path with
  | none => rfl
  | some t =>
    cases t
    rfl

end Schematic

end PackedLogic
