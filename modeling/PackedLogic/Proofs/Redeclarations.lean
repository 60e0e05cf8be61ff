import PackedLogic.Proofs.Additions
import PackedLogic.Proofs.SharedNames
set_option autoImplicit false

/-!
# Names that are declared again

Whoever declares a name into an instance, the instance itself or one of its children, the name either
is new to its port map, or a warning is reported and the name takes the place of an equal one.  So
every declaration of a name is counted once, by an entry of a port map or by a warning
(`Draft.Accounts`), and this is kept by every step of a build.  As a map has one entry for a name at
most, a build warns of a name as often as it is declared into an instance after the first time
(`Machine.warns_of_every_loss`).
-/

namespace PackedLogic

/-! ## Sums -/

theorem total_map_flatMap {α β : Type} (l : List α) (f : α → List β) (g : β → Nat) :
    total ((l.flatMap f).map g) = total (l.map fun a => total ((f a).map g)) := by
  induction l with
  | nil => rfl
  | cons a l ih =>
    rw [List.flatMap_cons, List.map_append, total_append, ih, List.map_cons, total_cons]

theorem total_map_add {α : Type} (l : List α) (f g : α → Nat) :
    total (l.map fun a => f a + g a) = total (l.map f) + total (l.map g) := by
  induction l with
  | nil => rfl
  | cons a l ih =>
    simp only [List.map_cons, total_cons, ih]
    omega

/-- If one summand grows, so does the sum. -/
theorem total_map_add_of_ne {α : Type} {l : List α} (hnodup : l.Nodup) {a : α} (ha : a ∈ l)
    {f f' : α → Nat} {k : Nat} (hsame : ∀ b ∈ l, b ≠ a → f' b = f b) (hgrown : f' a = f a + k) :
    total (l.map f') = total (l.map f) + k := by
  obtain ⟨before, after, rfl⟩ := List.append_of_mem ha
  rw [List.nodup_append, List.nodup_cons] at hnodup
  obtain ⟨-, ⟨hafter, -⟩, hbefore⟩ := hnodup
  have h₁ : before.map f' = before.map f := List.map_congr_left fun b hb =>
    hsame b (List.mem_append_left _ hb) (hbefore b hb a List.mem_cons_self)
  have h₂ : after.map f' = after.map f := List.map_congr_left fun b hb =>
    hsame b (List.mem_append_right _ (List.mem_cons_of_mem _ hb)) fun heq => hafter (heq ▸ hb)
  simp only [List.map_append, List.map_cons, total_append, total_cons, h₁, h₂, hgrown]
  omega

/-! ## Counting names -/

/-- The event is a warning that is about the port. -/
def Event.WarnsOf (n : String) (e : Event) : Prop := e.level = .warn ∧ ("port", n) ∈ e.fields

instance (n : String) (e : Event) : Decidable (e.WarnsOf n) := instDecidableAnd

theorem Event.warnsOf_iff {n : String} {e : Event} : e.WarnsOf n ↔ e = .portRedeclared n := by
  cases e <;> simp [WarnsOf, level, fields, eq_comm]

theorem PortMap.contains_insert_iff {ports : PortMap} {m n : String} {f : Field} :
    (ports.insert m f).contains n = true ↔ m = n ∨ ports.contains n = true := by
  simp [Std.TreeMap.contains_insert]

/-- A way to count names.  A name that is declared is counted by the port map if it is new there, and
else by the warning. -/
structure Tally where
  name : String → Nat
  ports : PortMap → Nat
  event : Event → Nat
  ports_empty : ports {} = 0
  ports_insert : ∀ (p : PortMap) (n : String) (f : Field),
    ports (p.insert n f) = ports p + if p.contains n then 0 else name n
  warning : ∀ n, event (.portRedeclared n) = name n
  quiet : ∀ e, e.level ≠ .warn → event e = 0

namespace Tally

/-- What a list of names counts for. -/
def worth (T : Tally) (names : List String) : Nat := total (names.map T.name)

/-- What a list of events counts for. -/
def reported (T : Tally) (events : List Event) : Nat := total (events.map T.event)

/-- Counts one name. -/
def ofName (n : String) : Tally where
  name m := if m = n then 1 else 0
  ports p := if p.contains n then 1 else 0
  event e := if e.WarnsOf n then 1 else 0
  ports_empty := by simp
  ports_insert p m f := by
    simp only [PortMap.contains_insert_iff]
    by_cases h : m = n
    · subst h
      cases p.contains m <;> simp
    · simp [h]
  warning m := by simp [Event.warnsOf_iff]
  quiet e he := if_neg fun h => he h.1

theorem worth_ofName (n : String) (names : List String) :
    (ofName n).worth names = names.count n := by
  rw [worth, List.count_eq_countP]
  exact (total_map_ite names (· = n)).trans (by simp only [beq_eq_decide])

theorem reported_ofName (n : String) (events : List Event) :
    (ofName n).reported events = events.countP fun e => e.WarnsOf n := total_map_ite events _

/-- Counts all names. -/
def all : Tally where
  name _ := 1
  ports p := p.size
  event e := if e.level = .warn then 1 else 0
  ports_empty := rfl
  ports_insert p m f := by
    rw [Std.TreeMap.size_insert]
    split <;> rfl
  warning m := rfl
  quiet e he := if_neg he

theorem worth_all (names : List String) : all.worth names = names.length :=
  (total_map_of_eq (c := 1) fun _ _ => rfl).trans (Nat.mul_one _)

theorem reported_all (events : List Event) :
    all.reported events = events.countP fun e => e.level = .warn := total_map_ite events _

variable (T : Tally)

theorem worth_append (names names' : List String) :
    T.worth (names ++ names') = T.worth names + T.worth names' := by
  rw [worth, List.map_append, total_append, worth, worth]

theorem worth_flatMap {α : Type} (l : List α) (f : α → List String) :
    T.worth (l.flatMap f) = total (l.map fun a => T.worth (f a)) := total_map_flatMap l f T.name

theorem worth_perm {names names' : List String} (h : names.Perm names') :
    T.worth names = T.worth names' := total_perm (h.map T.name)

theorem reported_append (events events' : List Event) :
    T.reported (events ++ events') = T.reported events + T.reported events' := by
  rw [reported, List.map_append, total_append, reported, reported]

theorem reported_of_quiet {events : List Event} (h : ∀ e ∈ events, e.level ≠ .warn) :
    T.reported events = 0 := by
  rw [reported, total_map_of_eq fun e he => T.quiet e (h e he), Nat.mul_zero]

/-- What the port maps of all instances count for. -/
def held (s : Schematic) (d : Draft) : Nat :=
  total (s.instances.map fun i => T.ports (d.scope i.path).ports)

end Tally

/-! ## Every declaration is counted -/

namespace Draft

/-- From one draft to a later one, names are declared into instances of the schematic, and each of them
is counted, by the port map of the instance or by a warning. -/
def Accounts (s : Schematic) (names : List String) (d d' : Draft) : Prop :=
  ∃ events, d'.machine.log.toList = d.machine.log.toList ++ events ∧
    ∀ T : Tally, T.held s d' + T.reported events = T.held s d + T.worth names

theorem held_insertPort {s : Schematic} {i : Instance} (hi : s.HasNode i) (T : Tally) (d : Draft)
    (n : String) (f : Field) : T.held s (d.insertPort i.path n f) =
      T.held s d + if (d.scope i.path).ports.contains n then 0 else T.name n := by
  have hnodup : s.instances.Nodup := s.pairwise_instances.imp fun h heq => h.2 (congrArg _ heq)
  refine total_map_add_of_ne hnodup (Schematic.mem_instances.2 hi) ?_ ?_
  · intro j hj hne
    rw [scope_insertPort, if_neg fun heq => hne ?_]
    exact (Schematic.mem_instances.1 hj).eq_of_path_eq hi heq
  · rw [scope_insertPort, if_pos rfl]
    exact T.ports_insert _ n f

namespace Accounts

variable {s : Schematic} {names names' : List String} {d d' d'' : Draft} {i : Instance}

theorem trans (h : Accounts s names d d') (h' : Accounts s names' d' d'') :
    Accounts s (names ++ names') d d'' := by
  obtain ⟨events, hlog, hcount⟩ := h
  obtain ⟨events', hlog', hcount'⟩ := h'
  refine ⟨events ++ events', by rw [hlog', hlog, List.append_assoc], ?_⟩
  intro T
  have hfirst := hcount T
  have hsecond := hcount' T
  rw [T.reported_append, T.worth_append]
  omega

/-- Whatever happens to no port and is no warning does not count. -/
theorem of_quiet {events : List Event}
    (hlog : d'.machine.log.toList = d.machine.log.toList ++ events)
    (hquiet : ∀ e ∈ events, e.level ≠ .warn)
    (hports : ∀ path, (d'.scope path).ports = (d.scope path).ports) : Accounts s [] d d' := by
  refine ⟨events, hlog, fun T => ?_⟩
  rw [T.reported_of_quiet hquiet, Tally.held, Tally.held]
  simp only [hports]
  rfl

theorem refl (s : Schematic) (d : Draft) : Accounts s [] d d :=
  of_quiet (List.append_nil _).symm nofun fun _ => rfl

theorem insertPort (hi : s.HasNode i) (d : Draft) (n : String) (f : Field) :
    Accounts s [n] d (d.insertPort i.path n f) := by
  cases hknown : (d.scope i.path).ports.contains n with
  | false =>
    refine ⟨[], by simp [Draft.insertPort, hknown, setScope], fun T => ?_⟩
    rw [held_insertPort hi, hknown]
    rfl
  | true =>
    refine ⟨[.portRedeclared n], ?_, fun T => ?_⟩
    · simp [Draft.insertPort, hknown, setScope, Machine.report]
    · rw [held_insertPort hi, hknown, Tally.reported, List.map_singleton, T.warning]
      rfl

theorem insertPorts (hi : s.HasNode i) (ports : List (String × Field)) (d : Draft) :
    Accounts s (ports.map Prod.fst) d (d.insertPorts i.path ports) := by
  induction ports generalizing d with
  | nil => exact refl s d
  | cons port ports ih => exact (insertPort hi d port.1 port.2).trans (ih _)

end Accounts

end Draft

/-! ## Lending is quiet -/

theorem Bank.quiet_lend {lanes width : Nat} (b : Bank lanes) (fits : width ≤ cellBits) (s : Store) :
    ∀ e ∈ (b.lend width fits s).events, e.level ≠ .warn := by
  unfold lend
  split
  · exact nofun
  · intro e he
    obtain rfl := List.mem_singleton.1 he
    exact nofun

/-- A bridge is lent without any report, and there is a field for every name. -/
theorem Machine.lendBridge?_eq_ok {m m' : Machine} {views : List BridgeView}
    {fields : List (List Field)}
    (h : m.lendBridge? (views.map BridgeView.widths) = .ok (m', fields)) :
    m'.log.toList = m.log.toList ∧
      (views.flatMap BridgeView.names).length = fields.flatten.length := by
  by_cases fits : ∀ widths ∈ views.map BridgeView.widths, total widths ≤ cellBits
  · rw [lendBridge?, Bank.bridge?_of_fits _ _ fits] at h
    obtain ⟨rfl, rfl⟩ := Prod.mk.inj (Except.ok.inj h)
    refine ⟨by simp [afterLending], ?_⟩
    have hfields : ∀ view ∈ views,
        view.names.length = (view.fields (.ofCell m.store.size)).length :=
      fun view hview => BridgeView.length_fields (List.forall_mem_map.1 fits view hview) _
    rw [List.map_map, ← List.flatMap_def, List.length_flatMap, List.length_flatMap]
    exact congrArg List.sum (List.map_congr_left hfields)
  · rw [lendBridge?_of_wide m fits] at h
    cases h

/-- The name under which an instance hands an exposed port to its parent, if it has one. -/
def Instance.hands (i : Instance) : Declaration → List String
  | .exposure port =>
    match i.parent? with
    | some _ => [memberName i.name port]
    | none => []
  | .gate .. | .bridge _ | .synonym .. | .connection .. => []

/-- The names that a declaration of an instance adds to port maps, its parent's and its own. -/
def Instance.introduces (i : Instance) (declaration : Declaration) : List String :=
  i.hands declaration ++ declaration.names

theorem Schematic.HasNode.exists_parent {s : Schematic} {i : Instance} (hi : s.HasNode i)
    {path : List Nat} (h : i.parent? = some path) : ∃ j, s.HasNode j ∧ j.path = path := by
  obtain ⟨n, hpath⟩ := Instance.parent?_eq_some_iff.1 h
  cases hi with
  | root => cases List.append_ne_nil_of_right_ne_nil _ (List.cons_ne_nil _ _) hpath.symm
  | child hj _ hchild =>
    rw [hchild] at hpath
    exact ⟨_, hj, List.append_inj_left' hpath rfl⟩

namespace Draft

variable {s : Schematic} {d d' : Draft} {i : Instance}

theorem accounts_gate (hi : s.HasNode i) {k : GateKind} {name : String}
    (h : declare? i (.gate k name) d = .ok d') : Accounts s (k.terminalNames name) d d' := by
  rw [declare?_gate] at h
  obtain rfl := Except.ok.inj h
  have hlent : Accounts s [] d { d with machine := (d.machine.lendGate k).1 } :=
    .of_quiet Array.toList_appendList (Bank.quiet_lend _ one_le_cellBits _) fun _ => rfl
  have hlength : (k.terminalNames name).length ≤ (List.ofFn (d.machine.lendGate k).2).length := by
    simp [GateKind.terminalNames]
  have hports := Accounts.insertPorts hi
    ((k.terminalNames name).zip (List.ofFn (d.machine.lendGate k).2))
    { d with machine := (d.machine.lendGate k).1 }
  rw [List.map_fst_zip hlength] at hports
  exact hlent.trans hports

theorem accounts_bridge (hi : s.HasNode i) {views : List BridgeView}
    (h : declare? i (.bridge views) d = .ok d') :
    Accounts s (views.flatMap BridgeView.names) d d' := by
  obtain ⟨machine, fields, hok, rfl⟩ := declare?_bridge_eq_ok h
  obtain ⟨hlog, hlength⟩ := Machine.lendBridge?_eq_ok hok
  have hlent : Accounts s [] d { d with machine } :=
    .of_quiet (hlog.trans (List.append_nil _).symm) nofun fun _ => rfl
  have hports := Accounts.insertPorts hi ((views.flatMap BridgeView.names).zip fields.flatten)
    { d with machine }
  rw [List.map_fst_zip (Nat.le_of_eq hlength)] at hports
  exact hlent.trans hports

theorem accounts_exposure (hi : s.HasNode i) {port : String}
    (h : declare? i (.exposure port) d = .ok d') :
    Accounts s (i.introduces (.exposure port)) d d' := by
  obtain ⟨f, -, rfl⟩ := declare?_exposure_eq_ok h
  have hhanded : Accounts s (i.hands (.exposure port)) d (d.handOver i port f) := by
    rw [handOver, Instance.hands]
    cases hparent : i.parent? with
    | none => exact .refl s d
    | some path =>
      obtain ⟨j, hj, rfl⟩ := hi.exists_parent hparent
      exact .insertPort hj d _ f
  have hshown :
      Accounts s [] (d.handOver i port f) ((d.handOver i port f).expose i.path port f) := by
    refine .of_quiet (List.append_nil _).symm nofun fun path => ?_
    rw [expose, scope_setScope]
    split
    · rename_i hpath
      rw [hpath]
    · rfl
  exact hhanded.trans hshown

/-- Whatever an instance declares is counted. -/
theorem accounts_declare? (hi : s.HasNode i) {declaration : Declaration}
    (h : declare? i declaration d = .ok d') : Accounts s (i.introduces declaration) d d' := by
  cases declaration with
  | gate k name => exact accounts_gate hi h
  | bridge views => exact accounts_bridge hi h
  | synonym target name =>
    obtain ⟨f, -, rfl⟩ := declare?_synonym_eq_ok h
    exact .insertPort hi d name f
  | connection source target =>
    obtain ⟨w, -, -, rfl⟩ := declare?_connection_eq_ok h
    exact .of_quiet (List.append_nil _).symm nofun fun _ => rfl
  | exposure port => exact accounts_exposure hi h

/-- What single steps declare, a completed sequence declares one after the other. -/
theorem Accounts.each {α : Type} {step : α → Draft → Attempt Draft} {names : α → List String}
    {as : List α} (hstep : ∀ a ∈ as, ∀ {d d'}, step a d = .done d' → Accounts s (names a) d d')
    (h : Attempt.each step as d = .done d') : Accounts s (as.flatMap names) d d' := by
  induction as generalizing d with
  | nil =>
    obtain rfl : d = d' := congrArg Attempt.state h
    exact .refl s d
  | cons a as ih =>
    obtain ⟨e, hfirst, hrest⟩ := Attempt.exists_of_each_cons_eq_done h
    have hlater := ih (fun b hb => hstep b (List.mem_cons_of_mem _ hb)) hrest
    exact (hstep a List.mem_cons_self hfirst).trans hlater

theorem accounts_populate (hi : s.HasNode i) (h : d.populate i = .done d') :
    Accounts s (i.schematic.declarations.flatMap i.introduces) d d' := by
  obtain ⟨e, hall, rfl⟩ := exists_of_populate_eq_done h
  have hdeclared : Accounts s (i.schematic.declarations.flatMap i.introduces) d e := by
    refine .each (fun declaration _ d d' hstep => ?_) hall
    exact accounts_declare? hi (Attempt.ofExcept_eq_done hstep)
  have hreport : Accounts s [] e (e.reportPopulated i) :=
    .of_quiet Array.toList_push (by simp [Event.level]) fun _ => rfl
  have hboth := hdeclared.trans hreport
  rwa [List.append_nil] at hboth

end Draft

/-! ## What is declared into an instance -/

namespace Schematic

/-- The names that are declared into an instance, as often as they are: the terminals of its gates, the
fields of its bridges, its aliases, and for every child the ports that the child shows. -/
def namesInto (t : Schematic) : List String :=
  (t.gates.flatMap fun g => g.1.terminalNames g.2) ++
    (t.bridges.flatMap fun views => views.flatMap BridgeView.names) ++
    t.aliases.map Prod.snd ++
    t.subs.flatMap fun sub => sub.2.exposed.map (memberName sub.1)

/-- The order of declarations apart, an instance declares these names itself or gets them from its
children. -/
theorem perm_portNames (t : Schematic) : t.portNames.Perm t.namesInto := by
  have hown : t.declarations.flatMap Declaration.names =
      ((GateKind.all.flatMap fun k => t.gates.filter fun g => g.1 = k).flatMap
          fun g => g.1.terminalNames g.2) ++
        (t.bridges.flatMap fun views => views.flatMap BridgeView.names) ++
        (t.aliases.flatMap fun a => [a.2]) ++
        (t.connections.flatMap fun _ => []) ++
        t.exposed.flatMap fun _ => [] := by
    simp only [declarations, List.flatMap_append, List.flatMap_map, List.flatMap_assoc]
    rfl
  have hconnections : (t.connections.flatMap fun _ => ([] : List String)) = [] :=
    List.flatMap_eq_nil_iff.2 fun _ _ => rfl
  have hexposed : (t.exposed.flatMap fun _ => ([] : List String)) = [] :=
    List.flatMap_eq_nil_iff.2 fun _ _ => rfl
  have hgates := (perm_gates t.gates).flatMap_right fun g => g.1.terminalNames g.2
  rw [portNames, hown, hconnections, hexposed, List.append_nil, List.append_nil, namesInto,
    List.map_eq_flatMap]
  exact ((hgates.append_right _).append_right _).append_right _

end Schematic

namespace Instance

/-- The names under which an instance hands its exposed ports to its parent. -/
def handsUp (i : Instance) : List String := i.schematic.declarations.flatMap i.hands

theorem perm_introduces (i : Instance) : (i.schematic.declarations.flatMap i.introduces).Perm
    (i.handsUp ++ i.schematic.declarations.flatMap Declaration.names) :=
  (List.flatMap_append_perm _ _ _).symm

theorem handsUp_eq (i : Instance) :
    i.handsUp = i.schematic.exposed.flatMap fun port => i.hands (.exposure port) := by
  obtain ⟨parts, hdeclarations, hparts⟩ := Draft.exists_declarations_eq i.schematic
  have hnone : parts.flatMap i.hands = [] := by
    refine List.flatMap_eq_nil_iff.2 fun declaration hmem => ?_
    cases declaration with
    | exposure port => exact absurd rfl (hparts _ hmem port)
    | gate | bridge | synonym | connection => rfl
  rw [handsUp, hdeclarations, List.flatMap_append, hnone, List.nil_append, List.flatMap_map]

theorem handsUp_root (s : Schematic) : s.root.handsUp = [] := by
  rw [handsUp_eq]
  exact List.flatMap_eq_nil_iff.2 fun _ _ => rfl

theorem handsUp_of_parent {i : Instance} {path : List Nat} (h : i.parent? = some path) :
    i.handsUp = i.schematic.exposed.map (memberName i.name) := by
  rw [handsUp_eq, List.map_eq_flatMap]
  simp only [hands, h]

end Instance

namespace Tally

/-- What the instances of a schematic introduce, all together, is what is declared into them. -/
theorem total_introduces (T : Tally) (s : Schematic) :
    total (s.instances.map fun i => T.worth (i.schematic.declarations.flatMap i.introduces)) =
      s.sumOver fun t => T.worth t.namesInto := by
  -- what is handed up is introduced by the child and declared into the parent, so the sums over a
  -- smaller tree differ by what its root hands up
  have hbelow : ∀ i : Instance,
      T.worth i.handsUp + i.schematic.sumOver (fun t => T.worth t.namesInto) =
        T.worth (i.schematic.declarations.flatMap i.introduces) +
          total (i.children.map fun j =>
            T.worth j.handsUp + j.schematic.sumOver fun t => T.worth t.namesInto) := by
    intro i
    have hhanded : T.worth (i.schematic.subs.flatMap fun sub =>
        sub.2.exposed.map (memberName sub.1)) =
          total (i.children.map fun j => T.worth j.handsUp) := by
      rw [worth_flatMap, ← i.map_children_sub, List.map_map]
      refine congrArg total (List.map_congr_left fun j hj => ?_)
      obtain ⟨n, -, hpath⟩ := Instance.mem_children.1 hj
      rw [Instance.handsUp_of_parent (Instance.parent?_eq_some_iff.2 ⟨n, hpath⟩)]
      rfl
    rw [T.worth_perm i.perm_introduces, worth_append, total_map_add, ← hhanded,
      Schematic.sumOver_children, ← T.worth_perm i.schematic.perm_portNames, Schematic.portNames,
      worth_append]
    omega
  have htotal := Schematic.total_instances_of_below hbelow s
  rw [Instance.handsUp_root] at htotal
  exact htotal.trans (Nat.zero_add _)

end Tally

theorem Schematic.sumOver_add (s : Schematic) (f g : Schematic → Nat) :
    s.sumOver (fun t => f t + g t) = s.sumOver f + s.sumOver g := by
  rw [← s.total_instances, ← s.total_instances, ← s.total_instances, total_map_add]

/-! ## All nodes of a circuit -/

theorem Circuit.nodes_eq (c : Circuit) (path : List Nat) :
    c.nodes path = (path, c) :: nodesOfChildren path 0 c.children := by
  cases c
  rfl

namespace Schematic

theorem nodesOfChildren_assembleSubs (scope : List Nat → Scope) (path : List Nat) (n : Nat)
    (subs : List (String × Schematic)) :
    Circuit.nodesOfChildren path n (assembleSubs scope path n subs) =
      (subs.zipIdx n).flatMap fun x =>
        (x.1.2.assemble scope (path ++ [x.2])).nodes (path ++ [x.2]) := by
  induction subs generalizing n with
  | nil => rfl
  | cons sub subs ih =>
    rw [assembleSubs, Circuit.nodesOfChildren, ih, List.zipIdx_cons, List.flatMap_cons]

/-- The nodes of a circuit that was put together are those of its instances. -/
theorem nodes_assemble (scope : List Nat → Scope) (i : Instance) :
    (i.schematic.assemble scope i.path).nodes i.path =
      (i.path, i.schematic.assemble scope i.path) ::
        i.children.flatMap fun j => (j.schematic.assemble scope j.path).nodes j.path := by
  rw [Circuit.nodes_eq, children_assemble, nodesOfChildren_assembleSubs, Instance.children,
    List.mapIdx_eq_zipIdx_map, List.flatMap_map]

theorem total_nodes (scope : List Nat → Scope) (s : Schematic) :
    total (((s.assemble scope []).nodes []).map fun node => node.2.ports.size) =
      total (s.instances.map fun i => (scope i.path).ports.size) := by
  have hbelow : ∀ i : Instance,
      total (((i.schematic.assemble scope i.path).nodes i.path).map fun node => node.2.ports.size) =
        (scope i.path).ports.size + total (i.children.map fun j =>
          total (((j.schematic.assemble scope j.path).nodes j.path).map
            fun node => node.2.ports.size)) := by
    intro i
    rw [nodes_assemble, List.map_cons, total_cons, ports_assemble, total_map_flatMap]
  exact (total_instances_of_below hbelow s).symm

end Schematic

/-! ## What a build reports -/

namespace Machine

variable {m : Machine} {s : Schematic} {last : Draft}

/-- In the course of a build that succeeds, every name that is declared is counted. -/
theorem accounts_populateAll (h : m.populateAll s = .done last) :
    Draft.Accounts s (s.instances.reverse.flatMap fun i =>
      i.schematic.declarations.flatMap i.introduces) (m.draft s) last := by
  rw [populateAll_eq] at h
  refine Draft.Accounts.each ?_ h
  intro i hi d d' hstep
  exact Draft.accounts_populate (Schematic.mem_instances.1 (List.mem_reverse.1 hi)) hstep

/-- What the build adds to the log and what the instances have in the end counts for what is declared
into them. -/
theorem exists_events (h : m.populateAll s = .done last) :
    ∃ events, last.machine.log.toList = m.log.toList ++ events ∧
      ∀ T : Tally, T.held s last + T.reported events = s.sumOver fun t => T.worth t.namesInto := by
  obtain ⟨events, hlog, hcount⟩ := accounts_populateAll h
  refine ⟨.treeInstantiated s.name s.instances.length :: events, ?_, ?_⟩
  · simpa [draft, report] using hlog
  · intro T
    have hstart : T.held s (m.draft s) = 0 := by
      rw [Tally.held, total_map_of_eq (c := 0), Nat.mul_zero]
      intro i hi
      exact T.ports_empty
    have hfirst : T.event (.treeInstantiated s.name s.instances.length) = 0 := T.quiet _ nofun
    have hcounted := hcount T
    rw [hstart, Tally.worth_flatMap, List.map_reverse, total_perm (List.reverse_perm _),
      T.total_introduces] at hcounted
    rw [Tally.reported, List.map_cons, total_cons, hfirst]
    rw [Tally.reported] at hcounted
    omega

/-- In the end an instance has a name just when it is declared into it. -/
theorem held_ofName (h : m.populateAll s = .done last) (n : String) :
    (Tally.ofName n).held s last = s.sumOver fun t => min 1 (t.namesInto.count n) := by
  rw [← s.total_instances]
  refine congrArg total (List.map_congr_left fun i hi => ?_)
  have hknown : (last.scope i.path).ports.contains n = true ↔ n ∈ i.schematic.namesInto := by
    rw [Std.TreeMap.contains_eq_isSome_getElem?, ← i.schematic.perm_portNames.mem_iff,
      Schematic.mem_portNames]
    exact isSome_field?_iff h (Schematic.mem_instances.1 hi)
  change (if (last.scope i.path).ports.contains n then 1 else 0) = _
  by_cases hn : n ∈ i.schematic.namesInto
  · have hcount := List.count_pos_iff.2 hn
    rw [if_pos (hknown.2 hn)]
    omega
  · rw [if_neg fun hcontains => hn (hknown.1 hcontains), List.count_eq_zero.2 hn]
    rfl

/-- A build that succeeds warns of a name as often as it is declared into an instance after the first
time, over all instances together; so all names that are declared are either ports in the end or
warned of. -/
theorem warns_of_every_loss {c : Circuit} (hbuilt : (m.build s).circuit = .ok c) :
    ∃ events, (m.build s).machine.log.toList = m.log.toList ++ events ∧
      (∀ n, events.countP (fun e => e.WarnsOf n) = s.sumOver fun t => t.namesInto.count n - 1) ∧
      total ((c.nodes []).map fun node => node.2.ports.size) +
          events.countP (fun e => e.level = .warn) = s.sumOver fun t => t.namesInto.length := by
  obtain ⟨last, hlast, rfl⟩ := exists_draft_of_build hbuilt
  obtain ⟨events, hlog, hcount⟩ := exists_events hlast
  refine ⟨events, ?_, ?_, ?_⟩
  · rw [m.machine_build, hlast]
    exact hlog
  · intro n
    have hname := hcount (Tally.ofName n)
    simp only [held_ofName hlast, Tally.worth_ofName, Tally.reported_ofName] at hname
    have hsplit := s.sumOver_add (fun t => min 1 (t.namesInto.count n))
      fun t => t.namesInto.count n - 1
    have hparts : ∀ k : Nat, min 1 k + (k - 1) = k := by omega
    simp only [hparts] at hsplit
    omega
  · have hall := hcount Tally.all
    simp only [Tally.worth_all, Tally.reported_all] at hall
    rw [Schematic.total_nodes]
    exact hall

/-- Of two inverters of one name, both terminals are declared twice into the circuit above. -/
theorem warns_of_every_loss_namesakes :
    ∃ c events, (({} : Machine).build Schematic.namesakes).circuit = .ok c ∧
      (({} : Machine).build Schematic.namesakes).machine.log.toList = events ∧
      events.countP (fun e => e.WarnsOf "u_n_a") = 1 ∧
      total ((c.nodes []).map fun node => node.2.ports.size) +
        events.countP (fun e => e.level = .warn) = 8 := by
  obtain ⟨c, hbuilt⟩ : ∃ c, (({} : Machine).build Schematic.namesakes).circuit = .ok c := ⟨_, rfl⟩
  obtain ⟨events, hlog, hname, hall⟩ := warns_of_every_loss hbuilt
  refine ⟨c, events, hbuilt, hlog, ?_, ?_⟩
  · rw [hname]
    decide +kernel
  · rw [hall]
    decide +kernel

end Machine

end PackedLogic
