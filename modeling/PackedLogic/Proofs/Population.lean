import PackedLogic.Proofs.InstanceTree
set_option autoImplicit false

/-!
# Population

Populating an instance touches two port maps, its own and its parent's, and one map of exposed
ports, its own (`Draft.Populates`).  Children are populated before their parent, so once an
instance has had its turn nothing touches its maps any more (`Turn.scope_last`), and the circuit at
a path has the maps that the instance at that path was left with.
-/

namespace PackedLogic

namespace Attempt

variable {α σ : Type}

theorem exists_of_andThen_eq_done {a : Attempt σ} {next : σ → Attempt σ} {t : σ}
    (h : a.andThen next = done t) : ∃ s, a = done s ∧ next s = done t := by
  rcases a with ⟨s, _ | f⟩
  · exact ⟨s, rfl, h⟩
  · cases h

/-- A sequence that was completed was completed up to any of its steps and from there on. -/
theorem exists_of_each_append_eq_done {step : α → σ → Attempt σ} {as bs : List α} {s t : σ}
    (h : each step (as ++ bs) s = done t) :
    ∃ u, each step as s = done u ∧ each step bs u = done t := by
  rw [each_append] at h
  exact exists_of_andThen_eq_done h

theorem exists_of_each_cons_eq_done {step : α → σ → Attempt σ} {a : α} {as : List α} {s t : σ}
    (h : each step (a :: as) s = done t) :
    ∃ u, step a s = done u ∧ each step as u = done t := by
  rw [each_cons] at h
  exact exists_of_andThen_eq_done h

theorem ofExcept_eq_done {s t : σ} {step : Except Fault σ} (h : ofExcept s step = done t) :
    step = .ok t := by
  cases step with
  | ok u => exact congrArg Except.ok (congrArg Attempt.state h)
  | error f => cases h

end Attempt

/-- Within one owner, different members have different names. -/
theorem memberName_inj {owner member member' : String}
    (h : memberName owner member = memberName owner member') : member = member' := by
  have happend : owner ++ "_" ++ member = owner ++ "_" ++ member' := h
  exact (String.append_right_inj _).1 happend

namespace Draft

variable {d e d' : Draft} {i : Instance}

/-! ## What touches a scope -/

theorem scope_insertPort (d : Draft) (path : List Nat) (name : String) (f : Field)
    (p : List Nat) :
    (d.insertPort path name f).scope p =
      if p = path then { d.scope path with ports := (d.scope path).ports.insert name f }
      else d.scope p := by
  obtain ⟨machine, -, -, heq⟩ := d.insertPort_eq path name f
  rw [heq, scope_setScope]
  rfl

theorem scope_expose_of_ne {path p : List Nat} (h : p ≠ path) (d : Draft) (name : String)
    (f : Field) : (d.expose path name f).scope p = d.scope p := by
  rw [expose, scope_setScope, if_neg h]

/-- The field that an instance shows to the outside under a name. -/
def exposed? (d : Draft) (path : List Nat) (name : String) : Option Field :=
  (d.scope path).exposed[name]?

theorem exposed?_expose (d : Draft) (path : List Nat) (name : String) (f : Field) (n : String) :
    (d.expose path name f).exposed? path n = if n = name then some f else d.exposed? path n := by
  rw [exposed?, expose, scope_setScope, if_pos rfl, Std.TreeMap.getElem?_insert]
  simp only [Std.LawfulEqCmp.compare_eq_iff_eq, eq_comm (a := name)]
  rfl

theorem exposed?_expose_eq (d : Draft) (path : List Nat) (name : String) (f : Field) (p : List Nat)
    (n : String) :
    (d.expose path name f).exposed? p n =
      if p = path ∧ n = name then some f else d.exposed? p n := by
  by_cases hp : p = path
  · subst hp
    simp [exposed?_expose]
  · rw [if_neg fun h => hp h.1, exposed?, scope_expose_of_ne hp, exposed?]

/-- The drafts differ in the ports of one instance at most. -/
structure AddsPorts (path : List Nat) (d d' : Draft) : Prop where
  others : ∀ p, p ≠ path → d'.scope p = d.scope p
  exposed : (d'.scope path).exposed = (d.scope path).exposed

namespace AddsPorts

variable {path : List Nat}

theorem refl (path : List Nat) (d : Draft) : AddsPorts path d d := ⟨fun _ _ => rfl, rfl⟩

/-- What happens to the machine leaves all ports alone. -/
theorem ofMachine (path : List Nat) (d : Draft) (machine : Machine) :
    AddsPorts path d { d with machine } := ⟨fun _ _ => rfl, rfl⟩

theorem trans (h : AddsPorts path d e) (h' : AddsPorts path e d') : AddsPorts path d d' :=
  ⟨fun p hp => (h'.others p hp).trans (h.others p hp), h'.exposed.trans h.exposed⟩

theorem exposed?_eq (h : AddsPorts path d d') : d'.exposed? = d.exposed? := by
  funext p n
  unfold exposed?
  by_cases hp : p = path
  · rw [hp, h.exposed]
  · rw [h.others p hp]

theorem insertPort (path : List Nat) (d : Draft) (name : String) (f : Field) :
    AddsPorts path d (d.insertPort path name f) := by
  constructor
  · intro p hp
    rw [scope_insertPort, if_neg hp]
  · rw [scope_insertPort, if_pos rfl]

theorem insertPorts (path : List Nat) (d : Draft) (ports : List (String × Field)) :
    AddsPorts path d (d.insertPorts path ports) := by
  induction ports generalizing d with
  | nil => exact refl path d
  | cons port ports ih => exact (insertPort path d port.1 port.2).trans (ih _)

/-- A declaration that exposes nothing touches the ports of its own instance alone. -/
theorem of_declare? {declaration : Declaration} (h : declare? i declaration d = .ok d')
    (hexposes : ∀ port, declaration ≠ .exposure port) : AddsPorts i.path d d' := by
  cases declaration with
  | gate k name =>
    rw [declare?_gate] at h
    obtain rfl := Except.ok.inj h
    exact (ofMachine i.path d _).trans (insertPorts i.path _ _)
  | bridge views =>
    obtain ⟨machine, fields, -, rfl⟩ := declare?_bridge_eq_ok h
    exact (ofMachine i.path d _).trans (insertPorts i.path _ _)
  | synonym target name =>
    obtain ⟨f, -, rfl⟩ := declare?_synonym_eq_ok h
    exact insertPort i.path d name f
  | connection source target =>
    obtain ⟨w, -, -, rfl⟩ := declare?_connection_eq_ok h
    exact ofMachine i.path d _
  | exposure port => exact absurd rfl (hexposes port)

end AddsPorts

/-! ## Exposed ports -/

/-- An instance shows some of its ports to the outside and hands them to its parent. -/
structure Exposes (i : Instance) (ports : List String) (d d' : Draft) : Prop where
  /-- No other instance is touched but the parent. -/
  others : ∀ p, p ≠ i.path → i.parent? ≠ some p → d'.scope p = d.scope p
  /-- The ports of the instance itself stay. -/
  own : ∀ n, d'.field? i.path n = d.field? i.path n
  /-- Each of the ports is there and becomes visible outside, in the parent too. -/
  shown : ∀ port ∈ ports, ∃ f, d.field? i.path port = some f ∧
    d'.exposed? i.path port = some f ∧
    ∀ parent, i.parent? = some parent → d'.field? parent (memberName i.name port) = some f
  /-- No other port becomes visible. -/
  hidden : ∀ port, port ∉ ports → d'.exposed? i.path port = d.exposed? i.path port
  /-- The parent shows the same ports as before. -/
  elsewhere : ∀ p, p ≠ i.path → ∀ n, d'.exposed? p n = d.exposed? p n
  /-- The parent gets no other name. -/
  unnamed : ∀ p n, p ≠ i.path → (i.parent? = some p → ∀ port ∈ ports, n ≠ memberName i.name port) →
    d'.field? p n = d.field? p n

/-- Hands a port of an instance to the parent, if there is one. -/
def handOver (i : Instance) (port : String) (f : Field) (d : Draft) : Draft :=
  match i.parent? with
  | some parent => d.insertPort parent (memberName i.name port) f
  | none => d

theorem field?_handOver (i : Instance) (port : String) (f : Field) (d : Draft) (p : List Nat)
    (n : String) :
    (d.handOver i port f).field? p n =
      if i.parent? = some p ∧ n = memberName i.name port then some f else d.field? p n := by
  unfold handOver
  cases i.parent? with
  | none => simp
  | some parent => simp [field?_insertPort, eq_comm (a := parent)]

theorem exposed?_handOver (i : Instance) (port : String) (f : Field) (d : Draft) (p : List Nat)
    (n : String) : (d.handOver i port f).exposed? p n = d.exposed? p n := by
  unfold handOver exposed?
  cases i.parent? with
  | none => rfl
  | some parent =>
    dsimp only
    rw [scope_insertPort]
    split
    · rename_i hp
      rw [hp]
    · rfl

theorem scope_handOver {i : Instance} {p : List Nat} (h : i.parent? ≠ some p) (port : String)
    (f : Field) (d : Draft) : (d.handOver i port f).scope p = d.scope p := by
  unfold handOver
  cases hparent : i.parent? with
  | none => rfl
  | some parent =>
    have hne : p ≠ parent := fun heq => h (heq ▸ hparent)
    exact (AddsPorts.insertPort parent d _ f).others p hne

theorem machine_handOver (i : Instance) (port : String) (f : Field) (d : Draft) :
    (d.handOver i port f).machine.sim = d.machine.sim ∧
      (d.handOver i port f).machine.store = d.machine.store := by
  unfold handOver
  cases i.parent? with
  | none => exact ⟨rfl, rfl⟩
  | some parent => exact ⟨sim_insertPort _ _ _ _, store_insertPort _ _ _ _⟩

/-- An exposed port is handed to the parent and shown. -/
theorem declare?_exposure_eq_ok {port : String} (h : declare? i (.exposure port) d = .ok d') :
    ∃ f, d.field? i.path port = some f ∧ d' = (d.handOver i port f).expose i.path port f := by
  rw [declare?] at h
  obtain ⟨f, hport, h⟩ := exists_of_bind_eq_ok h
  exact ⟨f, field?_of_port? hport, (Except.ok.inj h).symm⟩

theorem exposes_of_declare? {port : String} (h : declare? i (.exposure port) d = .ok d') :
    Exposes i [port] d d' := by
  obtain ⟨f, hf, rfl⟩ := declare?_exposure_eq_ok h
  refine ⟨?_, ?_, ?_, ?_, ?_, ?_⟩
  · intro p hp hother
    rw [scope_expose_of_ne hp, scope_handOver hother]
  · intro n
    rw [field?_expose, field?_handOver, if_neg fun h => i.parent?_ne_path h.1]
  · intro n hn
    obtain rfl := List.mem_singleton.1 hn
    refine ⟨f, hf, by rw [exposed?_expose, if_pos rfl], ?_⟩
    intro parent hparent
    rw [field?_expose, field?_handOver, if_pos ⟨hparent, rfl⟩]
  · intro n hn
    rw [exposed?_expose, if_neg fun heq => hn (List.mem_singleton.2 heq), exposed?_handOver]
  · intro p hp n
    rw [exposed?, scope_expose_of_ne hp]
    exact exposed?_handOver i port f d p n
  · intro p n _ hn
    rw [field?_expose, field?_handOver, if_neg]
    rintro ⟨hparent, hname⟩
    exact hn hparent port List.mem_cons_self hname

namespace Exposes

theorem nil (i : Instance) (d : Draft) : Exposes i [] d d :=
  ⟨fun _ _ _ => rfl, fun _ => rfl, nofun, fun _ _ => rfl, fun _ _ _ => rfl, fun _ _ _ _ => rfl⟩

/-- One port is shown after the other. -/
theorem cons {port : String} {ports : List String} (h : Exposes i [port] d e)
    (h' : Exposes i ports e d') : Exposes i (port :: ports) d d' := by
  refine ⟨?_, ?_, ?_, ?_, ?_, ?_⟩
  · intro p hp hother
    rw [h'.others p hp hother, h.others p hp hother]
  · intro n
    rw [h'.own, h.own]
  · intro n hn
    by_cases hmem : n ∈ ports
    · obtain ⟨f, hf, hshown⟩ := h'.shown n hmem
      exact ⟨f, by rw [← h.own, hf], hshown⟩
    · obtain rfl := (List.mem_cons.1 hn).resolve_right hmem
      obtain ⟨f, hf, hexposed, hparent⟩ := h.shown n List.mem_cons_self
      refine ⟨f, hf, by rw [h'.hidden n hmem, hexposed], ?_⟩
      intro parent heq
      have hne : parent ≠ i.path := fun hpath => i.parent?_ne_path (hpath ▸ heq)
      rw [h'.unnamed parent _ hne, hparent parent heq]
      intro _ port hport hname
      exact hmem (memberName_inj hname ▸ hport)
  · intro n hn
    rw [List.mem_cons, not_or] at hn
    rw [h'.hidden n hn.2, h.hidden n (by simpa using hn.1)]
  · intro p hp n
    rw [h'.elsewhere p hp, h.elsewhere p hp]
  · intro p n hp hn
    rw [h'.unnamed p n hp fun heq port hport => hn heq port (List.mem_cons_of_mem _ hport),
      h.unnamed p n hp fun heq port' hport => ?_]
    obtain rfl := List.mem_singleton.1 hport
    exact hn heq port' List.mem_cons_self

end Exposes

/-! ## One instance -/

/-- Carries out declarations of an instance in order. -/
def declareAll (i : Instance) (declarations : List Declaration) (d : Draft) : Attempt Draft :=
  Attempt.each (fun declaration d => .ofExcept d (declare? i declaration d)) declarations d

theorem exists_of_declareAll_cons {declaration : Declaration} {declarations : List Declaration}
    (h : declareAll i (declaration :: declarations) d = .done d') :
    ∃ e, declare? i declaration d = .ok e ∧ declareAll i declarations e = .done d' := by
  obtain ⟨e, hstep, hrest⟩ := Attempt.exists_of_each_cons_eq_done h
  exact ⟨e, Attempt.ofExcept_eq_done hstep, hrest⟩

theorem addsPorts_declareAll {declarations : List Declaration}
    (h : declareAll i declarations d = .done d')
    (hexposes : ∀ declaration ∈ declarations, ∀ port, declaration ≠ .exposure port) :
    AddsPorts i.path d d' := by
  induction declarations generalizing d with
  | nil =>
    obtain rfl : d = d' := congrArg Attempt.state h
    exact .refl _ _
  | cons declaration declarations ih =>
    obtain ⟨e, hstep, hrest⟩ := exists_of_declareAll_cons h
    have hfirst := AddsPorts.of_declare? hstep (hexposes declaration List.mem_cons_self)
    exact hfirst.trans (ih hrest fun x hx => hexposes x (List.mem_cons_of_mem _ hx))

theorem exposes_declareAll {ports : List String}
    (h : declareAll i (ports.map .exposure) d = .done d') : Exposes i ports d d' := by
  induction ports generalizing d with
  | nil =>
    obtain rfl : d = d' := congrArg Attempt.state h
    exact .nil i d
  | cons port ports ih =>
    obtain ⟨e, hstep, hrest⟩ := exists_of_declareAll_cons h
    exact (exposes_of_declare? hstep).cons (ih hrest)

/-- What an instance does before it exposes ports. -/
theorem exists_declarations_eq (t : Schematic) :
    ∃ parts, t.declarations = parts ++ t.exposed.map .exposure ∧
      ∀ declaration ∈ parts, ∀ port, declaration ≠ .exposure port := by
  refine ⟨_, rfl, ?_⟩
  intro declaration hmem port heq
  subst heq
  simp at hmem

theorem exists_of_populate_eq_done (h : d.populate i = .done d') :
    ∃ e, declareAll i i.schematic.declarations d = .done e ∧ d' = e.reportPopulated i := by
  obtain ⟨e, hall, hreport⟩ := Attempt.exists_of_andThen_eq_done h
  exact ⟨e, hall, (congrArg Attempt.state hreport).symm⟩

/-- The instance shows a port that the instance at a path, its parent, knows by a name. -/
def Hands (i : Instance) (path : List Nat) (n : String) : Prop :=
  i.parent? = some path ∧ ∃ port ∈ i.schematic.exposed, n = memberName i.name port

/-- What populating an instance does to the scopes of all instances. -/
structure Populates (i : Instance) (d d' : Draft) : Prop where
  /-- No other instance is touched but the parent. -/
  others : ∀ p, p ≠ i.path → i.parent? ≠ some p → d'.scope p = d.scope p
  /-- What the instance is to expose it has, and shows it to the outside and to its parent. -/
  shown : ∀ port ∈ i.schematic.exposed, ∃ f, d'.field? i.path port = some f ∧
    d'.exposed? i.path port = some f ∧
    ∀ parent, i.parent? = some parent → d'.field? parent (memberName i.name port) = some f
  /-- It shows nothing else. -/
  hidden : ∀ port, port ∉ i.schematic.exposed → d'.exposed? i.path port = d.exposed? i.path port
  /-- No other instance shows anything new. -/
  elsewhere : ∀ p, p ≠ i.path → ∀ n, d'.exposed? p n = d.exposed? p n
  /-- The parent gets no other name. -/
  unnamed : ∀ p n, p ≠ i.path → ¬ Hands i p n → d'.field? p n = d.field? p n

theorem populates_of_eq_done (h : d.populate i = .done d') : Populates i d d' := by
  obtain ⟨e, hall, rfl⟩ := exists_of_populate_eq_done h
  obtain ⟨parts, hdeclarations, hparts⟩ := exists_declarations_eq i.schematic
  rw [hdeclarations] at hall
  obtain ⟨u, hfirst, hsecond⟩ := Attempt.exists_of_each_append_eq_done hall
  have hadds := addsPorts_declareAll hfirst hparts
  have hexposes := exposes_declareAll hsecond
  refine ⟨?_, ?_, ?_, ?_, ?_⟩
  · intro p hp hother
    exact (hexposes.others p hp hother).trans (hadds.others p hp)
  · intro port hport
    obtain ⟨f, hf, hshown⟩ := hexposes.shown port hport
    exact ⟨f, (hexposes.own port).trans hf, hshown⟩
  · intro port hport
    refine (hexposes.hidden port hport).trans ?_
    rw [exposed?, hadds.exposed, exposed?]
  · intro p hp n
    refine (hexposes.elsewhere p hp n).trans ?_
    rw [exposed?, hadds.others p hp, exposed?]
  · intro p n hp hn
    have hnames : i.parent? = some p → ∀ port ∈ i.schematic.exposed, n ≠ memberName i.name port :=
      fun hparent port hport hname => hn ⟨hparent, port, hport, hname⟩
    refine (hexposes.unnamed p n hp hnames).trans ?_
    rw [field?, hadds.others p hp, field?]

end Draft

/-! ## All instances in turn -/

/-- The machine and its instances before the first of them is populated. -/
def Machine.draft (m : Machine) (s : Schematic) : Draft :=
  { machine := m.report (.treeInstantiated s.name s.instances.length) }

theorem Machine.populateAll_eq (m : Machine) (s : Schematic) :
    m.populateAll s = Attempt.each Draft.populate s.instances.reverse (m.draft s) := rfl

/-- When an instance has its turn: some instances have been populated already, and the others still
wait. -/
structure Turn (m : Machine) (s : Schematic) (i : Instance) (earlier later : List Instance)
    (before after : Draft) : Prop where
  order : s.instances.reverse = earlier ++ i :: later
  reached : Attempt.each Draft.populate earlier (m.draft s) = .done before
  populated : before.populate i = .done after

/-- In a build that succeeds, every node has its turn. -/
theorem Machine.exists_turn {m : Machine} {s : Schematic} {last : Draft}
    (h : m.populateAll s = .done last) {i : Instance} (hi : s.HasNode i) :
    ∃ earlier later before after, Turn m s i earlier later before after ∧
      Attempt.each Draft.populate later after = .done last := by
  have hmem : i ∈ s.instances.reverse := List.mem_reverse.2 (Schematic.mem_instances.2 hi)
  obtain ⟨earlier, later, horder⟩ := List.append_of_mem hmem
  rw [populateAll_eq, horder] at h
  obtain ⟨before, hbefore, h⟩ := Attempt.exists_of_each_append_eq_done h
  obtain ⟨after, hafter, hlater⟩ := Attempt.exists_of_each_cons_eq_done h
  exact ⟨earlier, later, before, after, ⟨horder, hbefore, hafter⟩, hlater⟩

namespace Turn

variable {m : Machine} {s : Schematic} {i j : Instance} {earlier later : List Instance}
  {before after last : Draft}

theorem pairwise (h : Turn m s i earlier later before after) :
    (earlier ++ i :: later).Pairwise fun j k =>
      k.path.length ≤ j.path.length ∧ k.path ≠ j.path := by
  rw [← h.order, List.pairwise_reverse]
  exact s.pairwise_instances

theorem mem_iff (h : Turn m s i earlier later before after) :
    s.HasNode j ↔ j ∈ earlier ∨ j = i ∨ j ∈ later := by
  rw [← Schematic.mem_instances, ← List.mem_reverse, h.order, List.mem_append, List.mem_cons]

theorem hasNode (h : Turn m s i earlier later before after) : s.HasNode i :=
  h.mem_iff.2 (Or.inr (Or.inl rfl))

/-- Whoever is populated later is another instance and no child of this one. -/
theorem later_apart (h : Turn m s i earlier later before after) (hj : j ∈ later) :
    i.path ≠ j.path ∧ j.parent? ≠ some i.path := by
  have hpairs := (List.pairwise_append.1 h.pairwise).2.1
  obtain ⟨hlevel, hne⟩ := (List.pairwise_cons.1 hpairs).1 j hj
  refine ⟨hne.symm, ?_⟩
  intro hparent
  obtain ⟨n, hpath⟩ := Instance.parent?_eq_some_iff.1 hparent
  rw [hpath, List.length_append, List.length_singleton] at hlevel
  omega

/-- Whoever was populated earlier is another instance. -/
theorem earlier_apart (h : Turn m s i earlier later before after) (hj : j ∈ earlier) :
    i.path ≠ j.path :=
  ((List.pairwise_append.1 h.pairwise).2.2 j hj i List.mem_cons_self).2

/-- All children have been populated earlier. -/
theorem mem_earlier (h : Turn m s i earlier later before after) (hj : s.HasNode j)
    (hparent : j.parent? = some i.path) : j ∈ earlier := by
  rcases h.mem_iff.1 hj with hmem | rfl | hmem
  · exact hmem
  · exact absurd hparent j.parent?_ne_path
  · exact absurd hparent (h.later_apart hmem).2

end Turn

/-- What no instance changes when it is populated, none of them together change. -/
theorem Draft.each_populate_keeps {α : Type} (view : Draft → α) {js : List Instance} {d d' : Draft}
    (hjs : ∀ j ∈ js, ∀ {d d' : Draft}, Populates j d d' → view d' = view d)
    (h : Attempt.each Draft.populate js d = .done d') : view d' = view d := by
  induction js generalizing d with
  | nil =>
    obtain rfl : d = d' := congrArg Attempt.state h
    rfl
  | cons j js ih =>
    obtain ⟨e, hstep, hrest⟩ := Attempt.exists_of_each_cons_eq_done h
    rw [ih (fun k hk => hjs k (List.mem_cons_of_mem _ hk)) hrest]
    exact hjs j List.mem_cons_self (populates_of_eq_done hstep)

namespace Turn

variable {m : Machine} {s : Schematic} {i : Instance} {earlier later : List Instance}
  {before after last : Draft}

/-- What an instance was left with stays until the end. -/
theorem scope_last (h : Turn m s i earlier later before after)
    (hlast : Attempt.each Draft.populate later after = .done last) :
    last.scope i.path = after.scope i.path := by
  refine Draft.each_populate_keeps (fun d => d.scope i.path) ?_ hlast
  intro j hj d d' hpopulates
  obtain ⟨hpath, hparent⟩ := h.later_apart hj
  exact hpopulates.others i.path hpath hparent

/-- Before its turn an instance shows nothing. -/
theorem exposed?_before (h : Turn m s i earlier later before after) (n : String) :
    before.exposed? i.path n = none := by
  refine Draft.each_populate_keeps (fun d => d.exposed? i.path n) ?_ h.reached
  intro j hj d d' hpopulates
  exact hpopulates.elsewhere i.path (h.earlier_apart hj) n

/-- An instance shows what it is to expose and nothing else. -/
theorem exposed?_after (h : Turn m s i earlier later before after) (n : String) :
    after.exposed? i.path n =
      if n ∈ i.schematic.exposed then after.field? i.path n else none := by
  have hpopulates := Draft.populates_of_eq_done h.populated
  split
  · rename_i hn
    obtain ⟨f, hf, hexposed, -⟩ := hpopulates.shown n hn
    rw [hf, hexposed]
  · rename_i hn
    rw [hpopulates.hidden n hn, h.exposed?_before]

end Turn

/-! ## Built circuits -/

/-- A circuit that is built is put together from what the instances had at the end. -/
theorem Machine.exists_draft_of_build {m : Machine} {s : Schematic} {c : Circuit}
    (h : (m.build s).circuit = .ok c) :
    ∃ last, m.populateAll s = .done last ∧ c = s.assemble last.scope [] := by
  rw [m.circuit_build] at h
  rcases hall : m.populateAll s with ⟨last, _ | fault⟩
  · rw [hall] at h
    exact ⟨last, rfl, (Except.ok.inj h).symm⟩
  · rw [hall] at h
    cases h

theorem Schematic.ports_assemble (t : Schematic) (scope : List Nat → Scope) (path : List Nat) :
    (t.assemble scope path).ports = (scope path).ports := by
  cases t
  rfl

theorem Schematic.exposed_assemble (t : Schematic) (scope : List Nat → Scope) (path : List Nat) :
    (t.assemble scope path).exposed = (scope path).exposed := by
  cases t
  rfl

theorem Schematic.children_assemble (t : Schematic) (scope : List Nat → Scope) (path : List Nat) :
    (t.assemble scope path).children = assembleSubs scope path 0 t.subs := by
  cases t
  rfl

theorem Schematic.getElem?_ports_assemble (t : Schematic) (d : Draft) (path : List Nat)
    (n : String) : (t.assemble d.scope path).ports[n]? = d.field? path n := by
  rw [ports_assemble, Draft.field?]

theorem Schematic.getElem?_exposed_assemble (t : Schematic) (d : Draft) (path : List Nat)
    (n : String) : (t.assemble d.scope path).exposed[n]? = d.exposed? path n := by
  rw [exposed_assemble, Draft.exposed?]

theorem Schematic.getElem?_children_assemble {t u : Schematic} {name : String} {k : Nat}
    (h : t.subs[k]? = some (name, u)) (scope : List Nat → Scope) (path : List Nat) :
    (t.assemble scope path).children[k]? = some (u.assemble scope (path ++ [k])) := by
  rw [children_assemble, getElem?_assembleSubs, h, Nat.zero_add]
  rfl

theorem Schematic.length_assembleSubs (scope : List Nat → Scope) (path : List Nat) (start : Nat)
    (subs : List (String × Schematic)) :
    (assembleSubs scope path start subs).length = subs.length := by
  induction subs generalizing start with
  | nil => rfl
  | cons sub subs ih => simp [assembleSubs, ih]

/-- The circuit at a node has what the node's instance had at the end. -/
theorem Schematic.HasNode.at?_assemble {s : Schematic} {i : Instance} (hi : s.HasNode i)
    (last : Draft) :
    (s.assemble last.scope []).at? i.path = some (i.schematic.assemble last.scope i.path) := by
  rw [Schematic.at?_assemble, hi.at?]
  rfl

/-- The circuit that is put together for an instance has what the instance was left with. -/
theorem Turn.leaves {m : Machine} {s : Schematic} {i : Instance} {earlier later : List Instance}
    {before after last : Draft} (h : Turn m s i earlier later before after)
    (hlast : Attempt.each Draft.populate later after = .done last) :
    (i.schematic.assemble last.scope i.path).ports = (after.scope i.path).ports ∧
      (i.schematic.assemble last.scope i.path).exposed = (after.scope i.path).exposed ∧
      ∀ parent, i.parent? = some parent → ∀ port ∈ i.schematic.exposed,
        ∃ f, (i.schematic.assemble last.scope i.path).exposed[port]? = some f ∧
          after.field? parent (memberName i.name port) = some f := by
  have hscope := h.scope_last hlast
  refine ⟨?_, ?_, ?_⟩
  · rw [Schematic.ports_assemble, hscope]
  · rw [Schematic.exposed_assemble, hscope]
  · intro parent hparent port hport
    obtain ⟨f, -, hexposed, hname⟩ := (Draft.populates_of_eq_done h.populated).shown port hport
    refine ⟨f, ?_, hname parent hparent⟩
    rw [Schematic.exposed_assemble, hscope]
    exact hexposed

/-- A gate that negates, with both of its terminals shown. -/
def inverter : Schematic :=
  { name := "INV"
    gates := [(.not, "n")]
    exposed := ["n_a", "n_b"] }

/-- Two inverters, one behind the other. -/
def repeater : Schematic :=
  { name := "REP"
    subs := [("in", inverter), ("out", inverter)]
    connections := [("in_n_b", "out_n_a")]
    exposed := ["in_n_a", "out_n_b"] }

/-- A repeater and an inverter side by side. -/
def twoLines : Schematic :=
  { name := "LINES"
    subs := [("long", repeater), ("short", inverter)]
    aliases := [("long_out_n_b", "end")] }

end PackedLogic
