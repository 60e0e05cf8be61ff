import PackedLogic.Proofs.Population
set_option autoImplicit false

/-!
# Names of ports

An instance gets names from two sides.  Its children hand it the ports that they show, all of them
before its own turn; then it declares names itself, gate after gate, bridge after bridge and alias
after alias.  A later name hides an earlier one that is equal.  So a name that the instance declares
belongs to the last declaration of it (`Draft.exists_introduces`), and any other name belongs to the
child that was populated last among those that hand it (`Turn.exists_handed`).
-/

namespace PackedLogic

/-- What some member of a list has, a last one has. -/
theorem exists_last {α : Type} {P : α → Prop} {l : List α} (h : ∃ a ∈ l, P a) :
    ∃ before a after, l = before ++ a :: after ∧ P a ∧ ∀ b ∈ after, ¬ P b := by
  induction l with
  | nil =>
    obtain ⟨a, ha, -⟩ := h
    cases ha
  | cons a l ih =>
    by_cases hl : ∃ b ∈ l, P b
    · obtain ⟨before, b, after, rfl, hb, hafter⟩ := ih hl
      exact ⟨a :: before, b, after, rfl, hb, hafter⟩
    · obtain ⟨b, hb, hPb⟩ := h
      rcases List.mem_cons.1 hb with rfl | hmem
      · exact ⟨[], b, l, rfl, hPb, fun c hc hPc => hl ⟨c, hc, hPc⟩⟩
      · exact absurd ⟨b, hmem, hPb⟩ hl

namespace BridgeView

/-- The fields of a view of a bridge over a cell. -/
def fields (view : BridgeView) (ref : CellRef) : List Field :=
  (Span.tiles view.widths).map fun span => ⟨span, ref⟩

theorem length_fields {view : BridgeView} (fits : total view.widths ≤ cellBits) (ref : CellRef) :
    view.names.length = (view.fields ref).length := by
  have hfits : 0 + total view.widths ≤ cellBits := by simpa using fits
  have htile := length_tile ref 0 view.widths hfits
  rw [tile_eq_map] at htile
  rw [fields, Span.tiles, dif_pos fits, htile]
  simp [names]

theorem getElem?_names {view : BridgeView} {n : String} {j : Nat} (h : view.names[j]? = some n) :
    j < view.widths.length ∧ n = memberName view.name (toString j) := by
  obtain ⟨hj, hname⟩ := List.getElem?_eq_some_iff.1 h
  simp only [names, List.getElem_map, List.getElem_range] at hname
  exact ⟨by simpa [names] using hj, hname.symm⟩

end BridgeView

namespace Draft

variable {d d' : Draft} {i : Instance} {n : String}

/-! ## Names that come in a list -/

theorem insertPorts_append (d : Draft) (path : List Nat) (ports ports' : List (String × Field)) :
    d.insertPorts path (ports ++ ports') = (d.insertPorts path ports).insertPorts path ports' :=
  List.foldl_append

theorem field?_insertPorts_of_not_mem {path : List Nat} {ports : List (String × Field)}
    (h : ∀ port ∈ ports, port.1 ≠ n) (d : Draft) (p : List Nat) :
    (d.insertPorts path ports).field? p n = d.field? p n := by
  induction ports generalizing d with
  | nil => rfl
  | cons port ports ih =>
    have hrest := ih (fun port' hport => h port' (List.mem_cons_of_mem _ hport))
      (d.insertPort path port.1 port.2)
    refine hrest.trans ?_
    rw [field?_insertPort, if_neg fun heq => h port List.mem_cons_self heq.2.symm]

theorem field?_insertPorts_zip {path : List Nat} {names : List String} (hn : n ∉ names)
    (fields : List Field) (d : Draft) (p : List Nat) :
    (d.insertPorts path (names.zip fields)).field? p n = d.field? p n := by
  refine field?_insertPorts_of_not_mem ?_ d p
  intro port hport heq
  exact hn (heq ▸ (List.of_mem_zip hport).1)

/-- The last port of a name counts. -/
theorem field?_insertPorts_of_last {path : List Nat} {before after : List (String × Field)}
    {f : Field} (h : ∀ port ∈ after, port.1 ≠ n) (d : Draft) :
    (d.insertPorts path (before ++ (n, f) :: after)).field? path n = some f := by
  rw [insertPorts_append]
  refine (field?_insertPorts_of_not_mem h _ path).trans ?_
  rw [field?_insertPort, if_pos ⟨rfl, rfl⟩]

/-- Of the names of a list, each one belongs to the field at the last of its places. -/
theorem exists_field?_zip {names : List String} {fields : List Field}
    (hlength : names.length = fields.length) (hn : n ∈ names) (d : Draft) (path : List Nat) :
    ∃ (j : Nat) (f : Field), names[j]? = some n ∧ fields[j]? = some f ∧
      (d.insertPorts path (names.zip fields)).field? path n = some f := by
  have hmem : ∃ port ∈ names.zip fields, port.1 = n := by
    obtain ⟨j, hj, rfl⟩ := List.getElem_of_mem hn
    have hport : (names.zip fields)[j]? = some (names[j], fields[j]) :=
      List.getElem?_zip_eq_some.2 ⟨List.getElem?_eq_getElem hj, List.getElem?_eq_getElem _⟩
    exact ⟨_, List.mem_of_getElem? hport, rfl⟩
  obtain ⟨before, ⟨name, f⟩, after, hsplit, rfl, hafter⟩ := exists_last hmem
  have hport : (names.zip fields)[before.length]? = some (name, f) := by simp [hsplit]
  obtain ⟨hname, hfield⟩ := List.getElem?_zip_eq_some.1 hport
  refine ⟨before.length, f, hname, hfield, ?_⟩
  rw [hsplit]
  exact field?_insertPorts_of_last hafter d

/-! ## Names that a declaration introduces -/

/-- In a draft, a declaration binds a name to a field: a terminal of the gate that it lends, a field of
a view of the bridge that it lends, or the field of the port that it gives a further name. -/
inductive Introduces (d : Draft) (path : List Nat) (n : String) (f : Field) : Declaration → Prop
  | terminal {k : GateKind} {gate : String} (lane : Fin k.arity)
      (hname : n = memberName gate (GateKind.terminalLetter lane))
      (hfield : f = (d.machine.lendGate k).2 lane) : Introduces d path n f (.gate k gate)
  /-- If several views of the bridge have a field of this name, the last of them counts. -/
  | viewField {views : List BridgeView} {machine : Machine} {fields : List (List Field)}
      {v j : Nat} {view : BridgeView} {row : List Field}
      (hlent : d.machine.lendBridge? (views.map BridgeView.widths) = .ok (machine, fields))
      (hview : views[v]? = some view) (hj : j < view.widths.length)
      (hname : n = memberName view.name (toString j)) (hrow : fields[v]? = some row)
      (hfield : row[j]? = some f) (hlast : ∀ later ∈ views.drop (v + 1), n ∉ later.names) :
      Introduces d path n f (.bridge views)
  | synonym {target : String} (hfield : d.field? path target = some f) :
      Introduces d path n f (.synonym target n)

theorem introduces_gate {k : GateKind} {gate : String}
    (h : declare? i (.gate k gate) d = .ok d') (hn : n ∈ k.terminalNames gate) :
    ∃ f, Introduces d i.path n f (.gate k gate) ∧ d'.field? i.path n = some f := by
  rw [declare?_gate] at h
  obtain rfl := Except.ok.inj h
  have hlength : (k.terminalNames gate).length = (List.ofFn (d.machine.lendGate k).2).length := by
    simp [GateKind.terminalNames]
  obtain ⟨j, f, hname, hfield, hresult⟩ := exists_field?_zip hlength hn
    { d with machine := (d.machine.lendGate k).1 } i.path
  refine ⟨f, ?_, hresult⟩
  obtain ⟨hj, rfl⟩ := List.getElem?_eq_some_iff.1 hfield
  rw [List.length_ofFn] at hj
  refine .terminal ⟨j, hj⟩ ?_ (List.getElem_ofFn _)
  simpa [GateKind.terminalNames, hj, eq_comm] using hname

/-- Of the names of a bridge, each one belongs to the last view that has it. -/
theorem exists_field?_views {views : List BridgeView} {ref : CellRef}
    (fits : ∀ view ∈ views, total view.widths ≤ cellBits)
    (hn : n ∈ views.flatMap BridgeView.names) (d : Draft) (path : List Nat) :
    ∃ (v j : Nat) (view : BridgeView) (f : Field), views[v]? = some view ∧
      view.names[j]? = some n ∧ (view.fields ref)[j]? = some f ∧
      (∀ later ∈ views.drop (v + 1), n ∉ later.names) ∧
      (d.insertPorts path ((views.flatMap BridgeView.names).zip
        (views.flatMap fun view => view.fields ref))).field? path n = some f := by
  obtain ⟨earlier, view, later, rfl, hview, hlater⟩ := exists_last (List.mem_flatMap.1 hn)
  have hfits := fits view (List.mem_append_right _ List.mem_cons_self)
  rw [zip_flatMap fun view hmem => BridgeView.length_fields (fits view hmem) ref, List.flatMap_append,
    List.flatMap_cons, insertPorts_append, insertPorts_append]
  obtain ⟨j, f, hname, hfield, hresult⟩ := exists_field?_zip
    (BridgeView.length_fields hfits ref) hview
    (d.insertPorts path (earlier.flatMap fun view => view.names.zip (view.fields ref))) path
  refine ⟨earlier.length, j, view, f, by simp, hname, hfield, by simpa using hlater, ?_⟩
  rw [field?_insertPorts_of_not_mem ?_ _ path, hresult]
  intro port hport heq
  obtain ⟨after, hafter, hport⟩ := List.mem_flatMap.1 hport
  exact hlater after hafter (heq ▸ (List.of_mem_zip hport).1)

theorem introduces_bridge {views : List BridgeView}
    (h : declare? i (.bridge views) d = .ok d') (hn : n ∈ views.flatMap BridgeView.names) :
    ∃ f, Introduces d i.path n f (.bridge views) ∧ d'.field? i.path n = some f := by
  by_cases fits : ∀ widths ∈ views.map BridgeView.widths, total widths ≤ cellBits
  · obtain ⟨machine, fields, hok, row, -, -, -, -, rfl⟩ := d.machine.lends_lendBridge? fits
    rw [declare?_bridge_of_ok hok, List.map_map, ← List.flatMap_def] at h
    obtain rfl := Except.ok.inj h
    obtain ⟨v, j, view, f, hview, hname, hfield, hlast, hresult⟩ :=
      exists_field?_views (List.forall_mem_map.1 fits) hn { d with machine } i.path
    obtain ⟨hj, hname⟩ := BridgeView.getElem?_names hname
    refine ⟨f, .viewField hok hview hj hname ?_ hfield hlast, hresult⟩
    rw [List.map_map, List.getElem?_map, hview]
    rfl
  · rw [declare?_bridge_of_wide fits] at h
    cases h

/-- A declaration binds the names that it introduces. -/
theorem exists_introduces_of_declare? {declaration : Declaration}
    (h : declare? i declaration d = .ok d') (hn : n ∈ declaration.names) :
    ∃ f, Introduces d i.path n f declaration ∧ d'.field? i.path n = some f := by
  cases declaration with
  | gate k gate => exact introduces_gate h hn
  | bridge views => exact introduces_bridge h hn
  | synonym target name =>
    obtain rfl := List.mem_singleton.1 hn
    obtain ⟨f, hf, rfl⟩ := declare?_synonym_eq_ok h
    exact ⟨f, .synonym hf, by rw [field?_insertPort, if_pos ⟨rfl, rfl⟩]⟩
  | connection source target => cases hn
  | exposure port => cases hn

/-- A declaration leaves all names alone that it does not introduce. -/
theorem field?_declare?_of_not_mem {declaration : Declaration}
    (h : declare? i declaration d = .ok d') (hn : n ∉ declaration.names) :
    d'.field? i.path n = d.field? i.path n := by
  cases declaration with
  | gate k gate =>
    rw [declare?_gate] at h
    obtain rfl := Except.ok.inj h
    exact field?_insertPorts_zip hn _ _ i.path
  | bridge views =>
    obtain ⟨machine, fields, -, rfl⟩ := declare?_bridge_eq_ok h
    exact field?_insertPorts_zip hn _ _ i.path
  | synonym target name =>
    obtain ⟨f, -, rfl⟩ := declare?_synonym_eq_ok h
    rw [field?_insertPort, if_neg fun heq => hn (List.mem_singleton.2 heq.2)]
  | connection source target =>
    obtain ⟨w, -, -, rfl⟩ := declare?_connection_eq_ok h
    rfl
  | exposure port => exact (exposes_of_declare? h).own n

/-! ## Names that an instance declares -/

theorem field?_declareAll_of_not_mem {declarations : List Declaration}
    (h : declareAll i declarations d = .done d') (hn : ∀ declaration ∈ declarations,
      n ∉ declaration.names) : d'.field? i.path n = d.field? i.path n := by
  induction declarations generalizing d with
  | nil =>
    obtain rfl : d = d' := congrArg Attempt.state h
    rfl
  | cons declaration declarations ih =>
    obtain ⟨e, hstep, hrest⟩ := exists_of_declareAll_cons h
    obtain ⟨hfirst, hothers⟩ := List.forall_mem_cons.1 hn
    rw [ih hrest hothers, field?_declare?_of_not_mem hstep hfirst]

/-- A name that an instance declares belongs to the last declaration of it. -/
theorem exists_introduces {declarations : List Declaration}
    (h : declareAll i declarations d = .done d')
    (hn : ∃ declaration ∈ declarations, n ∈ declaration.names) :
    ∃ done declaration rest e f, declarations = done ++ declaration :: rest ∧
      n ∈ declaration.names ∧ (∀ later ∈ rest, n ∉ later.names) ∧
      declareAll i done d = .done e ∧ Introduces e i.path n f declaration ∧
      d'.field? i.path n = some f := by
  obtain ⟨done, declaration, rest, rfl, hname, hlater⟩ := exists_last hn
  obtain ⟨e, hdone, hrest⟩ := Attempt.exists_of_each_append_eq_done h
  obtain ⟨u, hstep, hrest⟩ := exists_of_declareAll_cons hrest
  obtain ⟨f, hintroduces, hfield⟩ := exists_introduces_of_declare? hstep hname
  refine ⟨done, declaration, rest, e, f, rfl, hname, hlater, hdone, hintroduces, ?_⟩
  rw [field?_declareAll_of_not_mem hrest hlater, hfield]

end Draft

/-! ## Names that children hand over -/

namespace Turn

variable {m : Machine} {s : Schematic} {i : Instance} {earlier later : List Instance}
  {before after last : Draft} {n : String}

/-- A port that a child hands over keeps its field until the parent has its turn, unless a child that
is populated later hands over the same name.  The child shows this field until the end. -/
theorem exists_kept (h : Turn m s i earlier later before after)
    (hlast : Attempt.each Draft.populate later after = .done last) {first between : List Instance}
    {j : Instance} {port : String} (hsplit : earlier = first ++ j :: between)
    (hparent : j.parent? = some i.path) (hport : port ∈ j.schematic.exposed)
    (hbetween : ∀ k ∈ between, ¬ Draft.Hands k i.path (memberName j.name port)) :
    ∃ f, last.exposed? j.path port = some f ∧ last.field? j.path port = some f ∧
      before.field? i.path (memberName j.name port) = some f := by
  subst hsplit
  obtain ⟨u, hu, hrest⟩ := Attempt.exists_of_each_append_eq_done h.reached
  obtain ⟨v, hv, hbefore⟩ := Attempt.exists_of_each_cons_eq_done hrest
  have hturn : Turn m s j first (between ++ i :: later) u v := by
    refine ⟨?_, hu, hv⟩
    rw [h.order, List.append_assoc, List.cons_append]
  have hend : Attempt.each Draft.populate (between ++ i :: later) v = .done last := by
    rw [Attempt.each_append, hbefore, Attempt.done_andThen, Attempt.each_cons, h.populated,
      Attempt.done_andThen, hlast]
  have hscope := hturn.scope_last hend
  obtain ⟨f, hf, hexposed, hhanded⟩ := (Draft.populates_of_eq_done hv).shown port hport
  refine ⟨f, ?_, ?_, ?_⟩
  · rw [Draft.exposed?, hscope]
    exact hexposed
  · rw [Draft.field?, hscope]
    exact hf
  · have hkept : before.field? i.path (memberName j.name port) =
        v.field? i.path (memberName j.name port) := by
      refine Draft.each_populate_keeps (fun d => d.field? i.path (memberName j.name port)) ?_ hbefore
      intro k hk d d' hpopulates
      have hmem : k ∈ first ++ j :: between :=
        List.mem_append_right _ (List.mem_cons_of_mem _ hk)
      exact hpopulates.unnamed i.path _ (h.earlier_apart hmem) (hbetween k hk)
    rw [hkept]
    exact hhanded i.path hparent

/-- Of the children that hand over a name, the one that is populated last counts.  What the name
stands for is what this child shows until the end. -/
theorem exists_handed (h : Turn m s i earlier later before after)
    (hlast : Attempt.each Draft.populate later after = .done last)
    (hn : ∃ j ∈ earlier, Draft.Hands j i.path n) :
    ∃ j port f, s.HasNode j ∧ j.parent? = some i.path ∧ port ∈ j.schematic.exposed ∧
      n = memberName j.name port ∧ last.exposed? j.path port = some f ∧
      last.field? j.path port = some f ∧ before.field? i.path n = some f := by
  obtain ⟨first, j, between, hsplit, ⟨hparent, port, hport, rfl⟩, hbetween⟩ := exists_last hn
  obtain ⟨f, hkept⟩ := h.exists_kept hlast hsplit hparent hport hbetween
  have hmem : j ∈ earlier := hsplit ▸ List.mem_append_right _ List.mem_cons_self
  exact ⟨j, port, f, h.mem_iff.2 (Or.inl hmem), hparent, hport, rfl, hkept⟩

theorem field?_before_of_not_handed (h : Turn m s i earlier later before after)
    (hn : ∀ j ∈ earlier, ¬ Draft.Hands j i.path n) : before.field? i.path n = none := by
  refine Draft.each_populate_keeps (fun d => d.field? i.path n) ?_ h.reached
  intro j hj d d' hpopulates
  exact hpopulates.unnamed i.path n (h.earlier_apart hj) (hn j hj)

/-- All children of an instance have been populated before it, so what they hand over has come. -/
theorem exists_hands_iff (h : Turn m s i earlier later before after) :
    (∃ j ∈ earlier, Draft.Hands j i.path n) ↔
      ∃ sub ∈ i.schematic.subs, ∃ port ∈ sub.2.exposed, n = memberName sub.1 port := by
  constructor
  · rintro ⟨j, hj, hparent, port, hport, hname⟩
    obtain ⟨k, hsub, -⟩ := h.hasNode.exists_sub (h.mem_iff.2 (Or.inl hj)) hparent
    exact ⟨_, List.mem_of_getElem? hsub, port, hport, hname⟩
  · rintro ⟨⟨name, t⟩, hmem, port, hport, hname⟩
    obtain ⟨k, hsub⟩ := List.getElem?_of_mem hmem
    have hchild : s.HasNode ⟨i.path ++ [k], name, t⟩ := .child h.hasNode hsub rfl
    have hparent : (⟨i.path ++ [k], name, t⟩ : Instance).parent? = some i.path :=
      Instance.parent?_eq_some_iff.2 ⟨k, rfl⟩
    exact ⟨_, h.mem_earlier hchild hparent, hparent, port, hport, hname⟩

/-- The declarations of an instance decide about its ports; showing ports changes none of them. -/
theorem exists_declareAll (h : Turn m s i earlier later before after) :
    ∃ d, Draft.declareAll i i.schematic.declarations before = .done d ∧
      ∀ n, after.field? i.path n = d.field? i.path n := by
  obtain ⟨d, hall, rfl⟩ := Draft.exists_of_populate_eq_done h.populated
  exact ⟨d, hall, fun _ => rfl⟩

end Turn

/-! ## Ports of built circuits -/

/-- Instances of the schematic declare the name themselves. -/
inductive Schematic.Declares (t : Schematic) : String → Prop
  /-- The inputs and the output of a gate are called `a`, `b` and `c`, or `a` and `b` if it has
  one input. -/
  | terminal {k : GateKind} {gate letter : String} (hgate : (k, gate) ∈ t.gates)
      (hletter : letter ∈ if k = .not then ["a", "b"] else ["a", "b", "c"]) :
      t.Declares (memberName gate letter)
  | viewField {views : List BridgeView} {view : BridgeView} {j : Nat} (hviews : views ∈ t.bridges)
      (hview : view ∈ views) (hj : j < view.widths.length) :
      t.Declares (memberName view.name (toString j))
  | synonym {target name : String} (h : (target, name) ∈ t.aliases) : t.Declares name

/-- Instances of the schematic get the name from sub-circuit `k` and from nowhere else. -/
structure Schematic.GetsOnlyFrom (t : Schematic) (k : Nat) (n : String) : Prop where
  undeclared : ¬ t.Declares n
  only : ∀ (k' : Nat) (sub : String × Schematic), t.subs[k']? = some sub →
    (∃ port ∈ sub.2.exposed, n = memberName sub.1 port) → k' = k

namespace Schematic

variable {t : Schematic}

theorem gate_mem_declarations {k : GateKind} {gate : String} :
    .gate k gate ∈ t.declarations ↔ (k, gate) ∈ t.gates := by
  simp [declarations, k.mem_all]

theorem bridge_mem_declarations {views : List BridgeView} :
    .bridge views ∈ t.declarations ↔ views ∈ t.bridges := by
  simp [declarations]

theorem synonym_mem_declarations {target name : String} :
    .synonym target name ∈ t.declarations ↔ (target, name) ∈ t.aliases := by
  simp [declarations]

theorem terminalNames_eq (k : GateKind) (gate : String) :
    k.terminalNames gate =
      (if k = .not then ["a", "b"] else ["a", "b", "c"]).map (memberName gate) := by
  cases k <;> rfl

theorem declares_iff {n : String} :
    t.Declares n ↔ ∃ declaration ∈ t.declarations, n ∈ declaration.names := by
  constructor
  · intro h
    cases h with
    | terminal hgate hletter =>
      refine ⟨_, gate_mem_declarations.2 hgate, ?_⟩
      rw [Declaration.names, terminalNames_eq]
      exact List.mem_map_of_mem hletter
    | viewField hviews hview hj =>
      refine ⟨_, bridge_mem_declarations.2 hviews, List.mem_flatMap.2 ⟨_, hview, ?_⟩⟩
      exact List.mem_map_of_mem (List.mem_range.2 hj)
    | synonym h => exact ⟨_, synonym_mem_declarations.2 h, List.mem_singleton.2 rfl⟩
  · rintro ⟨declaration, hmem, hn⟩
    cases declaration with
    | gate k gate =>
      rw [Declaration.names, terminalNames_eq] at hn
      obtain ⟨letter, hletter, rfl⟩ := List.mem_map.1 hn
      exact .terminal (gate_mem_declarations.1 hmem) hletter
    | bridge views =>
      obtain ⟨view, hview, hn⟩ := List.mem_flatMap.1 hn
      obtain ⟨j, hj, rfl⟩ := List.mem_map.1 hn
      exact .viewField (bridge_mem_declarations.1 hmem) hview (List.mem_range.1 hj)
    | synonym target name =>
      obtain rfl := List.mem_singleton.1 hn
      exact .synonym (synonym_mem_declarations.1 hmem)
    | connection source target => cases hn
    | exposure port => cases hn

/-- The names of all ports that instances of the schematic declare themselves and receive from their
children, with repetitions. -/
def portNames (s : Schematic) : List String :=
  s.declarations.flatMap Declaration.names ++
    s.subs.flatMap fun sub => sub.2.exposed.map (memberName sub.1)

theorem mem_portNames {n : String} : n ∈ t.portNames ↔ t.Declares n ∨
    ∃ sub ∈ t.subs, ∃ port ∈ sub.2.exposed, n = memberName sub.1 port := by
  rw [portNames, List.mem_append, List.mem_flatMap, declares_iff]
  simp [eq_comm]

end Schematic

namespace Machine

variable {m : Machine} {s : Schematic} {last : Draft} {i : Instance}

/-- In the course of a build, the draft in which an instance has carried out some of its
declarations and none of the others. -/
def Reaches (m : Machine) (s : Schematic) (i : Instance) (done : List Declaration) (d : Draft) :
    Prop :=
  ∃ earlier later before rest, s.instances.reverse = earlier ++ i :: later ∧
    i.schematic.declarations = done ++ rest ∧
    Attempt.each Draft.populate earlier (m.draft s) = .done before ∧
    Draft.declareAll i done before = .done d

/-- At the end an instance has what it declares, each name from the last declaration of it. -/
theorem exists_declared_field (h : m.populateAll s = .done last) (hi : s.HasNode i) {n : String}
    (hn : i.schematic.Declares n) :
    ∃ done declaration rest d f, i.schematic.declarations = done ++ declaration :: rest ∧
      n ∈ declaration.names ∧ (∀ later ∈ rest, n ∉ later.names) ∧ m.Reaches s i done d ∧
      d.Introduces i.path n f declaration ∧ last.field? i.path n = some f := by
  obtain ⟨earlier, later, before, after, hturn, hlast⟩ := exists_turn h hi
  obtain ⟨e, hall, hfields⟩ := hturn.exists_declareAll
  obtain ⟨done, declaration, rest, d, f, hsplit, hname, hlater, hdone, hintroduces, hfield⟩ :=
    Draft.exists_introduces hall (Schematic.declares_iff.1 hn)
  refine ⟨done, declaration, rest, d, f, hsplit, hname, hlater, ?_, hintroduces, ?_⟩
  · exact ⟨earlier, later, before, _, hturn.order, hsplit, hturn.reached, hdone⟩
  · rw [Draft.field?, hturn.scope_last hlast]
    exact (hfields n).trans hfield

/-- What an instance does not declare it has from its children. -/
theorem field?_of_not_declares {n : String} {earlier later : List Instance} {before after : Draft}
    (hturn : Turn m s i earlier later before after)
    (hlast : Attempt.each Draft.populate later after = .done last)
    (hn : ¬ i.schematic.Declares n) : last.field? i.path n = before.field? i.path n := by
  obtain ⟨e, hall, hfields⟩ := hturn.exists_declareAll
  have hnone : ∀ declaration ∈ i.schematic.declarations, n ∉ declaration.names :=
    fun declaration hmem hname => hn (Schematic.declares_iff.2 ⟨declaration, hmem, hname⟩)
  rw [Draft.field?, hturn.scope_last hlast]
  exact (hfields n).trans (Draft.field?_declareAll_of_not_mem hall hnone)

/-- At the end an instance has the names that it declares and those that its children hand over. -/
theorem isSome_field?_iff (h : m.populateAll s = .done last) (hi : s.HasNode i) {n : String} :
    (last.field? i.path n).isSome ↔ i.schematic.Declares n ∨
      ∃ sub ∈ i.schematic.subs, ∃ port ∈ sub.2.exposed, n = memberName sub.1 port := by
  by_cases hdeclares : i.schematic.Declares n
  · obtain ⟨done, declaration, rest, d, f, -, -, -, -, -, hfield⟩ :=
      exists_declared_field h hi hdeclares
    simp [hfield, hdeclares]
  · obtain ⟨earlier, later, before, after, hturn, hlast⟩ := exists_turn h hi
    rw [field?_of_not_declares hturn hlast hdeclares, ← hturn.exists_hands_iff]
    simp only [hdeclares, false_or]
    constructor
    · intro hsome
      by_contra hnone
      have hnone : ∀ j ∈ earlier, ¬ Draft.Hands j i.path n := fun j hj hhands =>
        hnone ⟨j, hj, hhands⟩
      rw [hturn.field?_before_of_not_handed hnone] at hsome
      cases hsome
    · intro hhands
      obtain ⟨j, port, f, -, -, -, -, -, -, hfield⟩ := hturn.exists_handed hlast hhands
      rw [hfield]
      rfl

/-- A name that comes to an instance from one of its sub-circuits alone stands for what that
sub-circuit shows. -/
theorem exists_handed_field (h : m.populateAll s = .done last) (hi : s.HasNode i) {k : Nat}
    {name port : String} {t : Schematic} (hsub : i.schematic.subs[k]? = some (name, t))
    (hport : port ∈ t.exposed) (honly : i.schematic.GetsOnlyFrom k (memberName name port)) :
    ∃ f, last.exposed? (i.path ++ [k]) port = some f ∧
      last.field? (i.path ++ [k]) port = some f ∧
      last.field? i.path (memberName name port) = some f := by
  obtain ⟨earlier, later, before, after, hturn, hlast⟩ := exists_turn h hi
  have hhands := hturn.exists_hands_iff.2
    ⟨(name, t), List.mem_of_getElem? hsub, port, hport, rfl⟩
  obtain ⟨j, port', f, hj, hparent, hport', hname, hexposed, hfield, hbefore⟩ :=
    hturn.exists_handed hlast hhands
  obtain ⟨k', hsub', hpath⟩ := hi.exists_sub hj hparent
  obtain rfl := honly.only k' _ hsub' ⟨port', hport', hname⟩
  rw [hsub] at hsub'
  obtain ⟨rfl, rfl⟩ := Prod.mk.inj (Option.some.inj hsub')
  obtain rfl := memberName_inj hname
  rw [hpath] at hexposed hfield
  refine ⟨f, hexposed, hfield, ?_⟩
  rw [field?_of_not_declares hturn hlast honly.undeclared, hbefore]

/-- At the end an instance shows what it is to expose and nothing else. -/
theorem exposed?_last (h : m.populateAll s = .done last) (hi : s.HasNode i) (n : String) :
    last.exposed? i.path n =
      if n ∈ i.schematic.exposed then last.field? i.path n else none := by
  obtain ⟨earlier, later, before, after, hturn, hlast⟩ := exists_turn h hi
  rw [Draft.exposed?, Draft.field?, hturn.scope_last hlast]
  exact hturn.exposed?_after n

theorem isSome_field?_of_exposed (h : m.populateAll s = .done last) (hi : s.HasNode i)
    {n : String} (hn : n ∈ i.schematic.exposed) : (last.field? i.path n).isSome := by
  obtain ⟨earlier, later, before, after, hturn, hlast⟩ := exists_turn h hi
  obtain ⟨f, hf, -⟩ := (Draft.populates_of_eq_done hturn.populated).shown n hn
  rw [Draft.field?, hturn.scope_last hlast]
  exact Option.isSome_of_eq_some hf

/-- The names of a built instance, and the fields they stand for. -/
structure NamesPorts (m : Machine) (s : Schematic) (i : Instance) (node : Circuit) : Prop where
  /-- The ports have the names that the instance declares and those that its children hand over,
  and no others. -/
  names : ∀ n, n ∈ node.ports ↔ i.schematic.Declares n ∨
    ∃ sub ∈ i.schematic.subs, ∃ port ∈ sub.2.exposed, n = memberName sub.1 port
  /-- A name that the instance declares stands for what the last declaration of it introduces, at
  the moment when it is carried out. -/
  declared : ∀ n, i.schematic.Declares n →
    ∃ done declaration rest d f, i.schematic.declarations = done ++ declaration :: rest ∧
      n ∈ declaration.names ∧ (∀ later ∈ rest, n ∉ later.names) ∧ m.Reaches s i done d ∧
      d.Introduces i.path n f declaration ∧ node.ports[n]? = some f
  /-- A name that comes from one child alone stands for what this child shows. -/
  handed : ∀ (k : Nat) (name : String) (t : Schematic), i.schematic.subs[k]? = some (name, t) →
    ∀ port ∈ t.exposed, i.schematic.GetsOnlyFrom k (memberName name port) →
      ∃ child f, node.children[k]? = some child ∧ child.exposed[port]? = some f ∧
        node.ports[memberName name port]? = some f
  /-- Exactly the names that are to be exposed are shown, and they stand for the same fields. -/
  exposed : ∀ n, node.exposed[n]? = if n ∈ i.schematic.exposed then node.ports[n]? else none
  exposed_mem : ∀ n ∈ i.schematic.exposed, n ∈ node.ports

/-- The name maps of every instance of a built circuit are exact. -/
theorem ports_exact {c : Circuit} (hbuilt : (m.build s).circuit = .ok c) {path : List Nat}
    {node : Circuit} (hnode : c.at? path = some node) :
    ∃ i, s.HasNode i ∧ i.path = path ∧ m.NamesPorts s i node := by
  obtain ⟨last, hlast, rfl⟩ := exists_draft_of_build hbuilt
  rw [Schematic.at?_assemble] at hnode
  obtain ⟨t, ht, rfl⟩ := Option.map_eq_some_iff.1 hnode
  obtain ⟨name, hi⟩ := Schematic.exists_hasNode ht
  refine ⟨_, hi, rfl, ?_, ?_, ?_, ?_, ?_⟩
  · intro n
    rw [Std.TreeMap.mem_iff_isSome_getElem?, Schematic.getElem?_ports_assemble]
    exact isSome_field?_iff hlast hi
  · intro n hn
    rw [Schematic.getElem?_ports_assemble]
    exact exists_declared_field hlast hi hn
  · intro k name t hsub port hport honly
    obtain ⟨f, hexposed, -, hfield⟩ := exists_handed_field hlast hi hsub hport honly
    refine ⟨_, f, Schematic.getElem?_children_assemble hsub _ _, ?_, ?_⟩
    · rw [Schematic.getElem?_exposed_assemble]
      exact hexposed
    · rw [Schematic.getElem?_ports_assemble]
      exact hfield
  · intro n
    rw [Schematic.getElem?_exposed_assemble, Schematic.getElem?_ports_assemble]
    exact exposed?_last hlast hi n
  · intro n hn
    rw [Std.TreeMap.mem_iff_isSome_getElem?, Schematic.getElem?_ports_assemble]
    exact isSome_field?_of_exposed hlast hi hn

/-- The names of the line that two inverters make. -/
theorem ports_exact_twoLines :
    ∃ c node, (({} : Machine).build twoLines).circuit = .ok c ∧ c.at? [0] = some node ∧
      ∃ i, twoLines.HasNode i ∧ i.path = [0] ∧ NamesPorts {} twoLines i node := by
  obtain ⟨c, hbuilt⟩ : ∃ c, (({} : Machine).build twoLines).circuit = .ok c := ⟨_, rfl⟩
  obtain ⟨last, -, hc⟩ := exists_draft_of_build hbuilt
  have hnode : c.at? [0] = some (repeater.assemble last.scope [0]) :=
    hc ▸ Schematic.at?_assemble twoLines last.scope [] [0]
  exact ⟨c, _, hbuilt, hnode, ports_exact hbuilt hnode⟩

end Machine

end PackedLogic
