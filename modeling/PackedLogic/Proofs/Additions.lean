import PackedLogic.Proofs.Extension
import Mathlib.Data.List.Perm.Basic
set_option autoImplicit false

/-!
# What a build adds

Building a schematic works on every part of a machine, and a fault may break it off anywhere.  What
is there beforehand stays in any case (`Machine.Extends`), and every socket that is added joins two
fields that this build has lent (`Machine.LendsIn`).  If the build succeeds, what it has used up is
what all instances declare together (`Schematic.sumOver`).
-/

namespace PackedLogic

/-! ## Fields that a build lends -/

namespace Draft

variable {d d' : Draft} {i : Instance} {declaration : Declaration} {f : Field}

/-- The declaration lends the field, as a terminal of its gate or in a view of its bridge. -/
inductive HandsOut (d : Draft) (f : Field) : Declaration → Prop
  | terminal {k : GateKind} {name : String} (lane : Fin k.arity)
      (hfield : f = (d.machine.lendGate k).2 lane) : HandsOut d f (.gate k name)
  | viewField {views : List BridgeView} {machine : Machine} {fields : List (List Field)}
      {row : List Field}
      (hlent : d.machine.lendBridge? (views.map BridgeView.widths) = .ok (machine, fields))
      (hrow : row ∈ fields) (hfield : f ∈ row) : HandsOut d f (.bridge views)

/-- Every port has the field of an earlier port or one that the declaration lends. -/
theorem field?_of_declare? (h : declare? i declaration d = .ok d') {path : List Nat}
    {n : String} (hf : d'.field? path n = some f) :
    (∃ path n, d.field? path n = some f) ∨ HandsOut d f declaration := by
  cases declaration with
  | gate k name =>
    rw [declare?_gate] at h
    obtain rfl := Except.ok.inj h
    rcases field?_insertPorts hf with hold | ⟨port, hport, rfl⟩
    · exact Or.inl ⟨path, n, hold⟩
    · obtain ⟨lane, hlane⟩ := List.mem_ofFn.1 (List.of_mem_zip hport).2
      exact Or.inr (.terminal lane hlane.symm)
  | bridge views =>
    obtain ⟨machine, fields, hlent, rfl⟩ := declare?_bridge_eq_ok h
    rcases field?_insertPorts hf with hold | ⟨port, hport, rfl⟩
    · exact Or.inl ⟨path, n, hold⟩
    · obtain ⟨row, hrow, hfield⟩ := List.mem_flatten.1 (List.of_mem_zip hport).2
      exact Or.inr (.viewField hlent hrow hfield)
  | synonym target name =>
    obtain ⟨g, hg, rfl⟩ := declare?_synonym_eq_ok h
    rw [field?_insertPort] at hf
    split at hf
    · exact Or.inl ⟨i.path, target, hf ▸ hg⟩
    · exact Or.inl ⟨path, n, hf⟩
  | connection source target =>
    obtain ⟨w, -, -, rfl⟩ := declare?_connection_eq_ok h
    exact Or.inl ⟨path, n, hf⟩
  | exposure port =>
    obtain ⟨g, hg, rfl⟩ := declare?_exposure_eq_ok h
    rw [field?_expose, field?_handOver] at hf
    split at hf
    · exact Or.inl ⟨i.path, port, hf ▸ hg⟩
    · exact Or.inl ⟨path, n, hf⟩

end Draft

/-! ## What a build keeps -/

namespace Attempt

variable {α σ : Type} {P : σ → Prop} {s : σ}

theorem keeps_ofExcept {step : Except Fault σ} (hs : P s) (h : ∀ t, step = .ok t → P t) :
    P (ofExcept s step).state := by
  cases step with
  | error f => exact hs
  | ok t => exact h t rfl

theorem keeps_andThen {a : Attempt σ} {next : σ → Attempt σ} (ha : P a.state)
    (h : ∀ t, P t → P (next t).state) : P (a.andThen next).state := by
  rcases a with ⟨t, _ | f⟩
  · exact h t ha
  · exact ha

/-- What every step adds to a measure of the state, a completed sequence adds together. -/
theorem measure_each {step : α → σ → Attempt σ} (μ : σ → Nat) {w : α → Nat}
    (h : ∀ a {s t}, step a s = .done t → μ t = μ s + w a) {as : List α} {t : σ}
    (hdone : each step as s = .done t) : μ t = μ s + total (as.map w) := by
  induction as generalizing s with
  | nil =>
    obtain rfl : s = t := congrArg Attempt.state hdone
    rfl
  | cons a as ih =>
    obtain ⟨u, hstep, hrest⟩ := exists_of_each_cons_eq_done hdone
    rw [ih hrest, h a hstep, List.map_cons, total_cons, Nat.add_assoc]

end Attempt

namespace Machine

variable {m : Machine} {s : Schematic}

/-- What the declarations keep, each in the draft that the build has reached by then, the build keeps,
completed or not. -/
theorem populateAll_keeps_along {P : Draft → Prop} (hstart : P (m.draft s))
    (hdeclare : ∀ {i done declaration rest d d'}, m.Reaches s i done d →
      i.schematic.declarations = done ++ declaration :: rest → P d →
      Draft.declare? i declaration d = .ok d' → P d')
    (hreport : ∀ (i : Instance) {d : Draft}, P d → P (d.reportPopulated i)) :
    P (m.populateAll s).state := by
  rw [populateAll_eq]
  refine Attempt.each_keeps_along ?_ hstart
  intro earlier i later before horder hreached hbefore
  refine Attempt.keeps_andThen ?_ fun d hd => hreport i hd
  refine Attempt.each_keeps_along ?_ hbefore
  intro done declaration rest d hsplit hdone hd
  exact Attempt.keeps_ofExcept hd fun d' hstep =>
    hdeclare ⟨earlier, later, before, _, horder, hsplit, hreached, hdone⟩ hsplit hd hstep

/-- In the course of building the schematic, some instance comes to a declaration that lends the
field. -/
def LendsIn (m : Machine) (s : Schematic) (f : Field) : Prop :=
  ∃ i done declaration rest d, m.Reaches s i done d ∧
    i.schematic.declarations = done ++ declaration :: rest ∧ Draft.HandsOut d f declaration

/-- The machine is extended, and all ports and new sockets have been lent since the build began. -/
structure Adds (m : Machine) (s : Schematic) (d : Draft) : Prop where
  extended : m.Extends d.machine
  joins : ∃ added, d.machine.sim.sockets.sockets = m.sim.sockets.sockets ++ added ∧
    ∀ w ∈ added, m.LendsIn s w.source ∧ m.LendsIn s w.target
  ports : ∀ {path : List Nat} {n : String} {f : Field}, d.field? path n = some f → m.LendsIn s f

theorem Adds.declare? {d d' : Draft} {i : Instance} {done rest : List Declaration}
    {declaration : Declaration} (h : m.Adds s d) (hreached : m.Reaches s i done d)
    (hsplit : i.schematic.declarations = done ++ declaration :: rest)
    (hstep : Draft.declare? i declaration d = .ok d') : m.Adds s d' := by
  have hworks := Draft.works_of_declare? hstep
  refine ⟨h.extended.trans hworks.extended, ?_, ?_⟩
  · obtain ⟨added, hadded, hjoins⟩ := h.joins
    obtain ⟨new, hnew, hports⟩ := hworks.exists_sockets
    refine ⟨added ++ new, by rw [hnew, hadded, List.append_assoc], ?_⟩
    intro w hw
    rcases List.mem_append.1 hw with hold | hw
    · exact hjoins w hold
    · obtain ⟨source, target, hsource, htarget⟩ := hports w hw
      exact ⟨h.ports hsource, h.ports htarget⟩
  · intro path n f hf
    rcases Draft.field?_of_declare? hstep hf with ⟨path', n', hold⟩ | hnew
    · exact h.ports hold
    · exact ⟨i, done, declaration, rest, d, hreached, hsplit, hnew⟩

theorem adds_populateAll (m : Machine) (s : Schematic) : m.Adds s (m.populateAll s).state := by
  refine populateAll_keeps_along ?_ (fun hreached hsplit h => h.declare? hreached hsplit) ?_
  · exact ⟨.of_eq rfl rfl, ⟨[], (List.append_nil _).symm, nofun⟩, nofun⟩
  · intro i d h
    exact ⟨h.extended.trans (.of_eq rfl rfl), h.joins, h.ports⟩

end Machine

/-! ## Sums over trees -/

/-- The order of summands does not matter. -/
theorem total_perm {ns ns' : List Nat} (h : ns.Perm ns') : total ns = total ns' := h.foldr_eq 0

/-- Equal summands make a product. -/
theorem total_map_of_eq {α : Type} {l : List α} {f : α → Nat} {c : Nat} (h : ∀ a ∈ l, f a = c) :
    total (l.map f) = l.length * c := by
  induction l with
  | nil => simp
  | cons a l ih =>
    obtain ⟨ha, hl⟩ := List.forall_mem_cons.1 h
    rw [List.map_cons, total_cons, ih hl, ha, List.length_cons, Nat.add_one_mul, Nat.add_comm]

theorem total_map_ite {α : Type} (l : List α) (p : α → Prop) [DecidablePred p] :
    total (l.map fun a => if p a then 1 else 0) = l.countP p := by
  induction l with
  | nil => rfl
  | cons a l ih =>
    rw [List.map_cons, total_cons, ih, List.countP_cons, Nat.add_comm]
    simp only [decide_eq_true_eq]

namespace Schematic

mutual

/-- Adds up a number over the tree of sub-circuits.  A schematic counts once for every instance of
it. -/
def sumOver (w : Schematic → Nat) : Schematic → Nat
  | ⟨name, gates, bridges, subs, connections, exposed, aliases, dependencies⟩ =>
    w ⟨name, gates, bridges, subs, connections, exposed, aliases, dependencies⟩ +
      sumOverSubs w subs
termination_by structural s => s

/-- Adds up a number over several trees. -/
def sumOverSubs (w : Schematic → Nat) : List (String × Schematic) → Nat
  | [] => 0
  | (_, s) :: subs => sumOver w s + sumOverSubs w subs
termination_by structural subs => subs

end

variable (w : Schematic → Nat)

theorem sumOverSubs_eq (subs : List (String × Schematic)) :
    sumOverSubs w subs = total (subs.map fun sub => sub.2.sumOver w) := by
  induction subs with
  | nil => rfl
  | cons sub subs ih => simp [sumOverSubs, ih]

theorem sumOver_eq (s : Schematic) :
    s.sumOver w = w s + total (s.subs.map fun sub => sub.2.sumOver w) := by
  rw [← sumOverSubs_eq]
  cases s
  rfl

/-- A number that every instance adds to those of its children is in the end the sum over all below it;
in a waiting line, those that had their turn count alone and the others with all below them. -/
theorem total_enrol {v below : Instance → Nat}
    (hbelow : ∀ i, below i = v i + total (i.children.map below)) (order : List Pending) (next : Nat)
    (h : next ≤ order.length) :
    total ((enrol order next).map fun p => v p.toInstance) =
      total ((order.take next).map fun p => v p.toInstance) +
        total ((order.drop next).map fun p => below p.toInstance) := by
  fun_induction enrol order next with
  | case1 order next hlt ih =>
    have hlength : next + 1 ≤ (order ++ order[next].children next).length := by
      rw [List.length_append]
      omega
    have hnext : next + 1 ≤ order.length := hlt
    have hturn : total ((order[next].children next).map fun p => below p.toInstance) =
        total (order[next].toInstance.children.map below) := by
      rw [Pending.children, List.map_map]
      rfl
    rw [ih hlength, List.take_append_of_le_length hnext, List.drop_append_of_le_length hnext,
      List.take_succ_eq_append_getElem hlt, List.drop_eq_getElem_cons hlt]
    simp only [List.map_append, List.map_cons, List.map_nil, total_append, total_cons, total_nil,
      hturn, hbelow order[next].toInstance]
    omega
  | case2 order next hge =>
    obtain rfl : next = order.length := by omega
    simp

/-- Over all instances together, this sum is what the root comes to. -/
theorem total_instances_of_below {v below : Instance → Nat}
    (hbelow : ∀ i, below i = v i + total (i.children.map below)) (s : Schematic) :
    total (s.instances.map v) = below s.root := by
  have hline := total_enrol hbelow [⟨s.root, none⟩] 0 (Nat.zero_le _)
  rw [← s.toInstance_roster, List.map_map, roster]
  simpa [root, Function.comp_def] using hline

theorem sumOver_children (i : Instance) :
    i.schematic.sumOver w =
      w i.schematic + total (i.children.map fun j => j.schematic.sumOver w) := by
  rw [sumOver_eq, ← i.map_children (sumOver w)]

/-- If every instance counts for what its schematic does, the sum is the one over the tree. -/
theorem total_instances (s : Schematic) :
    total (s.instances.map fun i => w i.schematic) = s.sumOver w :=
  total_instances_of_below (sumOver_children w) s

end Schematic

/-! ## What is used up -/

/-- What a machine has a number of. -/
inductive Resource
  | gate (k : GateKind)
  | bridge
  | socket
  deriving DecidableEq, Repr

/-- How many of them a simulator has given out: gates of a kind, blocks of the bus, sockets. -/
def Simulator.inUse (sim : Simulator) : Resource → Nat
  | .gate k => (sim.pool k).instances
  | .bridge => sim.bus.blockCount
  | .socket => sim.sockets.size

/-- How many of them a declaration takes. -/
def Declaration.takes : Declaration → Resource → Nat
  | gate k _, .gate l => if k = l then 1 else 0
  | bridge _, .bridge => 1
  | connection _ _, .socket => 1
  | _, _ => 0

/-- How many of them a schematic declares for every instance of it. -/
def Schematic.declared (r : Resource) (s : Schematic) : Nat :=
  match r with
  | .gate k => (s.gates.filter fun g => g.1 = k).length
  | .bridge => s.bridges.length
  | .socket => s.connections.length

namespace Schematic

/-- Gates are declared kind by kind, and so all of them. -/
theorem perm_gates (gates : List (GateKind × String)) :
    (GateKind.all.flatMap fun k => gates.filter fun g => g.1 = k).Perm gates := by
  rw [List.perm_iff_count]
  intro g
  have hcount : ∀ k, (gates.filter fun g => g.1 = k).count g =
      if g.1 = k then gates.count g else 0 := by
    intro k
    split
    · rename_i hk
      exact List.count_filter (decide_eq_true hk)
    · rename_i hk
      exact List.count_eq_zero.2 fun hmem => hk (by simpa using (List.mem_filter.1 hmem).2)
  obtain ⟨k, name⟩ := g
  cases k <;> simp [GateKind.all, hcount]

theorem total_takes_gates (gates : List (GateKind × String)) (r : Resource) :
    total ((GateKind.all.flatMap fun k =>
      (gates.filter fun g => g.1 = k).map fun g => Declaration.gate g.1 g.2).map
        fun declaration => declaration.takes r) =
      match r with
      | .gate k => (gates.filter fun g => g.1 = k).length
      | .bridge | .socket => 0 := by
  rw [← List.map_flatMap, List.map_map, total_perm ((perm_gates gates).map _)]
  cases r with
  | gate k => exact (total_map_ite gates (·.1 = k)).trans List.countP_eq_length_filter
  | bridge | socket => exact total_map_of_eq (c := 0) fun _ _ => rfl

/-- What an instance takes is what its schematic declares. -/
theorem total_takes (s : Schematic) (r : Resource) :
    total (s.declarations.map fun declaration => declaration.takes r) = s.declared r := by
  simp only [declarations, List.map_append, total_append, total_takes_gates, List.map_map]
  rw [total_map_of_eq (l := s.bridges) (c := if r = .bridge then 1 else 0),
    total_map_of_eq (l := s.aliases) (c := 0),
    total_map_of_eq (l := s.connections) (c := if r = .socket then 1 else 0),
    total_map_of_eq (l := s.exposed) (c := 0)]
  · cases r <;> simp [declared]
  all_goals
    intro a _
    cases r <;> rfl

end Schematic

/-- Where nothing is lent, no gate is lent. -/
theorem Machine.Lends.inUse_gate {m m' : Machine} {row : Row} (h : m.Lends m' row) {k : GateKind}
    (hpart : .gates k ≠ row.part) : m'.sim.inUse (.gate k) = m.sim.inUse (.gate k) :=
  congrArg (fun blocks : List Block => total (blocks.map Block.cursor)) (h.others (.gates k) hpart)

namespace Draft

variable {d d' : Draft} {i : Instance} {declaration : Declaration} {path : List Nat}

/-- A declaration uses up what it takes and nothing else. -/
theorem Works.inUse (h : Works d path d' declaration) (r : Resource) :
    d'.machine.sim.inUse r = d.machine.sim.inUse r + declaration.takes r := by
  cases h with
  | @gate k name row hpart hwidth hlends =>
    cases r with
    | gate l =>
      by_cases hl : k = l
      · subst hl
        have hclaims := hlends.claims.total_cursor
        rw [hpart, hwidth] at hclaims
        rw [Declaration.takes, if_pos rfl]
        exact hclaims
      · rw [Declaration.takes, if_neg hl]
        exact hlends.inUse_gate (by simpa [hpart, eq_comm] using hl)
    | bridge => exact congrArg List.length (hlends.others .bus (by simp [hpart]))
    | socket => exact congrArg SocketRegistry.size hlends.sockets
  | @bridge views row hpart hlends hblocks =>
    cases r with
    | gate l => exact hlends.inUse_gate (by simp [hpart])
    | bridge =>
      have hlength := congrArg List.length hblocks
      rw [List.length_append, List.length_singleton] at hlength
      exact hlength
    | socket => exact congrArg SocketRegistry.size hlends.sockets
  | synonym hsim =>
    rw [hsim]
    rfl
  | connection w _ _ hsim =>
    rw [hsim]
    cases r with
    | gate l => cases l <;> rfl
    | bridge => rfl
    | socket => exact List.length_append
  | exposure hsim =>
    rw [hsim]
    rfl

theorem inUse_of_populate (h : d.populate i = .done d') (r : Resource) :
    d'.machine.sim.inUse r = d.machine.sim.inUse r + i.schematic.declared r := by
  obtain ⟨e, hall, rfl⟩ := exists_of_populate_eq_done h
  rw [← i.schematic.total_takes r]
  refine Attempt.measure_each (fun d => d.machine.sim.inUse r) ?_ hall
  intro declaration s t hstep
  exact (works_of_declare? (Attempt.ofExcept_eq_done hstep)).inUse r

end Draft

namespace Machine

variable {m : Machine} {s : Schematic}

theorem inUse_of_build {c : Circuit} (hbuilt : (m.build s).circuit = .ok c) (r : Resource) :
    (m.build s).machine.sim.inUse r = m.sim.inUse r + s.sumOver (Schematic.declared r) := by
  obtain ⟨last, hlast, -⟩ := exists_draft_of_build hbuilt
  have hmeasure := Attempt.measure_each (fun d : Draft => d.machine.sim.inUse r)
    (fun i {_ _} hstep => Draft.inUse_of_populate (i := i) hstep r) (m.populateAll_eq s ▸ hlast)
  rw [List.map_reverse, total_perm (List.reverse_perm _), s.total_instances] at hmeasure
  rw [m.machine_build, hlast]
  exact hmeasure

/-- A build adds to the machine and changes nothing that is there, whether it succeeds or not.  The
sockets that it adds join fields that it lends.  If it succeeds, it uses up what its instances
declare, all together. -/
theorem extends_build (m : Machine) (s : Schematic) :
    m.Extends (m.build s).machine ∧
      (∃ added,
        (m.build s).machine.sim.sockets.sockets = m.sim.sockets.sockets ++ added ∧
          ∀ w ∈ added, w.source.width = w.target.width ∧ m.LendsIn s w.source ∧
            m.LendsIn s w.target) ∧
      ∀ c, (m.build s).circuit = .ok c → ∀ r,
        (m.build s).machine.sim.inUse r = m.sim.inUse r + s.sumOver (Schematic.declared r) := by
  have hadds := m.adds_populateAll s
  obtain ⟨added, hadded, hjoins⟩ := hadds.joins
  rw [← m.machine_build] at hadded
  refine ⟨m.machine_build s ▸ hadds.extended, ?_, fun c hbuilt r => inUse_of_build hbuilt r⟩
  exact ⟨added, hadded, fun w hw => ⟨w.width_eq, hjoins w hw⟩⟩

/-- Three inverters, two of them in a repeater, make three gates and one socket. -/
theorem extends_build_twoLines :
    (({} : Machine).build twoLines).machine.sim.inUse (.gate .not) = 3 ∧
      (({} : Machine).build twoLines).machine.sim.inUse .socket = 1 :=
  ⟨(extends_build {} twoLines).2.2 _ rfl (.gate .not), (extends_build {} twoLines).2.2 _ rfl .socket⟩

end Machine

end PackedLogic
