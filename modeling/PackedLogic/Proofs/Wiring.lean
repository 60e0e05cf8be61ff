import PackedLogic.Proofs.Extension
import Mathlib.Data.List.Forall2
set_option autoImplicit false

/-!
# The order of sockets

A machine applies its sockets in the order in which they were registered, so a value crosses as many
levels in one step as the order of the sockets allows.  The sockets of a circuit are those of its
connections (`Schematic.wires`): instance by instance from the last one to the root, and in the
order of declaration within an instance.  A connection is resolved while the circuit is still
being built, but nothing renames a port of an instance that has had its turn
(`Turn.scope_last`), so the sockets join what the finished circuit calls by the same names
(`Machine.connects_build`).
-/

namespace PackedLogic

/-- A connection of the instance at a path. -/
structure Wire where
  path : List Nat
  source : String
  target : String
  deriving DecidableEq, Repr

/-- The connections of an instance, in the order of declaration. -/
def Instance.wires (i : Instance) : List Wire :=
  i.schematic.connections.map fun (source, target) => ⟨i.path, source, target⟩

theorem Instance.path_of_mem_wires {i : Instance} {wire : Wire} (h : wire ∈ i.wires) :
    wire.path = i.path := by
  obtain ⟨connection, -, rfl⟩ := List.mem_map.1 h
  rfl

/-- The connections of all instances, from the last instance to the root. -/
def Schematic.wires (s : Schematic) : List Wire := s.instances.reverse.flatMap Instance.wires

/-- The socket leads from the port that the instance of a connection has under the name of its
source to the one it has under the name of its target. -/
def Circuit.Joins (c : Circuit) (wire : Wire) (w : Socket) : Prop :=
  ∃ node, c.at? wire.path = some node ∧ node.port? wire.source = .ok w.source ∧
    node.port? wire.target = .ok w.target

/-! ## One instance -/

namespace Draft

variable {d d' : Draft} {i : Instance}

/-- The socket leads from one port of an instance to another. -/
def Joins (d : Draft) (path : List Nat) (connection : String × String) (w : Socket) : Prop :=
  d.field? path connection.1 = some w.source ∧ d.field? path connection.2 = some w.target

theorem sockets_declareAll {declarations : List Declaration}
    (h : declareAll i declarations d = .done d')
    (hconnects : ∀ declaration ∈ declarations, ∀ source target,
      declaration ≠ .connection source target) :
    d'.machine.sim.sockets.sockets = d.machine.sim.sockets.sockets := by
  induction declarations generalizing d with
  | nil =>
    obtain rfl : d = d' := congrArg Attempt.state h
    rfl
  | cons declaration declarations ih =>
    obtain ⟨e, hstep, hrest⟩ := exists_of_declareAll_cons h
    obtain ⟨hfirst, hothers⟩ := List.forall_mem_cons.1 hconnects
    rw [ih hrest hothers, (works_of_declare? hstep).sockets_eq hfirst]

/-- Connections register their sockets one after the other, and no port changes meanwhile. -/
theorem joins_declareAll {connections : List (String × String)}
    (h : declareAll i (connections.map fun (source, target) => .connection source target) d =
      .done d') :
    ∃ added, d'.machine.sim.sockets.sockets = d.machine.sim.sockets.sockets ++ added ∧
      List.Forall₂ (d.Joins i.path) connections added := by
  induction connections generalizing d with
  | nil =>
    obtain rfl : d = d' := congrArg Attempt.state h
    exact ⟨[], (List.append_nil _).symm, .nil⟩
  | cons connection connections ih =>
    obtain ⟨e, hstep, hrest⟩ := exists_of_declareAll_cons h
    obtain ⟨added, hadded, hjoins⟩ := ih hrest
    have hports : ∀ n, e.field? i.path n = d.field? i.path n :=
      fun n => field?_declare?_of_not_mem hstep List.not_mem_nil
    cases works_of_declare? hstep with
    | connection w hsource htarget hsim =>
      refine ⟨w :: added, ?_, .cons ⟨hsource, htarget⟩ (hjoins.imp ?_)⟩
      · rw [hadded, hsim]
        exact (List.append_cons _ w added).symm
      · rintro connection v ⟨hv, hv'⟩
        exact ⟨(hports _).symm.trans hv, (hports _).symm.trans hv'⟩

/-- What an instance does before it registers sockets, and what it does then. -/
theorem exists_declarations_eq_connections (t : Schematic) :
    ∃ parts, t.declarations = parts ++
        t.connections.map (fun (source, target) => .connection source target) ++
          t.exposed.map .exposure ∧
      ∀ declaration ∈ parts, ∀ source target, declaration ≠ .connection source target := by
  refine ⟨_, rfl, ?_⟩
  intro declaration hmem source target heq
  subst heq
  simp at hmem

/-- Populating an instance registers a socket for each of its connections, between ports that it is
left with. -/
theorem joins_of_populate (h : d.populate i = .done d') :
    ∃ added, d'.machine.sim.sockets.sockets = d.machine.sim.sockets.sockets ++ added ∧
      List.Forall₂ (d'.Joins i.path) i.schematic.connections added := by
  obtain ⟨e, hall, rfl⟩ := exists_of_populate_eq_done h
  obtain ⟨parts, hdeclarations, hparts⟩ := exists_declarations_eq_connections i.schematic
  rw [hdeclarations] at hall
  obtain ⟨v, hall, hexposures⟩ := Attempt.exists_of_each_append_eq_done hall
  obtain ⟨u, hfirst, hconnections⟩ := Attempt.exists_of_each_append_eq_done hall
  obtain ⟨added, hadded, hjoins⟩ := joins_declareAll hconnections
  have hbefore : u.machine.sim.sockets.sockets = d.machine.sim.sockets.sockets :=
    sockets_declareAll hfirst hparts
  have hafter : e.machine.sim.sockets.sockets = v.machine.sim.sockets.sockets :=
    sockets_declareAll hexposures (by simp)
  have hports : ∀ n, e.field? i.path n = u.field? i.path n := by
    intro n
    rw [(exposes_declareAll hexposures).own]
    refine field?_declareAll_of_not_mem hconnections ?_
    intro declaration hmem
    obtain ⟨connection, -, rfl⟩ := List.mem_map.1 hmem
    exact List.not_mem_nil
  refine ⟨added, by rw [← hbefore, ← hadded, ← hafter]; rfl, hjoins.imp ?_⟩
  rintro connection w ⟨hsource, htarget⟩
  exact ⟨(hports _).trans hsource, (hports _).trans htarget⟩

end Draft

/-! ## All instances in turn -/

namespace Machine

variable {m : Machine} {s : Schematic} {last : Draft}

theorem joins_assemble {i : Instance} (hi : s.HasNode i) {source target : String} {w : Socket}
    (h : last.Joins i.path (source, target) w) :
    (s.assemble last.scope []).Joins ⟨i.path, source, target⟩ w := by
  refine ⟨_, hi.at?_assemble last, ?_, ?_⟩
  · rw [Circuit.port?, PortMap.find?, Schematic.getElem?_ports_assemble, h.1]
  · rw [Circuit.port?, PortMap.find?, Schematic.getElem?_ports_assemble, h.2]

/-- From any instance on, the sockets of the rest of the build are those of the connections of the
instances that still wait. -/
theorem joins_later {earlier later : List Instance} {before : Draft}
    (horder : s.instances.reverse = earlier ++ later)
    (hreached : Attempt.each Draft.populate earlier (m.draft s) = .done before)
    (hlast : Attempt.each Draft.populate later before = .done last) :
    ∃ added, last.machine.sim.sockets.sockets = before.machine.sim.sockets.sockets ++ added ∧
      List.Forall₂ (s.assemble last.scope []).Joins (later.flatMap Instance.wires) added := by
  induction later generalizing earlier before with
  | nil =>
    obtain rfl : before = last := congrArg Attempt.state hlast
    exact ⟨[], (List.append_nil _).symm, .nil⟩
  | cons i later ih =>
    obtain ⟨after, hpopulated, hrest⟩ := Attempt.exists_of_each_cons_eq_done hlast
    have hturn : Turn m s i earlier later before after := ⟨horder, hreached, hpopulated⟩
    have hscope := hturn.scope_last hrest
    obtain ⟨own, hown, hjoins⟩ := Draft.joins_of_populate hpopulated
    have hreached' : Attempt.each Draft.populate (earlier ++ [i]) (m.draft s) = .done after := by
      rw [Attempt.each_append, hreached, Attempt.done_andThen, Attempt.each_cons, hpopulated,
        Attempt.done_andThen, Attempt.each_nil]
    obtain ⟨others, hothers, hrests⟩ := ih (by rw [horder, List.append_cons]) hreached' hrest
    refine ⟨own ++ others, by rw [hothers, hown, List.append_assoc], ?_⟩
    rw [List.flatMap_cons]
    refine List.rel_append ?_ hrests
    rw [Instance.wires, List.forall₂_map_left_iff]
    refine hjoins.imp ?_
    rintro ⟨source, target⟩ w ⟨hsource, htarget⟩
    refine joins_assemble hturn.hasNode ?_
    exact ⟨by rw [Draft.field?, hscope]; exact hsource, by rw [Draft.field?, hscope]; exact htarget⟩

end Machine

/-! ## The order of instances -/

/-- Of two instances, known by their paths, the connections of the first come before those of the
second. -/
inductive Precedes (p q : List Nat) : Prop
  /-- A descendant precedes its ancestor. -/
  | below (r : List Nat) (hr : r ≠ []) (hp : p = q ++ r)
  /-- Of siblings, the one declared later precedes the other. -/
  | sibling (r : List Nat) (j k : Nat) (hp : p = r ++ [j]) (hq : q = r ++ [k]) (h : k < j)

namespace Precedes

variable {p q : List Nat}

theorem length_le (h : Precedes p q) : q.length ≤ p.length := by
  cases h with
  | below r _ hp => simp [hp]
  | sibling r j k hp hq => simp [hp, hq]

/-- On one level only siblings precede each other. -/
theorem exists_sibling (h : Precedes p q) (hlength : p.length = q.length) :
    ∃ r j k, p = r ++ [j] ∧ q = r ++ [k] ∧ k < j := by
  cases h with
  | below r hr hp =>
    rw [hp, List.length_append] at hlength
    exact absurd (List.length_eq_zero_iff.1 (by omega)) hr
  | sibling r j k hp hq h => exact ⟨r, j, k, hp, hq, h⟩

theorem irrefl (p : List Nat) : ¬ Precedes p p := by
  intro h
  obtain ⟨r, j, k, hp, hp', hlt⟩ := h.exists_sibling rfl
  obtain ⟨-, heq⟩ := List.append_inj' (hp.symm.trans hp') rfl
  exact Nat.ne_of_gt hlt (List.head_eq_of_cons_eq heq)

end Precedes

/-- Children are listed in the order in which they are declared. -/
theorem Instance.pairwise_children_order (i : Instance) :
    i.children.Pairwise fun j k => ¬ Precedes j.path k.path := by
  rw [List.pairwise_iff_getElem]
  intro a b ha hb hab h
  simp only [children, List.getElem_mapIdx] at h
  obtain ⟨r, j, k, hp, hq, hlt⟩ := h.exists_sibling (by simp)
  obtain ⟨-, hj⟩ := List.append_inj' hp rfl
  obtain ⟨-, hk⟩ := List.append_inj' hq rfl
  rw [← List.head_eq_of_cons_eq hj, ← List.head_eq_of_cons_eq hk] at hlt
  exact Nat.lt_asymm hab hlt

namespace Schematic

/-- Within a level, no instance precedes one that is listed before it. -/
theorem pairwise_generation_order (s : Schematic) (n : Nat) :
    (s.root.generation n).Pairwise fun i j => ¬ Precedes i.path j.path := by
  cases n with
  | zero => exact List.pairwise_singleton _ _
  | succ n =>
    rw [Instance.generation_succ, List.pairwise_flatMap]
    refine ⟨fun i _ => i.pairwise_children_order, (s.pairwise_generation n).imp_of_mem ?_⟩
    intro i j hi hj hne a ha b hb h
    obtain ⟨_, -, hpath⟩ := Instance.mem_children.1 ha
    obtain ⟨_, -, hpath'⟩ := Instance.mem_children.1 hb
    have hlength : a.path.length = b.path.length := by
      simp [hpath, hpath', (mem_generation.1 hi).2, (mem_generation.1 hj).2]
    -- only siblings could precede each other, and these have different parents
    obtain ⟨r, k, k', hp, hq, -⟩ := h.exists_sibling hlength
    have hparent := List.append_inj_left' (hpath.symm.trans hp) rfl
    have hparent' := List.append_inj_left' (hpath'.symm.trans hq) rfl
    exact hne (hparent.trans hparent'.symm)

theorem pairwise_instances_order (s : Schematic) :
    s.instances.Pairwise fun i j => ¬ Precedes i.path j.path := by
  rw [instances, List.pairwise_flatMap]
  refine ⟨fun n _ => s.pairwise_generation_order n, List.pairwise_lt_range.imp ?_⟩
  intro n n' hlt i hi j hj h
  have hle := h.length_le
  rw [(mem_generation.1 hi).2, (mem_generation.1 hj).2] at hle
  exact Nat.not_lt_of_le hle hlt

/-- What precedes comes first. -/
theorem lt_of_precedes {s : Schematic} {a b : Nat} {v w : Wire} (hv : s.wires[a]? = some v)
    (hw : s.wires[b]? = some w) (h : Precedes v.path w.path) : a < b := by
  have hpairs : s.wires.Pairwise fun v w => ¬ Precedes w.path v.path := by
    rw [wires, List.pairwise_flatMap, List.pairwise_reverse]
    constructor
    · intro i _
      rw [Instance.wires, List.pairwise_map]
      exact List.pairwise_of_forall fun _ _ => Precedes.irrefl i.path
    · refine s.pairwise_instances_order.imp ?_
      intro i j hij v hv w hw
      rwa [Instance.path_of_mem_wires hv, Instance.path_of_mem_wires hw]
  obtain ⟨ha, rfl⟩ := List.getElem?_eq_some_iff.1 hv
  obtain ⟨hb, rfl⟩ := List.getElem?_eq_some_iff.1 hw
  rcases Nat.lt_trichotomy a b with hlt | rfl | hgt
  · exact hlt
  · exact absurd h (Precedes.irrefl _)
  · exact absurd h (List.pairwise_iff_getElem.1 hpairs b a hb ha hgt)

end Schematic

namespace Machine

variable {m : Machine} {s : Schematic}

/-- The sockets that a build adds are those of the connections, one for each and in their order: those
of descendants ahead of those of their ancestors, and of siblings those of the later one first. -/
theorem connects_build {c : Circuit} (hbuilt : (m.build s).circuit = .ok c) :
    (∃ added, (m.build s).machine.sim.sockets.sockets = m.sim.sockets.sockets ++ added ∧
      List.Forall₂ c.Joins s.wires added) ∧
    ∀ (a b : Nat) (v w : Wire), s.wires[a]? = some v → s.wires[b]? = some w →
      Precedes v.path w.path → a < b := by
  obtain ⟨last, hlast, rfl⟩ := exists_draft_of_build hbuilt
  refine ⟨?_, fun a b v w hv hw => Schematic.lt_of_precedes hv hw⟩
  rw [m.machine_build, hlast]
  exact joins_later (List.nil_append _).symm rfl hlast

end Machine

/-- Two repeaters, one behind the other. -/
def longLine : Schematic :=
  { name := "LONG"
    subs := [("near", repeater), ("far", repeater)]
    connections := [("near_out_n_b", "far_in_n_a")] }

/-- The socket between the repeaters comes after those within them, and the far one's comes first. -/
theorem Machine.connects_build_longLine :
    ∃ c u v w, (({} : Machine).build longLine).circuit = .ok c ∧
      (({} : Machine).build longLine).machine.sim.sockets.sockets = [u, v, w] ∧
      c.Joins ⟨[1], "in_n_b", "out_n_a"⟩ u ∧ c.Joins ⟨[0], "in_n_b", "out_n_a"⟩ v ∧
      c.Joins ⟨[], "near_out_n_b", "far_in_n_a"⟩ w := by
  obtain ⟨c, hbuilt⟩ : ∃ c, (({} : Machine).build longLine).circuit = .ok c := ⟨_, rfl⟩
  obtain ⟨⟨added, hadded, hjoins⟩, -⟩ := connects_build hbuilt
  have hwires : longLine.wires =
      [⟨[1], "in_n_b", "out_n_a"⟩, ⟨[0], "in_n_b", "out_n_a"⟩,
        ⟨[], "near_out_n_b", "far_in_n_a"⟩] := by decide
  rw [hwires] at hjoins
  obtain _ | ⟨hu, _ | ⟨hv, _ | ⟨hw, _ | _⟩⟩⟩ := hjoins
  exact ⟨c, _, _, _, hbuilt, hadded, hu, hv, hw⟩

end PackedLogic
