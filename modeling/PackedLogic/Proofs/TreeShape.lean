import PackedLogic.Proofs.Compilation
set_option autoImplicit false

/-!
# The shape of a build

The list in which a schematic is laid out has one entry for every node of the tree of sub-circuits,
behind that of its parent; and the circuit that is put together from it has this shape again, with
the maps at every path with which the instance there was left in the list
(`Machine.mirrors_compile`).
-/

namespace PackedLogic

namespace Machine

/-- In a build that succeeds, the instance at every position has its turn, after those behind it and
before those ahead of it. -/
theorem exists_turn_at {m : Machine} {s : Schematic} {last : Draft}
    (h : m.populateAll s = .done last) {n : Nat} {p : Pending} (hp : s.roster[n]? = some p) :
    ∃ before after, Turn m s p.toInstance ((s.roster.drop (n + 1)).reverse.map Pending.toInstance)
        ((s.roster.take n).reverse.map Pending.toInstance) before after ∧
      Attempt.each Draft.populate ((s.roster.take n).reverse.map Pending.toInstance) after =
        .done last := by
  have horder : s.instances.reverse =
      (s.roster.drop (n + 1)).reverse.map Pending.toInstance ++
        p.toInstance :: (s.roster.take n).reverse.map Pending.toInstance := by
    rw [← s.toInstance_roster, ← List.map_reverse]
    conv_lhs => rw [← List.take_append_drop n s.roster, Draft.drop_roster hp]
    simp
  rw [populateAll_eq, horder] at h
  obtain ⟨before, hbefore, h⟩ := Attempt.exists_of_each_append_eq_done h
  obtain ⟨after, hafter, hlater⟩ := Attempt.exists_of_each_cons_eq_done h
  exact ⟨before, after, ⟨horder, hbefore, hafter⟩, hlater⟩

/-- When the instance at a position has its turn in the list: those behind it have been populated,
from the last one on, and those ahead of it still wait. -/
structure TurnAt (m : Machine) (s : Schematic) (n : Nat) (before after : Lineup) : Prop where
  reached : (m.lineup s).populateEach? ((List.range s.order.length).drop (n + 1)).reverse =
    some (.done before)
  populated : before.populateAt? n = some (.done after)

/-- The circuit has the maps with which the instance at a position was left when it had been
populated from its schematic.  Its parent then had every port that the instance shows, under the name
by which it knows the instance. -/
def LeavesAt (m : Machine) (s : Schematic) (n : Nat) (p : Pending) (node : Circuit) : Prop :=
  ∃ before after start circuit, m.TurnAt s n before after ∧
    before.order[n]? = some start ∧ start.schematic = p.schematic ∧ start.name = p.name ∧
    after.order[n]? = some { start with circuit } ∧
    node.ports = circuit.ports ∧ node.exposed = circuit.exposed ∧
    ∀ k, p.parent = some k → ∃ parent, after.order[k]? = some parent ∧
      ∀ port ∈ p.schematic.exposed, ∃ f, node.exposed[port]? = some f ∧
        parent.circuit.ports[memberName p.name port]? = some f

theorem leavesAt_assemble {m : Machine} {s : Schematic} {last : Draft}
    (h : m.populateAll s = .done last) {n : Nat} {p : Pending} (hp : s.roster[n]? = some p) :
    m.LeavesAt s n p (last.assembled p) := by
  obtain ⟨before, after, hturn, hlast⟩ := exists_turn_at h hp
  obtain ⟨hports, hexposed, hparent⟩ := hturn.leaves hlast
  have hbehind : ((List.range s.order.length).drop (n + 1)).reverse.map (fun n => s.roster[n]?) =
      (s.roster.drop (n + 1)).reverse.map some := by
    rw [List.map_reverse, List.map_drop, map_range_roster, List.map_reverse, List.map_drop]
  have hreached := Draft.populateEach?_lineup hbehind (m.draft s)
  rw [hturn.reached, ← m.lineup_eq] at hreached
  have hpopulated := Draft.populateAt?_lineup hp before
  rw [hturn.populated] at hpopulated
  refine ⟨before.lineup s, after.lineup s, before.entry p, after.circuit p.path,
    ⟨hreached, hpopulated⟩, Draft.getElem?_lineup hp before, rfl, rfl,
    Draft.getElem?_lineup hp after, hports, hexposed, ?_⟩
  intro k hk
  rcases Schematic.parent_roster hp with ⟨hnone, -, -⟩ | ⟨l, q, hl, -, hq, hpath⟩
  · rw [hnone] at hk
    cases hk
  · obtain rfl : l = k := Option.some.inj (hl.symm.trans hk)
    exact ⟨after.entry q, Draft.getElem?_lineup hq after, hparent q.path hpath⟩

/-- The tree of instances has the shape of the tree of sub-circuits, from the list in which they are
laid out to the circuit that is built. -/
structure Mirrors (m : Machine) (s : Schematic) (c : Circuit) : Prop where
  /-- What is laid out is what the waiting line yields, where every instance has its path. -/
  order : s.order = s.roster.map Pending.entry
  /-- The list has as many entries as the tree has nodes, no two for the same path. -/
  length : s.order.length = s.size
  nodup : (s.roster.map fun p => p.path).Nodup
  /-- There is an entry for every path, and it is the node at this path. -/
  entries : ∀ path, (s.at? path).isSome ↔ ∃ p ∈ s.roster, p.path = path
  nodes : ∀ p ∈ s.roster, s.HasNode p.toInstance
  /-- Every entry but the root's has its parent ahead of it. -/
  placed : Schematic.Placed s.roster
  ahead : ∀ (n : Nat) (w : Waiting) (k : Nat), s.order[n]? = some w → w.parent = some k → k < n
  /-- In the circuit, the same paths lead somewhere. -/
  paths : ∀ path, (c.at? path).isSome ↔ (s.at? path).isSome
  /-- What lies at a path is what the instance at this path was left with. -/
  leaves : ∀ (n : Nat) (p : Pending), s.roster[n]? = some p →
    ∃ node, c.at? p.path = some node ∧ m.LeavesAt s n p node
  /-- The children of an instance are those of its sub-circuits, in their order. -/
  children : ∀ (n : Nat) (p : Pending) (node : Circuit), s.roster[n]? = some p →
    c.at? p.path = some node → node.children.length = p.schematic.subs.length ∧
      ∀ (k : Nat) (name : String) (t : Schematic), p.schematic.subs[k]? = some (name, t) →
        ∃ (n' : Nat) (child : Circuit),
          s.roster[n']? = some ⟨⟨p.path ++ [k], name, t⟩, some n⟩ ∧
            node.children[k]? = some child ∧
              m.LeavesAt s n' ⟨⟨p.path ++ [k], name, t⟩, some n⟩ child

/-- The sub-circuits of an instance stand in the line, each with the position of the instance. -/
theorem exists_child_roster {s : Schematic} {n : Nat} {p : Pending} (hp : s.roster[n]? = some p)
    {k : Nat} {name : String} {t : Schematic} (hsub : p.schematic.subs[k]? = some (name, t)) :
    ∃ n' : Nat, s.roster[n']? = some ⟨⟨p.path ++ [k], name, t⟩, some n⟩ := by
  have hmem : (⟨⟨p.path ++ [k], name, t⟩, some n⟩ : Pending) ∈ p.children n :=
    List.mem_map_of_mem (Instance.mem_children.2 ⟨k, hsub, rfl⟩)
  rw [← Schematic.childrenOf_roster hp] at hmem
  exact List.mem_iff_getElem?.1 (List.mem_of_mem_filter hmem)

/-- No position is out of range while a schematic is built by position, and the circuit that is built
mirrors its tree of sub-circuits. -/
theorem mirrors_compile (m : Machine) (s : Schematic) :
    m.compile? s = some (m.build s) ∧ ∀ c, (m.build s).circuit = .ok c → m.Mirrors s c := by
  refine ⟨m.compile?_eq s, fun c hbuilt => ?_⟩
  obtain ⟨last, hlast, rfl⟩ := exists_draft_of_build hbuilt
  have hnode : ∀ {n : Nat} {p : Pending}, s.roster[n]? = some p →
      (s.assemble last.scope []).at? p.path = some (last.assembled p) := by
    intro n p hp
    exact (Schematic.mem_roster.1 ⟨p, List.mem_of_getElem? hp, rfl⟩).at?_assemble last
  refine ⟨s.order_eq, s.length_order.trans s.length_roster, ?_, ?_, ?_, s.placed_roster, ?_, ?_, ?_,
    ?_⟩
  · exact List.pairwise_map.2 s.pairwise_roster
  · intro path
    constructor
    · intro hsome
      obtain ⟨t, ht⟩ := Option.isSome_iff_exists.1 hsome
      obtain ⟨name, hpath⟩ := Schematic.exists_hasNode ht
      obtain ⟨p, hp, heq⟩ := Schematic.mem_roster.2 hpath
      exact ⟨p, hp, congrArg Instance.path heq⟩
    · rintro ⟨p, hp, rfl⟩
      rw [(Schematic.mem_roster.1 ⟨p, hp, rfl⟩).at?]
      rfl
  · exact fun p hp => Schematic.mem_roster.1 ⟨p, hp, rfl⟩
  · intro n w k hw hk
    rw [s.order_eq, List.getElem?_map] at hw
    obtain ⟨p, hp, rfl⟩ := Option.map_eq_some_iff.1 hw
    rcases Schematic.parent_roster hp with ⟨hnone, -, -⟩ | ⟨l, q, hl, hlt, -, -⟩
    · cases hnone.symm.trans hk
    · obtain rfl : l = k := Option.some.inj (hl.symm.trans hk)
      exact hlt
  · intro path
    rw [Schematic.at?_assemble, Option.isSome_map]
  · exact fun n p hp => ⟨_, hnode hp, leavesAt_assemble hlast hp⟩
  · intro n p node hp hpath
    rw [hnode hp] at hpath
    obtain rfl := Option.some.inj hpath
    refine ⟨?_, ?_⟩
    · rw [Draft.assembled, Schematic.children_assemble, Schematic.length_assembleSubs]
    · intro k name t hsub
      obtain ⟨n', hchild⟩ := exists_child_roster hp hsub
      exact ⟨n', _, hchild, Schematic.getElem?_children_assemble hsub _ _,
        leavesAt_assemble hlast hchild⟩

theorem mirrors_compile_twoLines :
    ∃ c, ({} : Machine).compile? twoLines = some (({} : Machine).build twoLines) ∧
      (({} : Machine).build twoLines).circuit = .ok c ∧ Mirrors {} twoLines c := by
  obtain ⟨hcompiled, hmirrors⟩ := mirrors_compile {} twoLines
  exact ⟨_, hcompiled, rfl, hmirrors _ rfl⟩

end Machine

end PackedLogic
