import PackedLogic.Proofs.Reexposure
import PackedLogic.Proofs.Siblings
import PackedLogic.Proofs.Wiring
set_option autoImplicit false

/-!
# Names that several sub-circuits publish

Two sub-circuits of one schematic may publish a port under the same name, because their instances are
called the same or because the two parts of the name run together.  Instances are populated from the
last to the first, and what is handed over later hides what was handed over earlier, so the
sub-circuit that is declared first gets the name (`Machine.first_publisher_counts`).
-/

namespace PackedLogic

namespace Schematic

/-- Sub-circuit `k` shows the port to its parent, which knows it by the name `n`. -/
def Publishes (t : Schematic) (k : Nat) (port n : String) : Prop :=
  ∃ name child, t.subs[k]? = some (name, child) ∧ port ∈ child.exposed ∧ n = memberName name port

/-- No sub-circuit that is declared before `k` publishes the name, and the schematic does not declare
it itself. -/
structure FirstPublished (t : Schematic) (k : Nat) (port n : String) : Prop where
  publishes : t.Publishes k port n
  undeclared : ¬ t.Declares n
  first : ∀ k' port', t.Publishes k' port' n → k ≤ k'

/-- No sub-circuit that is declared after `k` publishes the name, and the schematic does not declare
it itself. -/
structure LastPublished (t : Schematic) (k : Nat) (port n : String) : Prop where
  publishes : t.Publishes k port n
  undeclared : ¬ t.Declares n
  last : ∀ k' port', t.Publishes k' port' n → k' ≤ k

/-- Two inverters of one name. -/
def namesakes : Schematic :=
  { name := "PAIR"
    subs := [("u", inverter), ("u", inverter)] }

theorem Publishes.lt_length {t : Schematic} {k : Nat} {port n : String} (h : t.Publishes k port n) :
    k < t.subs.length := by
  obtain ⟨name, child, hsub, -⟩ := h
  exact (List.getElem?_eq_some_iff.1 hsub).1

theorem publishes_namesakes_zero : namesakes.Publishes 0 "n_a" "u_n_a" :=
  ⟨"u", inverter, rfl, by decide, by decide +kernel⟩

theorem publishes_namesakes_one : namesakes.Publishes 1 "n_a" "u_n_a" :=
  ⟨"u", inverter, rfl, by decide, by decide +kernel⟩

end Schematic

/-! ## Populating siblings -/

namespace Turn

variable {m : Machine} {s : Schematic} {i j : Instance} {earlier later first between : List Instance}
  {before after : Draft} {k k' : Nat}

/-- Of two children of an instance, the one that is populated later is declared earlier. -/
theorem lt_of_populated_later (h : Turn m s i earlier later before after)
    (hsplit : earlier = first ++ j :: between) (hj : j.path = i.path ++ [k]) {b : Instance}
    (hb : b ∈ between) (hpath : b.path = i.path ++ [k']) : k' < k := by
  have horder := s.pairwise_instances_order
  rw [← List.pairwise_reverse, h.order, hsplit] at horder
  have hpaths := h.pairwise
  rw [hsplit] at hpaths
  simp only [List.append_assoc, List.cons_append] at horder hpaths
  have hbehind : b ∈ between ++ i :: later := List.mem_append_left _ hb
  have hnot := (List.pairwise_cons.1 (List.pairwise_append.1 horder).2.1).1 b hbehind
  have hne := ((List.pairwise_cons.1 (List.pairwise_append.1 hpaths).2.1).1 b hbehind).2
  rcases Nat.lt_trichotomy k' k with hlt | rfl | hgt
  · exact hlt
  · exact absurd (hpath.trans hj.symm) hne
  · exact absurd (.sibling i.path k' k hpath hj hgt) hnot

end Turn

namespace Machine

variable {m : Machine} {s : Schematic} {last : Draft} {i : Instance} {k : Nat} {port n : String}

/-- A name that several sub-circuits publish stands for what the first of them shows. -/
theorem exists_first_published_field (h : m.populateAll s = .done last) (hi : s.HasNode i)
    (hk : i.schematic.FirstPublished k port n) :
    ∃ f, last.exposed? (i.path ++ [k]) port = some f ∧ last.field? i.path n = some f := by
  obtain ⟨⟨name, child, hsub, hport, rfl⟩, hundeclared, hfirst⟩ := hk
  obtain ⟨earlier, later, before, after, hturn, hlast⟩ := exists_turn h hi
  have hnode : s.HasNode ⟨i.path ++ [k], name, child⟩ := .child hi hsub rfl
  have hparent : (⟨i.path ++ [k], name, child⟩ : Instance).parent? = some i.path :=
    Instance.parent?_eq_some_iff.2 ⟨k, rfl⟩
  obtain ⟨first, between, hsplit⟩ := List.append_of_mem (hturn.mem_earlier hnode hparent)
  obtain ⟨f, hshown, -, hbefore⟩ := hturn.exists_kept hlast hsplit hparent hport fun b hb hhands => by
    -- whoever would hide the name is populated later, so it is declared earlier
    obtain ⟨hbparent, port', hport', hname⟩ := hhands
    have hbnode : s.HasNode b := hturn.mem_iff.2 (.inl (by simp [hsplit, hb]))
    obtain ⟨k', hsub', hpath⟩ := hi.exists_sub hbnode hbparent
    have hlt := hturn.lt_of_populated_later hsplit rfl hb hpath
    have hle := hfirst k' port' ⟨b.name, b.schematic, hsub', hport', hname⟩
    omega
  refine ⟨f, hshown, ?_⟩
  rw [field?_of_not_declares hturn hlast hundeclared, hbefore]

/-- A name that several sub-circuits publish and the schematic does not declare resolves to the
exposed field of the sub-circuit declared first among them.  In a machine that owns its cells this
is the field of no other sub-circuit. -/
theorem first_publisher_counts {c node : Circuit} {path : List Nat} {t : Schematic}
    (hbuilt : (m.build s).circuit = .ok c) (ht : s.at? path = some t)
    (hnode : c.at? path = some node) (hk : t.FirstPublished k port n) :
    ∃ child f, node.children[k]? = some child ∧ child.exposed[port]? = some f ∧
      node.ports[n]? = some f ∧
      (m.sim.Owns m.store → ∀ (k' : Nat) (child' : Circuit) (port' : String) (g : Field), k' ≠ k →
        node.children[k']? = some child' → child'.exposed[port']? = some g → g ≠ f) := by
  obtain ⟨last, hlast, hc⟩ := exists_draft_of_build hbuilt
  have hassembled := hnode
  rw [hc, Schematic.at?_assemble, ht] at hassembled
  obtain rfl := Option.some.inj hassembled
  obtain ⟨name, hi⟩ := Schematic.exists_hasNode ht
  obtain ⟨f, hshown, hfield⟩ := exists_first_published_field hlast hi hk
  obtain ⟨sub, child, hsub, -⟩ := hk.publishes
  have hchild := Schematic.getElem?_children_assemble hsub last.scope path
  have hexposed : (child.assemble last.scope (path ++ [k])).exposed[port]? = some f := by
    rw [Schematic.getElem?_exposed_assemble]
    exact hshown
  refine ⟨_, f, hchild, hexposed, ?_, ?_⟩
  · rw [Schematic.getElem?_ports_assemble]
    exact hfield
  · intro howns k' child' port' g hne hchild' hg
    exact exposed_ne_of_ne howns hbuilt hnode hne hchild' hchild hg hexposed

theorem first_publisher_counts_namesakes :
    ∃ c child f, (({} : Machine).build Schematic.namesakes).circuit = .ok c ∧
      c.children[0]? = some child ∧ child.exposed["n_a"]? = some f ∧ c.ports["u_n_a"]? = some f ∧
      ∀ (k' : Nat) (child' : Circuit) (port' : String) (g : Field), k' ≠ 0 →
        c.children[k']? = some child' → child'.exposed[port']? = some g → g ≠ f := by
  obtain ⟨c, hbuilt⟩ : ∃ c, (({} : Machine).build Schematic.namesakes).circuit = .ok c := ⟨_, rfl⟩
  have hfirst : Schematic.namesakes.FirstPublished 0 "n_a" "u_n_a" :=
    ⟨Schematic.publishes_namesakes_zero, by decide +kernel, fun _ _ _ => Nat.zero_le _⟩
  obtain ⟨child, f, hchild, hshown, hport, hothers⟩ :=
    first_publisher_counts hbuilt rfl (Circuit.at?_nil c) hfirst
  exact ⟨c, child, f, hbuilt, hchild, hshown, hport, hothers ⟨nofun, List.nodup_nil⟩⟩

/-- Of two inverters of one name the second one does not get the name: it has the other bit of the
word. -/
theorem last_publisher_hidden :
    ∃ c child f g, (({} : Machine).build Schematic.namesakes).circuit = .ok c ∧
      Schematic.namesakes.LastPublished 1 "n_a" "u_n_a" ∧
      c.children[1]? = some child ∧ child.exposed["n_a"]? = some f ∧
      c.ports["u_n_a"]? = some g ∧ g ≠ f := by
  have hlast : Schematic.namesakes.LastPublished 1 "n_a" "u_n_a" :=
    ⟨Schematic.publishes_namesakes_one, by decide +kernel,
      fun _ _ h => Nat.le_of_lt_succ h.lt_length⟩
  obtain ⟨c, child, f, g, hbuilt, hchild, hshown, hport, hf, hg⟩ :
      ∃ c child f g, (({} : Machine).build Schematic.namesakes).circuit = .ok c ∧
        c.children[1]? = some child ∧ child.exposed["n_a"]? = some f ∧
        c.ports["u_n_a"]? = some g ∧ f.offset = 0 ∧ g.offset = 1 :=
    ⟨_, _, _, _, rfl, rfl, rfl, rfl, rfl, rfl⟩
  refine ⟨c, child, f, g, hbuilt, hlast, hchild, hshown, hport, ?_⟩
  rintro rfl
  cases hf.symm.trans hg

end Machine

end PackedLogic
