import PackedLogic.Proofs.Drafts
import PackedLogic.Schematic.Order
import Mathlib.Data.List.Induction
set_option autoImplicit false

/-!
# The tree of instances

The nodes of a tree of sub-circuits are described by a relation, `Schematic.HasNode`: the root is
a node, and so is every sub-circuit of a node.  `Schematic.instances` lists every node once, level
by level (`Schematic.mem_instances`, `Schematic.pairwise_instances`).

The same list is what a waiting line yields that starts with the root and at whose end every
instance, on its turn, puts its sub-circuits (`Schematic.enrol`).  There every instance remembers
the position of its parent, which is always smaller than its own (`Schematic.placed_roster`).
-/

namespace PackedLogic

namespace Instance

theorem mem_children {i j : Instance} :
    j ∈ i.children ↔ ∃ n, i.schematic.subs[n]? = some (j.name, j.schematic) ∧
      j.path = i.path ++ [n] := by
  simp only [children, List.mem_mapIdx]
  constructor
  · rintro ⟨n, hn, rfl⟩
    exact ⟨n, List.getElem?_eq_getElem hn, rfl⟩
  · rintro ⟨n, hsub, hpath⟩
    obtain ⟨hn, hget⟩ := List.getElem?_eq_some_iff.1 hsub
    refine ⟨n, hn, ?_⟩
    rw [hget, ← hpath]

/-- The children are the sub-circuits under the names of their instances. -/
theorem map_children_sub (i : Instance) :
    (i.children.map fun j => (j.name, j.schematic)) = i.schematic.subs := by
  rw [children, List.mapIdx_eq_zipIdx_map, List.map_map]
  exact List.zipIdx_map_fst 0 i.schematic.subs

theorem map_children {α : Type} (i : Instance) (f : Schematic → α) :
    (i.children.map fun j => f j.schematic) = i.schematic.subs.map fun sub => f sub.2 := by
  rw [← i.map_children_sub, List.map_map]
  rfl

theorem parent?_eq_some_iff {i : Instance} {path : List Nat} :
    i.parent? = some path ↔ ∃ n, i.path = path ++ [n] := by
  unfold parent?
  constructor
  · intro h
    split at h
    · cases h
    · rename_i hpath
      obtain rfl := Option.some.inj h
      have hne : i.path ≠ [] := by simpa using hpath
      exact ⟨i.path.getLast hne, (List.dropLast_append_getLast hne).symm⟩
  · rintro ⟨n, hpath⟩
    simp [hpath]

theorem parent?_ne_path (i : Instance) : i.parent? ≠ some i.path := by
  intro h
  obtain ⟨n, hpath⟩ := parent?_eq_some_iff.1 h
  simpa using congrArg List.length hpath

/-- Different children of one instance have different paths. -/
theorem pairwise_children (i : Instance) : i.children.Pairwise fun j k => j.path ≠ k.path := by
  rw [List.pairwise_iff_getElem]
  intro a b ha hb hab heq
  simp only [children, List.getElem_mapIdx, List.append_cancel_left_eq, List.cons.injEq] at heq
  omega

end Instance

namespace Schematic

/-! ## Nodes -/

/-- The instance is a node of the tree of sub-circuits below the schematic. -/
inductive HasNode (s : Schematic) : Instance → Prop
  /-- The root carries the name of the schematic. -/
  | root : HasNode s s.root
  /-- Below a node, every sub-circuit is one under the name of its instance. -/
  | child {i j : Instance} {n : Nat} (hi : HasNode s i)
      (hsub : i.schematic.subs[n]? = some (j.name, j.schematic))
      (hpath : j.path = i.path ++ [n]) : HasNode s j

variable {s : Schematic}

/-- A path may be followed in two parts. -/
theorem at?_append (s : Schematic) (p q : List Nat) :
    s.at? (p ++ q) = (s.at? p).bind fun t => t.at? q := by
  induction p generalizing s with
  | nil => rfl
  | cons n p ih =>
    rw [List.cons_append, at?, at?]
    cases s.subs[n]? with
    | none => rfl
    | some sub => exact ih sub.2

theorem at?_concat {p : List Nat} {n : Nat} {t : Schematic} :
    s.at? (p ++ [n]) = some t ↔
      ∃ parent name, s.at? p = some parent ∧ parent.subs[n]? = some (name, t) := by
  rw [at?_append]
  constructor
  · intro h
    obtain ⟨parent, hparent, hchild⟩ := Option.bind_eq_some_iff.1 h
    obtain ⟨⟨name, child⟩, hsub, hat⟩ := Option.bind_eq_some_iff.1 hchild
    obtain rfl : child = t := Option.some.inj hat
    exact ⟨parent, name, hparent, hsub⟩
  · rintro ⟨parent, name, hparent, hsub⟩
    simp [hparent, at?, hsub]

theorem HasNode.at? {i : Instance} (h : s.HasNode i) : s.at? i.path = some i.schematic := by
  induction h with
  | root => rfl
  | child _ hsub hpath ih =>
    rw [hpath]
    exact at?_concat.2 ⟨_, _, ih, hsub⟩

/-- Wherever a path leads, there is a node. -/
theorem exists_hasNode {path : List Nat} {t : Schematic} (h : s.at? path = some t) :
    ∃ name, s.HasNode ⟨path, name, t⟩ := by
  induction path using List.reverseRecOn generalizing t with
  | nil =>
    obtain rfl : s = t := Option.some.inj h
    exact ⟨s.name, .root⟩
  | append_singleton path n ih =>
    obtain ⟨parent, name, hparent, hsub⟩ := at?_concat.1 h
    obtain ⟨_, hnode⟩ := ih hparent
    exact ⟨name, .child hnode hsub rfl⟩

/-- A node is known by its path. -/
theorem HasNode.eq_of_path_eq {i j : Instance} (hi : s.HasNode i) (hj : s.HasNode j)
    (hpath : i.path = j.path) : i = j := by
  have hname : i.name = j.name := by
    cases hi with
    | root =>
      cases hj with
      | root => rfl
      | child _ _ hj =>
        rw [hj] at hpath
        cases List.append_ne_nil_of_right_ne_nil _ (List.cons_ne_nil _ _) hpath.symm
    | @child i' _ n hi' hsub hi =>
      cases hj with
      | root =>
        rw [hi] at hpath
        cases List.append_ne_nil_of_right_ne_nil _ (List.cons_ne_nil _ _) hpath
      | @child j' _ n' hj' hsub' hj =>
        rw [hi, hj] at hpath
        obtain ⟨hparent, hn⟩ := List.append_inj' hpath rfl
        obtain rfl : n = n' := List.head_eq_of_cons_eq hn
        have hschematic := hi'.at?
        rw [hparent, hj'.at?] at hschematic
        rw [← Option.some.inj hschematic, hsub'] at hsub
        exact (congrArg Prod.fst (Option.some.inj hsub)).symm
  have hschematic : i.schematic = j.schematic :=
    Option.some.inj (by rw [← hi.at?, hpath, hj.at?])
  cases i
  cases j
  simp_all

/-- What lies one position below a node is one of its sub-circuits. -/
theorem HasNode.exists_sub {i j : Instance} (hi : s.HasNode i) (hj : s.HasNode j)
    (hparent : j.parent? = some i.path) :
    ∃ n, i.schematic.subs[n]? = some (j.name, j.schematic) ∧ j.path = i.path ++ [n] := by
  obtain ⟨n, hpath⟩ := Instance.parent?_eq_some_iff.1 hparent
  cases hj with
  | root => cases List.append_ne_nil_of_right_ne_nil _ (List.cons_ne_nil _ _) hpath.symm
  | @child i' _ n' hi' hsub hpath' =>
    rw [hpath'] at hpath
    obtain ⟨hsame, -⟩ := List.append_inj' hpath rfl
    obtain rfl := hi'.eq_of_path_eq hi hsame
    exact ⟨n', hsub, hpath'⟩

/-! ## Levels -/

theorem mem_generation {n : Nat} {j : Instance} :
    j ∈ s.root.generation n ↔ s.HasNode j ∧ j.path.length = n := by
  induction n generalizing j with
  | zero =>
    rw [Instance.generation_zero, List.mem_singleton]
    constructor
    · rintro rfl
      exact ⟨.root, rfl⟩
    · rintro ⟨hj, hlength⟩
      exact hj.eq_of_path_eq .root (List.length_eq_zero_iff.1 hlength)
  | succ n ih =>
    rw [Instance.generation_succ, List.mem_flatMap]
    constructor
    · rintro ⟨i, hi, hj⟩
      obtain ⟨hnode, hlength⟩ := ih.1 hi
      obtain ⟨k, hsub, hpath⟩ := Instance.mem_children.1 hj
      exact ⟨.child hnode hsub hpath, by simp [hpath, hlength]⟩
    · rintro ⟨hj, hlength⟩
      cases hj with
      | root => cases hlength
      | child hi hsub hpath =>
        refine ⟨_, ih.2 ⟨hi, ?_⟩, Instance.mem_children.2 ⟨_, hsub, hpath⟩⟩
        simpa [hpath] using hlength

theorem pairwise_generation (s : Schematic) (n : Nat) :
    (s.root.generation n).Pairwise fun i j => i.path ≠ j.path := by
  induction n with
  | zero => exact List.pairwise_singleton _ _
  | succ n ih =>
    rw [Instance.generation_succ, List.pairwise_flatMap]
    refine ⟨fun i _ => i.pairwise_children, ih.imp ?_⟩
    intro i j hne a ha b hb heq
    obtain ⟨_, -, hpath⟩ := Instance.mem_children.1 ha
    obtain ⟨_, -, hpath'⟩ := Instance.mem_children.1 hb
    rw [hpath, hpath'] at heq
    exact hne (List.append_inj_left' heq rfl)

theorem height_le_heightOfSubs {subs : List (String × Schematic)} {sub : String × Schematic}
    (h : sub ∈ subs) : sub.2.height ≤ heightOfSubs subs := by
  induction subs with
  | nil => cases h
  | cons first subs ih =>
    rw [heightOfSubs]
    rcases List.mem_cons.1 h with rfl | h
    · exact Nat.le_max_left _ _
    · exact Nat.le_trans (ih h) (Nat.le_max_right _ _)

/-- A node lies as many levels below the root as its path is long. -/
theorem HasNode.height_le {i : Instance} (h : s.HasNode i) :
    i.path.length + i.schematic.height ≤ s.height := by
  induction h with
  | root => exact Nat.le_of_eq (Nat.zero_add _)
  | child _ hsub hpath ih =>
    have hle := height_le_heightOfSubs (List.mem_of_getElem? hsub)
    rw [height_eq] at ih
    rw [hpath, List.length_append, List.length_singleton]
    dsimp only at hle
    omega

theorem HasNode.length_lt {i : Instance} (h : s.HasNode i) : i.path.length < s.height := by
  have hle := h.height_le
  have hpos := height_eq i.schematic
  omega

/-- The instances of a schematic are the nodes of its tree. -/
theorem mem_instances {i : Instance} : i ∈ s.instances ↔ s.HasNode i := by
  rw [instances, List.mem_flatMap]
  constructor
  · rintro ⟨n, -, hi⟩
    exact (mem_generation.1 hi).1
  · intro hi
    exact ⟨i.path.length, List.mem_range.2 hi.length_lt, mem_generation.2 ⟨hi, rfl⟩⟩

/-- No instance is listed twice, and none after one of a lower level. -/
theorem pairwise_instances (s : Schematic) :
    s.instances.Pairwise fun i j => i.path.length ≤ j.path.length ∧ i.path ≠ j.path := by
  rw [instances, List.pairwise_flatMap]
  constructor
  · intro n _
    refine (s.pairwise_generation n).imp_of_mem ?_
    intro i j hi hj hne
    exact ⟨Nat.le_of_eq ((mem_generation.1 hi).2.trans (mem_generation.1 hj).2.symm), hne⟩
  · refine List.pairwise_lt_range.imp ?_
    intro n n' hlt i hi j hj
    have hlevel : i.path.length < j.path.length := by
      rwa [(mem_generation.1 hi).2, (mem_generation.1 hj).2]
    exact ⟨Nat.le_of_lt hlevel, fun heq => Nat.lt_irrefl _ (heq ▸ hlevel)⟩

end Schematic

/-! ## The waiting line -/

/-- An instance together with the position of its parent in a list of instances. -/
structure Pending extends Instance where
  parent : Option Nat

/-- The instances directly below one that stands at a position. -/
def Pending.children (p : Pending) (position : Nat) : List Pending :=
  p.toInstance.children.map fun i => ⟨i, some position⟩

theorem Pending.map_schematic_children (p : Pending) (position : Nat) :
    ((p.children position).map fun q => q.schematic) = p.schematic.subs.map Prod.snd := by
  rw [children, List.map_map]
  exact p.toInstance.map_children id

namespace Schematic

/-- A turn takes one node from the trees that wait. -/
theorem nodesBelow_enrol {order : List Pending} {next : Nat} (h : next < order.length) :
    nodesBelow (((order ++ order[next].children next).drop (next + 1)).map fun p => p.schematic) +
      1 = nodesBelow ((order.drop next).map fun p => p.schematic) := by
  have hturn := @nodesBelow_turn (order.map fun p => p.schematic) next (by simpa using h)
  rw [List.getElem_map, ← Pending.map_schematic_children _ next, ← List.map_append] at hturn
  simpa only [List.map_drop] using hturn

/-- Lets the instances from position `next` on put their sub-circuits at the end of the line, one
after the other, those that come to stand there included. -/
def enrol (order : List Pending) (next : Nat) : List Pending :=
  if _ : next < order.length then
    enrol (order ++ order[next].children next) (next + 1)
  else order
termination_by nodesBelow ((order.drop next).map fun p => p.schematic)
decreasing_by
  rename_i h
  have hturn := nodesBelow_enrol h
  omega

/-- All instances in the order of a waiting line that starts with the root alone. -/
def roster (s : Schematic) : List Pending := enrol [⟨s.root, none⟩] 0

theorem enrol_of_lt {order : List Pending} {next : Nat} (h : next < order.length) :
    enrol order next = enrol (order ++ order[next].children next) (next + 1) := by
  rw [enrol, dif_pos h]

theorem enrol_of_ge {order : List Pending} {next : Nat} (h : order.length ≤ next) :
    enrol order next = order := by
  rw [enrol, dif_neg (Nat.not_lt_of_le h)]

/-- The line gets as long as the trees that wait have nodes. -/
theorem length_enrol (order : List Pending) (next : Nat) (h : next ≤ order.length) :
    (enrol order next).length =
      next + nodesBelow ((order.drop next).map fun p => p.schematic) := by
  fun_induction enrol order next with
  | case1 order next hlt ih =>
    have hlength : next + 1 ≤ (order ++ order[next].children next).length := by
      rw [List.length_append]
      omega
    have hturn := nodesBelow_enrol hlt
    rw [ih hlength]
    omega
  | case2 order next hge =>
    obtain rfl : next = order.length := by omega
    simp [nodesBelow]

/-- The instances below those of a list, whose first one stands at `position`. -/
def nextLevel (position : Nat) : List Pending → List Pending
  | [] => []
  | p :: ps => p.children position ++ nextLevel (position + 1) ps

theorem toInstance_nextLevel (position : Nat) (ps : List Pending) :
    (nextLevel position ps).map Pending.toInstance =
      (ps.map Pending.toInstance).flatMap Instance.children := by
  induction ps generalizing position with
  | nil => rfl
  | cons p ps ih =>
    rw [nextLevel, List.map_append, ih, List.map_cons, List.flatMap_cons, Pending.children,
      List.map_map]
    simp [Function.comp_def]

/-- One level has its turn while another one is waiting behind it. -/
theorem enrol_level (served level behind : List Pending) :
    enrol (served ++ level ++ behind) served.length =
      enrol (served ++ level ++ behind ++ nextLevel served.length level)
        (served.length + level.length) := by
  induction level generalizing served behind with
  | nil => simp [nextLevel]
  | cons p level ih =>
    have hlt : served.length < (served ++ p :: level ++ behind).length := by simp
    have hget : (served ++ p :: level ++ behind)[served.length] = p := by simp
    have hrest := ih (served ++ [p]) (behind ++ p.children served.length)
    rw [enrol_of_lt hlt, hget]
    simpa [nextLevel, Nat.add_assoc, Nat.add_comm, Nat.add_left_comm] using hrest

/-- From any level on, the line goes on level by level. -/
theorem toInstance_enrol (s : Schematic) {n k : Nat} (hheight : n + k = s.height)
    (served level : List Pending) (hlevel : level.map Pending.toInstance = s.root.generation n) :
    (enrol (served ++ level) served.length).map Pending.toInstance =
      served.map Pending.toInstance ++ (List.range' n k).flatMap s.root.generation := by
  induction k generalizing n served level with
  | zero =>
    have hnone : s.root.generation n = [] := by
      rw [List.eq_nil_iff_forall_not_mem]
      intro i hi
      obtain ⟨hnode, hlength⟩ := mem_generation.1 hi
      have hlt := hnode.length_lt
      omega
    obtain rfl : level = [] := List.map_eq_nil_iff.1 (hlevel.trans hnone)
    rw [List.append_nil, enrol_of_ge (Nat.le_refl _)]
    simp
  | succ k ih =>
    have hnext : (nextLevel served.length level).map Pending.toInstance =
        s.root.generation (n + 1) := by
      rw [toInstance_nextLevel, hlevel, Instance.generation_succ]
    have hrest := ih (by omega) (served ++ level) (nextLevel served.length level) hnext
    have hturn := enrol_level served level []
    rw [List.append_nil] at hturn
    rw [hturn, ← List.length_append, hrest, List.map_append, hlevel, List.range'_succ,
      List.flatMap_cons, List.append_assoc]

/-- The waiting line yields the instances in their order. -/
theorem toInstance_roster (s : Schematic) :
    s.roster.map Pending.toInstance = s.instances := by
  have hline := s.toInstance_enrol (n := 0) (k := s.height) (Nat.zero_add _) []
    [⟨s.root, none⟩] rfl
  rw [instances, List.range_eq_range']
  exact hline

theorem length_roster (s : Schematic) : s.roster.length = s.size := by
  rw [roster, length_enrol _ _ (Nat.zero_le _)]
  simp [nodesBelow, root]

/-- Every instance of a line but the root knows the position of its parent, ahead of its own. -/
def Placed (order : List Pending) : Prop :=
  ∀ (n : Nat) (p : Pending), order[n]? = some p →
    (p.parent = none ∧ p.path = []) ∨
      ∃ k parent, p.parent = some k ∧ k < n ∧ order[k]? = some parent ∧
        p.toInstance ∈ parent.toInstance.children

theorem Placed.append_children {order : List Pending} (h : Placed order) {next : Nat}
    (hnext : next < order.length) : Placed (order ++ order[next].children next) := by
  intro n p hp
  rcases Nat.lt_or_ge n order.length with hlt | hge
  · rw [List.getElem?_append_left hlt] at hp
    rcases h n p hp with hroot | ⟨k, parent, hparent, hk, hget, hchild⟩
    · exact Or.inl hroot
    · refine Or.inr ⟨k, parent, hparent, hk, ?_, hchild⟩
      rw [List.getElem?_append_left (Nat.lt_trans hk hlt), hget]
  · rw [List.getElem?_append_right hge] at hp
    obtain ⟨i, hi, rfl⟩ := List.mem_map.1 (List.mem_of_getElem? hp)
    refine Or.inr ⟨next, order[next], rfl, Nat.lt_of_lt_of_le hnext hge, ?_, hi⟩
    rw [List.getElem?_append_left hnext, List.getElem?_eq_getElem hnext]

theorem placed_enrol {order : List Pending} (next : Nat) (h : Placed order) :
    Placed (enrol order next) := by
  fun_induction enrol order next with
  | case1 order next hlt ih => exact ih (h.append_children hlt)
  | case2 order next hge => exact h

theorem placed_roster (s : Schematic) : Placed s.roster := by
  refine placed_enrol 0 ?_
  intro n p hp
  obtain rfl : p = ⟨s.root, none⟩ := List.mem_singleton.1 (List.mem_of_getElem? hp)
  exact Or.inl ⟨rfl, rfl⟩

end Schematic

end PackedLogic
