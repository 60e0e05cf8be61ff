import PackedLogic.Proofs.Sites
set_option autoImplicit false

/-!
# Compilation

Building by position comes to the same as building by path, and no position is ever out of range
(`Machine.compile?_eq`).

The list of instances is that of the waiting line, where every instance has its path
(`Schematic.order_eq`).  At any moment of the population, it shows the circuits of a draft
(`Draft.lineup`), and populating the instance at a position takes it to the list of the draft after
(`Draft.populateAt?_lineup`).  When the instances are taken off the end, those that remain have the
circuits of all that stood behind them, the last one first (`Draft.remaining`); those that name a
position as that of their parent are the sub-circuits of the instance there, in their order
(`Schematic.childrenOf_roster`), so turning them round makes a whole circuit of each.
-/

namespace PackedLogic

/-! ## The order of instantiation -/

/-- What stands in the order of instantiation for an instance of the waiting line. -/
def Pending.entry (p : Pending) : Waiting :=
  { schematic := p.schematic, name := p.name, parent := p.parent }

theorem Pending.children_entry (p : Pending) (position : Nat) :
    p.entry.children position = (p.children position).map Pending.entry := by
  have hsubs : p.entry.schematic.subs = p.toInstance.children.map fun i => (i.name, i.schematic) :=
    p.toInstance.map_children_sub.symm
  rw [Waiting.children, hsubs, Pending.children, List.map_map, List.map_map]
  rfl

namespace Schematic

theorem expand_map_entry (order : List Pending) (next : Nat) :
    Waiting.expand (order.map Pending.entry) next = (enrol order next).map Pending.entry := by
  fun_induction enrol order next with
  | case1 order next h ih =>
    rw [Waiting.expand, dif_pos (by simpa using h), List.getElem_map, Pending.children_entry,
      ← List.map_append, ih]
  | case2 order next h => rw [Waiting.expand, dif_neg (by simpa using h)]

/-- The instances are laid out as the waiting line yields them. -/
theorem order_eq (s : Schematic) : s.order = s.roster.map Pending.entry :=
  expand_map_entry [⟨s.root, none⟩] 0

theorem length_order (s : Schematic) : s.order.length = s.roster.length := by
  rw [order_eq, List.length_map]

theorem pairwise_roster (s : Schematic) : s.roster.Pairwise fun p q => p.path ≠ q.path := by
  have hpaths := s.pairwise_instances.imp fun h => h.2
  rwa [← s.toInstance_roster, List.pairwise_map] at hpaths

variable {s : Schematic} {p q : Pending} {n k : Nat}

/-- The instances of the waiting line are the nodes of the tree. -/
theorem mem_roster {i : Instance} : (∃ p ∈ s.roster, p.toInstance = i) ↔ s.HasNode i := by
  rw [← mem_instances, ← s.toInstance_roster, List.mem_map]

/-- Different positions are those of different paths. -/
theorem path_ne_of_ne (hp : s.roster[n]? = some p) (hq : s.roster[k]? = some q) (h : k ≠ n) :
    q.path ≠ p.path := by
  obtain ⟨hn, rfl⟩ := List.getElem?_eq_some_iff.1 hp
  obtain ⟨hk, rfl⟩ := List.getElem?_eq_some_iff.1 hq
  have hpairs := List.pairwise_iff_getElem.1 s.pairwise_roster
  rcases Nat.lt_or_gt_of_ne h with hlt | hlt
  · exact hpairs k n hk hn hlt
  · exact (hpairs n k hn hk hlt).symm

/-- The root stands first, and every other instance stands behind its parent. -/
theorem parent_roster (hp : s.roster[n]? = some p) :
    (p.parent = none ∧ n = 0 ∧ p.toInstance = s.root) ∨
      ∃ k q, p.parent = some k ∧ k < n ∧ s.roster[k]? = some q ∧
        p.toInstance.parent? = some q.path := by
  rcases s.placed_roster n p hp with ⟨hparent, hpath⟩ | ⟨k, q, hparent, hk, hq, hchild⟩
  · refine Or.inl ⟨hparent, ?_, ?_⟩
    · -- The first instance has no parent ahead, so it is the root as well.
      obtain ⟨hn, -⟩ := List.getElem?_eq_some_iff.1 hp
      have hfirst := List.getElem?_eq_getElem (Nat.zero_lt_of_lt hn)
      rcases s.placed_roster 0 _ hfirst with ⟨-, hroot⟩ | ⟨_, _, -, hlt, -⟩
      · by_contra hne
        exact path_ne_of_ne hfirst hp hne (hpath.trans hroot.symm)
      · cases hlt
    · exact (mem_roster.1 ⟨p, List.mem_of_getElem? hp, rfl⟩).eq_of_path_eq .root hpath
  · obtain ⟨m, -, hpath⟩ := Instance.mem_children.1 hchild
    exact Or.inr ⟨k, q, hparent, hk, hq, Instance.parent?_eq_some_iff.2 ⟨m, hpath⟩⟩

end Schematic

/-! ## Population -/

namespace Draft

/-- What stands in the list for an instance of the draft. -/
def entry (d : Draft) (p : Pending) : Waiting := { p.entry with circuit := d.circuit p.path }

/-- The draft as a machine and a list of all instances. -/
def lineup (d : Draft) (s : Schematic) : Lineup := ⟨d.machine, s.roster.map d.entry⟩

variable {s : Schematic} {p : Pending} {n : Nat} {d d' : Draft}

theorem getElem?_lineup (hp : s.roster[n]? = some p) (d : Draft) :
    (d.lineup s).order[n]? = some (d.entry p) := by
  rw [lineup, List.getElem?_map, hp, Option.map_some]

/-- An instance that is populated finds its circuit and that of its parent in the list. -/
theorem exists_parent_lineup (hp : s.roster[n]? = some p) (d : Draft) :
    ∃ parent : Option Waiting,
      (d.entry p).parent.mapM (fun k => ((d.lineup s).order.take n)[k]?) = some parent ∧
        parent.map Waiting.circuit = p.toInstance.parent?.map d.circuit := by
  rcases Schematic.parent_roster hp with ⟨hparent, -, hroot⟩ | ⟨k, q, hparent, hk, hq, hpath⟩
  · have hentry : (d.entry p).parent = none := hparent
    rw [hentry, hroot]
    exact ⟨none, rfl, rfl⟩
  · have hentry : (d.entry p).parent = some k := hparent
    have hget : ((d.lineup s).order.take n)[k]? = some (d.entry q) := by
      rw [List.getElem?_take_of_lt hk, getElem?_lineup hq]
    rw [hentry, hpath]
    exact ⟨some (d.entry q), by simp [hget], rfl⟩

/-- No circuits have changed but those of an instance and its parent. -/
def Spares (d d' : Draft) (i : Instance) : Prop :=
  ∀ path, path ≠ i.path → i.parent? ≠ some path → d'.circuit path = d.circuit path

/-- Nothing has changed in the list at any other position. -/
theorem Spares.entry_eq {q : Pending} {k : Nat} (h : d.Spares d' p.toInstance)
    (hp : s.roster[n]? = some p) (hq : s.roster[k]? = some q) (hne : k ≠ n)
    (hparent : p.parent ≠ some k) : d'.entry q = d.entry q := by
  have hpath : p.toInstance.parent? ≠ some q.path := by
    rcases Schematic.parent_roster hp with ⟨-, -, hroot⟩ | ⟨l, u, hl, -, hu, hpath⟩
    · rw [hroot]
      nofun
    · rw [hpath]
      have hlk : l ≠ k := fun heq => hparent (heq ▸ hl)
      exact fun heq => Schematic.path_ne_of_ne hq hu hlk (Option.some.inj heq)
  rw [entry, entry, h q.path (Schematic.path_ne_of_ne hp hq hne) hpath]

/-- Once the circuit of the parent is put back, the list is the new one ahead of the instance. -/
theorem Spares.putBack_eq (h : d.Spares d' p.toInstance) (hp : s.roster[n]? = some p) :
    Waiting.putBack ((d.lineup s).order.take n) p.parent (p.toInstance.parent?.map d'.circuit) =
      (s.roster.take n).map d'.entry := by
  rcases Schematic.parent_roster hp with ⟨hparent, rfl, -⟩ | ⟨l, u, hparent, hl, hu, hpath⟩
  · rw [hparent]
    rfl
  · rw [hparent, hpath, lineup, ← List.map_take, Option.map_some, Waiting.putBack]
    apply List.ext_getElem?
    intro k
    rcases Nat.lt_or_ge k n with hk | hk
    · obtain ⟨q, hq⟩ : ∃ q, s.roster[k]? = some q :=
        ⟨_, List.getElem?_eq_getElem (Nat.lt_trans hk (List.getElem?_eq_some_iff.1 hp).1)⟩
      have htake : (s.roster.take n)[k]? = some q := by rw [List.getElem?_take_of_lt hk, hq]
      rw [List.getElem?_modify, List.getElem?_map, List.getElem?_map, htake]
      by_cases hlk : l = k
      · obtain rfl : u = q := Option.some.inj (hu.symm.trans (hlk ▸ hq))
        simp only [Option.map_some, Option.map_eq_map, if_pos hlk]
        rfl
      · simp only [Option.map_some, Option.map_eq_map, if_neg hlk]
        refine congrArg some (h.entry_eq hp hq (Nat.ne_of_lt hk) ?_).symm
        rw [hparent]
        exact fun heq => hlk (Option.some.inj heq)
    · rw [List.getElem?_eq_none (by simp; omega), List.getElem?_eq_none (by simp; omega)]

/-- Behind the instance nothing has changed. -/
theorem Spares.map_drop_eq (h : d.Spares d' p.toInstance) (hp : s.roster[n]? = some p) :
    (s.roster.drop (n + 1)).map d.entry = (s.roster.drop (n + 1)).map d'.entry := by
  refine List.map_congr_left fun q hq => ?_
  obtain ⟨k, hk⟩ := List.mem_iff_getElem?.1 hq
  rw [List.getElem?_drop] at hk
  refine (h.entry_eq hp hk (by omega) ?_).symm
  rcases Schematic.parent_roster hp with ⟨hparent, -, -⟩ | ⟨l, -, hparent, hl, -, -⟩
  · rw [hparent]
    nofun
  · rw [hparent]
    exact fun heq => absurd (Option.some.inj heq) (by omega)

theorem drop_roster (hp : s.roster[n]? = some p) :
    s.roster.drop n = p :: s.roster.drop (n + 1) := by
  obtain ⟨hn, rfl⟩ := List.getElem?_eq_some_iff.1 hp
  exact List.drop_eq_getElem_cons hn

/-- Once the circuits of the instance and its parent are put back, the list is the new one. -/
theorem Spares.order_eq (h : d.Spares d' p.toInstance) (hp : s.roster[n]? = some p) :
    Waiting.putBack ((d.lineup s).order.take n) p.parent (p.toInstance.parent?.map d'.circuit) ++
      d'.entry p :: (s.roster.drop (n + 1)).map d.entry = (d'.lineup s).order := by
  rw [h.putBack_eq hp, h.map_drop_eq hp, ← List.map_cons, ← drop_roster hp, ← List.map_append,
    List.take_append_drop]
  rfl

/-- Populating the instance at a position is populating it in the draft. -/
theorem populateAt?_lineup (hp : s.roster[n]? = some p) (d : Draft) :
    (d.lineup s).populateAt? n =
      some ((d.populate p.toInstance).map fun d' => d'.lineup s) := by
  have hdrop : (d.lineup s).order.drop n = d.entry p :: (s.roster.drop (n + 1)).map d.entry := by
    rw [lineup, ← List.map_drop, drop_roster hp, List.map_cons]
  obtain ⟨parent, hlookup, hcircuit⟩ := exists_parent_lineup hp d
  have hsite : Site.mk d.machine (d.circuit p.path) (parent.map Waiting.circuit) =
      d.site p.toInstance := by
    rw [hcircuit]
    rfl
  have hspares : d.Spares (d.populate p.toInstance).state p.toInstance :=
    fun path hpath hparent => circuit_populate d hpath hparent
  rw [Lineup.populateAt?, hdrop]
  dsimp only
  rw [hlookup, Option.bind_eq_bind, Option.bind_some]
  change some (Attempt.map _ (Site.populate p.schematic p.name ⟨d.machine, d.circuit p.path, _⟩)) = _
  rw [hsite, ← site_populate]
  -- Both sides are now seen through the draft that is reached, and carry its fault.
  refine congrArg (fun x => some (Attempt.mk x (d.populate p.toInstance).fault?)) ?_
  exact congrArg (Lineup.mk _) (hspares.order_eq hp)

/-- Populating instances at several positions is populating them in the draft. -/
theorem populateEach?_lineup {ns : List Nat} {ps : List Pending}
    (h : ns.map (fun n => s.roster[n]?) = ps.map some) (d : Draft) :
    (d.lineup s).populateEach? ns =
      some ((Attempt.each populate (ps.map Pending.toInstance) d).map fun d' => d'.lineup s) := by
  induction ns generalizing ps d with
  | nil =>
    obtain rfl : ps = [] := List.map_eq_nil_iff.1 h.symm
    rfl
  | cons n ns ih =>
    cases ps with
    | nil => cases h
    | cons p ps =>
      obtain ⟨hp, hrest⟩ := List.cons.inj h
      rw [Lineup.populateEach?, populateAt?_lineup hp, List.map_cons, Attempt.each_cons,
        Option.bind_eq_bind, Option.bind_some]
      rcases d.populate p.toInstance with ⟨e, _ | fault⟩
      · exact ih hrest e
      · rfl

end Draft

/-! ## Reassembly -/

namespace Schematic

/-- The instances of a line that name a position as that of their parent. -/
def childrenOf (order : List Pending) (n : Nat) : List Pending :=
  order.filter fun p => p.parent = some n

/-- The instances ahead of position `next` have put their sub-circuits into the line, each of them
all of its own in one piece, and the others none. -/
structure Served (order : List Pending) (next : Nat) : Prop where
  served : ∀ n p, n < next → order[n]? = some p → childrenOf order n = p.children n
  waiting : ∀ n, next ≤ n → childrenOf order n = []

theorem childrenOf_append (order order' : List Pending) (n : Nat) :
    childrenOf (order ++ order') n = childrenOf order n ++ childrenOf order' n := List.filter_append ..

theorem childrenOf_children (p : Pending) (next n : Nat) :
    childrenOf (p.children next) n = if n = next then p.children next else [] := by
  have hparent : ∀ q ∈ p.children next, q.parent = some next := by
    intro q hq
    obtain ⟨i, -, rfl⟩ := List.mem_map.1 hq
    rfl
  split
  · rename_i heq
    refine List.filter_eq_self.2 fun q hq => ?_
    rw [hparent q hq, heq, decide_eq_true_eq]
  · rename_i hne
    refine List.filter_eq_nil_iff.2 fun q hq => ?_
    rw [hparent q hq, decide_eq_true_eq]
    exact fun heq => hne (Option.some.inj heq).symm

/-- One more instance has its turn. -/
theorem Served.turn {order : List Pending} {next : Nat} (h : Served order next)
    (hnext : next < order.length) :
    Served (order ++ order[next].children next) (next + 1) := by
  constructor
  · intro n p hn hp
    have hlt : n < order.length := by omega
    rw [List.getElem?_append_left hlt] at hp
    rw [childrenOf_append, childrenOf_children]
    split
    · rename_i heq
      subst heq
      rw [h.waiting n (Nat.le_refl n), List.nil_append]
      rw [List.getElem?_eq_getElem hlt] at hp
      rw [Option.some.inj hp]
    · rw [List.append_nil]
      exact h.served n p (by omega) hp
  · intro n hn
    rw [childrenOf_append, childrenOf_children, if_neg (by omega), List.append_nil]
    exact h.waiting n (by omega)

theorem childrenOf_enrol {order : List Pending} {next : Nat} (h : Served order next) {n : Nat}
    {p : Pending} (hp : (enrol order next)[n]? = some p) :
    childrenOf (enrol order next) n = p.children n := by
  fun_induction enrol order next with
  | case1 order next hlt ih => exact ih (h.turn hlt) hp
  | case2 order next hge =>
    obtain ⟨hn, -⟩ := List.getElem?_eq_some_iff.1 hp
    exact h.served n p (Nat.lt_of_lt_of_le hn (Nat.le_of_not_lt hge)) hp

variable {s : Schematic} {p : Pending} {n : Nat}

/-- Those that name an instance as their parent are its sub-circuits, in their order. -/
theorem childrenOf_roster (hp : s.roster[n]? = some p) : childrenOf s.roster n = p.children n :=
  childrenOf_enrol ⟨fun _ _ h => absurd h (Nat.not_lt_zero _), fun _ _ => rfl⟩ hp

/-- They all stand behind it. -/
theorem childrenOf_drop (hp : s.roster[n]? = some p) :
    childrenOf (s.roster.drop (n + 1)) n = p.children n := by
  have hahead : childrenOf (s.roster.take (n + 1)) n = [] := by
    refine List.filter_eq_nil_iff.2 fun q hq => ?_
    obtain ⟨k, hk⟩ := List.mem_iff_getElem?.1 hq
    rw [decide_eq_true_eq]
    intro hparent
    rw [List.getElem?_take] at hk
    obtain ⟨hlt, hget⟩ : k < n + 1 ∧ s.roster[k]? = some q := by simpa using hk
    rcases parent_roster hget with ⟨hnone, -, -⟩ | ⟨l, u, hl, hlt', -, -⟩
    · rw [hnone] at hparent
      cases hparent
    · rw [hl] at hparent
      obtain rfl := Option.some.inj hparent
      omega
  rw [← childrenOf_roster hp, ← List.take_append_drop (n + 1) s.roster, childrenOf_append, hahead]
  simp

end Schematic

namespace Draft

variable {s : Schematic} {p : Pending} {n : Nat}

/-- The circuit of an instance with all those below it. -/
def assembled (d : Draft) (p : Pending) : Circuit := p.schematic.assemble d.scope p.path

theorem map_assembled_children (d : Draft) (p : Pending) (n : Nat) :
    (p.children n).map d.assembled =
      Schematic.assembleSubs d.scope p.path 0 p.schematic.subs := by
  apply List.ext_getElem?
  intro k
  rw [Schematic.getElem?_assembleSubs, Pending.children, Instance.children, List.getElem?_map,
    List.getElem?_map, List.getElem?_mapIdx, Nat.zero_add]
  cases p.schematic.subs[k]? <;> rfl

/-- The circuit of an instance is put together from those that name it as their parent. -/
theorem assembled_eq (hp : s.roster[n]? = some p) (d : Draft) :
    d.assembled p = { d.circuit p.path with
      children := (Schematic.childrenOf (s.roster.drop (n + 1)) n).map d.assembled } := by
  rw [Schematic.childrenOf_drop hp, map_assembled_children, assembled]
  cases p.schematic
  rfl

/-- The first `n` instances of the list, when those behind position `m` have been taken off its end
and have gone to their parents, the last of them first. -/
def remaining (d : Draft) (s : Schematic) (m n : Nat) : List Waiting :=
  (s.roster.take n).mapIdx fun k p =>
    { d.entry p with circuit := { d.circuit p.path with
      children := ((Schematic.childrenOf (s.roster.drop m) k).map d.assembled).reverse } }

theorem remaining_all (d : Draft) (s : Schematic) :
    d.remaining s s.roster.length s.roster.length = (d.lineup s).order := by
  rw [remaining, List.take_length, List.drop_length, lineup]
  apply List.ext_getElem?
  intro k
  rw [List.getElem?_mapIdx, List.getElem?_map]
  rfl

theorem length_take_roster (hp : s.roster[n]? = some p) : (s.roster.take n).length = n := by
  rw [List.length_take]
  exact Nat.min_eq_left (Nat.le_of_lt (List.getElem?_eq_some_iff.1 hp).1)

/-- The last instance is whole once its children are turned round. -/
theorem remaining_succ (hp : s.roster[n]? = some p) (d : Draft) :
    d.remaining s (n + 1) (n + 1) = d.remaining s (n + 1) n ++
      [{ d.entry p with circuit :=
        { d.assembled p with children := (d.assembled p).children.reverse } }] := by
  rw [remaining, List.take_add_one, hp, Option.toList_some, List.mapIdx_append, assembled_eq hp,
    length_take_roster hp]
  simp [remaining]

/-- It goes to its parent behind those that stood behind it. -/
theorem modify_remaining {k : Nat} (hp : s.roster[n]? = some p) (hparent : p.parent = some k)
    (d : Draft) :
    (d.remaining s (n + 1) n).modify k (Waiting.adopt (d.assembled p)) = d.remaining s n n := by
  apply List.ext_getElem?
  intro j
  rw [List.getElem?_modify, remaining, remaining, List.getElem?_mapIdx, List.getElem?_mapIdx,
    drop_roster hp]
  cases (s.roster.take n)[j]? with
  | none => rfl
  | some q =>
    simp only [Option.map_some, Option.map_eq_map, Schematic.childrenOf, List.filter_cons, hparent,
      Option.some.injEq, decide_eq_true_eq]
    split
    · rw [List.map_cons, List.reverse_cons]
      rfl
    · rfl

end Draft

theorem Waiting.reassemble?_nil (root : Circuit) : reassemble? [] root = some root := by
  rw [reassemble?]
  rfl

theorem Waiting.reassemble?_concat (order : List Waiting) (node : Waiting) (root : Circuit) :
    reassemble? (order ++ [node]) root =
      match node.parent with
      | none =>
        reassemble? order { node.circuit with children := node.circuit.children.reverse }
      | some p =>
        if p < order.length then
          reassemble? (order.modify p
            (adopt { node.circuit with children := node.circuit.children.reverse })) root
        else none := by
  rw [reassemble?]
  split
  · rename_i hlast
    simp at hlast
  · rename_i last hlast
    obtain rfl : node = last := by simpa using hlast
    cases node.parent <;> simp only [List.dropLast_concat]

namespace Draft

/-- Taking the instances off the end of the list puts their circuits together as a tree. -/
theorem reassemble?_remaining (d : Draft) (s : Schematic) (n : Nat) (hn : n ≤ s.roster.length)
    (root : Circuit) :
    Waiting.reassemble? (d.remaining s n n) root =
      some (if n = 0 then root else s.assemble d.scope []) := by
  induction n generalizing root with
  | zero => exact Waiting.reassemble?_nil root
  | succ n ih =>
    have hp := List.getElem?_eq_getElem hn
    have hwhole : { d.assembled s.roster[n] with
        children := (d.assembled s.roster[n]).children.reverse.reverse } =
          d.assembled s.roster[n] := by
      rw [List.reverse_reverse]
      cases d.assembled s.roster[n]
      rfl
    rw [remaining_succ hp, Waiting.reassemble?_concat, if_neg (Nat.succ_ne_zero n)]
    dsimp only
    rw [hwhole]
    rcases Schematic.parent_roster hp with ⟨hparent, rfl, hroot⟩ | ⟨k, q, hparent, hk, -, -⟩
    · have hentry : (d.entry s.roster[0]).parent = none := hparent
      rw [hentry]
      refine (Waiting.reassemble?_nil _).trans ?_
      rw [assembled, hroot]
      rfl
    · have hentry : (d.entry s.roster[n]).parent = some k := hparent
      have hlength : (d.remaining s (n + 1) n).length = n := by
        rw [remaining, List.length_mapIdx, length_take_roster hp]
      rw [hentry, hlength]
      dsimp only
      rw [if_pos hk, modify_remaining hp hparent, ih (Nat.le_of_succ_le hn), if_neg (by omega)]

end Draft

/-! ## Builds -/

namespace Machine

/-- Before the first instance is populated, the list is that of a draft without any ports. -/
theorem lineup_eq (m : Machine) (s : Schematic) : m.lineup s = (m.draft s).lineup s := by
  have hlength : s.order.length = s.instances.length := by
    rw [s.length_order, ← s.toInstance_roster, List.length_map]
  rw [lineup, hlength, s.order_eq]
  rfl

theorem map_range_roster (s : Schematic) :
    (List.range s.order.length).map (fun n => s.roster[n]?) = s.roster.map some := by
  rw [s.length_order]
  apply List.ext_getElem (by simp)
  intro k hk _
  have hlt : k < s.roster.length := by simpa using hk
  rw [List.getElem_map, List.getElem_map, List.getElem_range, List.getElem?_eq_getElem hlt]

/-- Building by position is building by path, and no position is out of range. -/
theorem compile?_eq (m : Machine) (s : Schematic) : m.compile? s = some (m.build s) := by
  have hpositions : (List.range s.order.length).reverse.map (fun n => s.roster[n]?) =
      s.roster.reverse.map some := by
    rw [List.map_reverse, map_range_roster, List.map_reverse]
  have hinstances : s.roster.reverse.map Pending.toInstance = s.instances.reverse := by
    rw [List.map_reverse, s.toInstance_roster]
  have hpopulate : (m.lineup s).populateEach? (List.range s.order.length).reverse =
      some ((m.populateAll s).map fun d => d.lineup s) := by
    rw [m.lineup_eq, Draft.populateEach?_lineup hpositions, hinstances]
    rfl
  rw [compile?, hpopulate, build]
  rcases m.populateAll s with ⟨d, _ | fault⟩
  · have hcircuit := d.reassemble?_remaining s s.roster.length (Nat.le_refl _) {}
    have hne : s.roster.length ≠ 0 := by
      rw [s.length_roster, s.size_eq]
      exact Nat.succ_ne_zero _
    rw [d.remaining_all, if_neg hne] at hcircuit
    simp only [Option.bind_eq_bind, Option.bind_some, Attempt.map, hcircuit]
    rfl
  · rfl

end Machine

end PackedLogic
