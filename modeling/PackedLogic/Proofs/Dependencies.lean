import PackedLogic.Proofs.InstanceTree
set_option autoImplicit false

/-!
# Dependencies

A sub-circuit is a copy of a schematic as it was when it was added, and schematics go on changing
under the same name.  A `Workshop` holds all schematics that are being drawn up, and its calls
change them, copy them and put copies below each other, in any order.  Whatever the calls,
every schematic records exactly the names of those below it, and no name occurs twice on a way down
(`Workshop.records_names`).  What carries this through is that the record is exact at every schematic
of every tree, not only at the roots (`Schematic.Tracked`).
-/

namespace PackedLogic

namespace Schematic

variable {s t child : Schematic} {n : String}

/-! ## Names in a tree -/

/-- The name is that of the schematic or of one below it. -/
def Carries (s : Schematic) (n : String) : Prop := ∃ path t, s.at? path = some t ∧ t.name = n

/-- The names of the schematics on the way down a path, as far as it leads. -/
def lineage : Schematic → List Nat → List String
  | s, [] => [s.name]
  | s, k :: path => s.name :: (s.subs[k]?).elim [] fun sub => sub.2.lineage path

theorem at?_cons_eq_some_iff {k : Nat} {path : List Nat} :
    s.at? (k :: path) = some t ↔ ∃ sub, s.subs[k]? = some sub ∧ sub.2.at? path = some t := by
  rw [at?, Option.bind_eq_some_iff]

/-- Names below a schematic are names in the trees of its sub-circuits. -/
theorem exists_below_iff :
    (∃ path t, path ≠ [] ∧ s.at? path = some t ∧ t.name = n) ↔
      ∃ sub ∈ s.subs, sub.2.Carries n := by
  constructor
  · rintro ⟨path, t, hpath, hat, hname⟩
    cases path with
    | nil => exact absurd rfl hpath
    | cons k path =>
      obtain ⟨sub, hsub, hat⟩ := at?_cons_eq_some_iff.1 hat
      exact ⟨sub, List.mem_of_getElem? hsub, path, t, hat, hname⟩
  · rintro ⟨sub, hmem, path, t, hat, hname⟩
    obtain ⟨k, hsub⟩ := List.getElem?_of_mem hmem
    exact ⟨k :: path, t, List.cons_ne_nil _ _, at?_cons_eq_some_iff.2 ⟨sub, hsub, hat⟩, hname⟩

theorem carries_iff : s.Carries n ↔ s.name = n ∨ ∃ sub ∈ s.subs, sub.2.Carries n := by
  rw [← exists_below_iff]
  constructor
  · rintro ⟨path, t, hat, hname⟩
    by_cases hpath : path = []
    · subst hpath
      obtain rfl : s = t := Option.some.inj hat
      exact Or.inl hname
    · exact Or.inr ⟨path, t, hpath, hat, hname⟩
  · rintro (hname | ⟨path, t, -, hat, hname⟩)
    · exact ⟨[], s, rfl, hname⟩
    · exact ⟨path, t, hat, hname⟩

/-- Whoever is met on the way down is in the tree. -/
theorem carries_of_mem_lineage {path : List Nat} (h : n ∈ s.lineage path) : s.Carries n := by
  induction path generalizing s with
  | nil =>
    rw [lineage, List.mem_singleton] at h
    exact carries_iff.2 (Or.inl h.symm)
  | cons k path ih =>
    rw [lineage, List.mem_cons] at h
    rcases h with hname | hbelow
    · exact carries_iff.2 (Or.inl hname.symm)
    · cases hsub : s.subs[k]? with
      | none =>
        rw [hsub] at hbelow
        cases hbelow
      | some sub =>
        rw [hsub] at hbelow
        exact carries_iff.2 (Or.inr ⟨sub, List.mem_of_getElem? hsub, ih hbelow⟩)

/-! ## Exact records -/

/-- The schematic records the names below it, all of them and no others, and its own name is not
among them. -/
structure Exact (s : Schematic) : Prop where
  mem_iff : ∀ n, n ∈ s.dependencies ↔ ∃ sub ∈ s.subs, sub.2.Carries n
  own : s.name ∉ s.dependencies

/-- The records are exact at the schematic and at all below it. -/
def Tracked (s : Schematic) : Prop := ∀ path t, s.at? path = some t → t.Exact

theorem Tracked.exact (h : s.Tracked) : s.Exact := h [] s rfl

theorem Tracked.sub (h : s.Tracked) {sub : String × Schematic} (hsub : sub ∈ s.subs) :
    sub.2.Tracked := by
  obtain ⟨k, hk⟩ := List.getElem?_of_mem hsub
  intro path t hat
  exact h (k :: path) t (at?_cons_eq_some_iff.2 ⟨sub, hk, hat⟩)

theorem Tracked.of_subs (hexact : s.Exact) (hsubs : ∀ sub ∈ s.subs, sub.2.Tracked) :
    s.Tracked := by
  intro path t hat
  cases path with
  | nil =>
    obtain rfl : s = t := Option.some.inj hat
    exact hexact
  | cons k path =>
    obtain ⟨sub, hsub, hat⟩ := at?_cons_eq_some_iff.1 hat
    exact hsubs sub (List.mem_of_getElem? hsub) path t hat

/-- Where all records are exact, no name occurs twice on a way down. -/
theorem Tracked.nodup_lineage (h : s.Tracked) (path : List Nat) : (s.lineage path).Nodup := by
  induction path generalizing s with
  | nil => exact List.nodup_singleton _
  | cons k path ih =>
    rw [lineage, List.nodup_cons]
    cases hsub : s.subs[k]? with
    | none => exact ⟨List.not_mem_nil, List.nodup_nil⟩
    | some sub =>
      have hmem := List.mem_of_getElem? hsub
      refine ⟨?_, ih (h.sub hmem)⟩
      intro hbelow
      have hrecorded := (h.exact.mem_iff s.name).2 ⟨sub, hmem, carries_of_mem_lineage hbelow⟩
      exact h.exact.own hrecorded

/-- The names of a tree are that of its root and those that the root records. -/
theorem Tracked.carries_iff (h : s.Tracked) : s.Carries n ↔ s.name = n ∨ n ∈ s.dependencies := by
  rw [Schematic.carries_iff, h.exact.mem_iff]

/-! ## Drawing up -/

/-- Adds a part that is no sub-circuit. -/
def declare (s : Schematic) : Declaration → Schematic
  | .gate k name => s.addGate k name
  | .bridge views => s.addBridge views
  | .synonym target name => s.addAlias target name
  | .connection source target => s.addConnection source target
  | .exposure port => s.addExposed port

theorem tracked_empty (name : String) : (empty name).Tracked := by
  refine .of_subs ⟨?_, Std.TreeSet.not_mem_emptyc⟩ nofun
  intro n
  constructor
  · exact fun hn => absurd hn Std.TreeSet.not_mem_emptyc
  · rintro ⟨sub, hsub, -⟩
    cases hsub

/-- Other parts have nothing to do with what is below a schematic. -/
theorem Tracked.declare (h : s.Tracked) (d : Declaration) : (s.declare d).Tracked := by
  have hsame : (s.declare d).name = s.name ∧ (s.declare d).subs = s.subs ∧
      (s.declare d).dependencies = s.dependencies := by
    cases d <;> exact ⟨rfl, rfl, rfl⟩
  obtain ⟨hname, hsubs, hdependencies⟩ := hsame
  refine .of_subs ⟨?_, ?_⟩ ?_
  · rw [hdependencies, hsubs]
    exact h.exact.mem_iff
  · rw [hname, hdependencies]
    exact h.exact.own
  · rw [hsubs]
    exact fun sub hsub => h.sub hsub

/-- Names of a tree that are recorded at its root are those by which a sub-circuit is refused. -/
theorem Tracked.carries_iff_refused (h : child.Tracked) :
    child.Carries s.name ↔ child.name = s.name ∨ child.dependsOn s.name = true := by
  rw [h.carries_iff, dependsOn, Std.TreeSet.mem_iff_contains]

theorem addSub?_of_not_carries (h : child.Tracked) (hnot : ¬ child.Carries s.name)
    (name : String) : s.addSub? name child = .ok { s with
      subs := s.subs ++ [(name, child)]
      dependencies := (s.dependencies.insert child.name).insertMany child.dependencies.toList } :=
  if_neg fun hrefused => hnot (h.carries_iff_refused.2 hrefused)

/-- A sub-circuit is refused exactly when the schematic's name occurs in its tree. -/
theorem addSub?_eq_error_iff_carries (h : child.Tracked) (name : String) {f : Fault} :
    s.addSub? name child = .error f ↔
      child.Carries s.name ∧ f = .circularDependency s.name child.name := by
  rw [addSub?_eq_error_iff, h.carries_iff_refused]

/-- With a sub-circuit come its name and the names below it. -/
theorem Tracked.addSub? {s' : Schematic} (h : s.Tracked) (hchild : child.Tracked) {name : String}
    (hadd : s.addSub? name child = .ok s') : s'.Tracked := by
  have hnot : ¬ child.Carries s.name := by
    intro hcarries
    rw [(addSub?_eq_error_iff_carries hchild name).2 ⟨hcarries, rfl⟩] at hadd
    cases hadd
  rw [addSub?_of_not_carries hchild hnot] at hadd
  obtain rfl := Except.ok.inj hadd
  have hmem : ∀ n, n ∈ (s.dependencies.insert child.name).insertMany child.dependencies.toList ↔
      n ∈ s.dependencies ∨ child.Carries n := by
    intro n
    rw [Std.TreeSet.mem_insertMany_list, Std.TreeSet.mem_insert, List.contains_iff_mem,
      Std.TreeSet.mem_toList, Std.LawfulEqCmp.compare_eq_iff_eq, hchild.carries_iff]
    tauto
  refine .of_subs ⟨?_, ?_⟩ ?_
  · intro n
    rw [hmem, h.exact.mem_iff]
    simp only [List.mem_append, List.mem_singleton, or_and_right, exists_or, exists_eq_left]
  · rw [hmem]
    exact not_or.2 ⟨h.exact.own, hnot⟩
  · intro sub hsub
    rcases List.mem_append.1 hsub with hold | hnew
    · exact h.sub hold
    · obtain rfl := List.mem_singleton.1 hnew
      exact hchild

/-- What a schematic records of those below it, said of their tree. -/
structure RecordsNames (s : Schematic) : Prop where
  /-- Recorded are the names of the schematics to which a path leads, the empty path apart. -/
  mem_iff : ∀ n, n ∈ s.dependencies ↔
    ∃ path t, path ≠ [] ∧ s.at? path = some t ∧ t.name = n
  own : s.name ∉ s.dependencies
  /-- The schematics on the way from the root to any other have different names. -/
  distinct : ∀ path, (s.lineage path).Nodup

theorem Tracked.recordsNames (h : s.Tracked) : s.RecordsNames :=
  ⟨fun n => (h.exact.mem_iff n).trans exists_below_iff.symm, h.exact.own, h.nodup_lineage⟩

end Schematic

/-! ## Workshops -/

/-- Schematics that are being drawn up; each is named by its position. -/
abbrev Workshop := List Schematic

namespace Workshop

/-- What can be asked of a workshop.  Where there is no schematic at a position, nothing is done. -/
inductive Call
  /-- Begins a schematic. -/
  | create (name : String)
  /-- Adds a part to a schematic that is no sub-circuit. -/
  | declare (n : Nat) (part : Declaration)
  /-- Adds a schematic, as it is at the moment, to another one as a sub-circuit. -/
  | addSub (n : Nat) (name : String) (child : Nat)
  /-- Copies a schematic. -/
  | copy (n : Nat)
  /-- Copies the schematic of a sub-circuit. -/
  | copySub (n k : Nat)

/-- Answers a call, or refuses it. -/
def answer (w : Workshop) : Call → Attempt Workshop
  | .create name => .done (w ++ [.empty name])
  | .declare n part =>
    match w[n]? with
    | some s => .done (w.set n (s.declare part))
    | none => .done w
  | .addSub n name k =>
    match w[n]?, w[k]? with
    | some s, some child => .ofExcept w ((s.addSub? name child).map fun s' => w.set n s')
    | _, _ => .done w
  | .copy n => .done (w ++ (w[n]?).toList)
  | .copySub n k => .done (w ++ ((w[n]?).bind fun s => (s.subs[k]?).map Prod.snd).toList)

/-- The workshop after some calls; a call that is refused does not keep the next from being
answered. -/
def after (calls : List Call) : Workshop := calls.foldl (fun w call => (w.answer call).state) []

variable {w : Workshop}

theorem answer_addSub {n k : Nat} {s child : Schematic} (hs : w[n]? = some s)
    (hchild : w[k]? = some child) (name : String) :
    w.answer (.addSub n name k) =
      .ofExcept w ((s.addSub? name child).map fun s' => w.set n s') := by
  rw [answer, hs, hchild]

/-- No call leaves a schematic whose tree holds an inexact record. -/
theorem tracked_answer (h : ∀ s ∈ w, s.Tracked) (call : Call) :
    ∀ s ∈ (w.answer call).state, s.Tracked := by
  have hset : ∀ {n : Nat} {s' : Schematic}, s'.Tracked → ∀ s ∈ w.set n s', s.Tracked := by
    intro n s' hs' s hs
    rcases List.mem_or_eq_of_mem_set hs with hold | rfl
    · exact h s hold
    · exact hs'
  have happend : ∀ {l : List Schematic}, (∀ s ∈ l, s.Tracked) → ∀ s ∈ w ++ l, s.Tracked :=
    fun hl => List.forall_mem_append.2 ⟨h, hl⟩
  have hget : ∀ {n : Nat} {s : Schematic}, w[n]? = some s → s.Tracked :=
    fun hs => h _ (List.mem_of_getElem? hs)
  cases call with
  | create name =>
    refine happend fun s hs => ?_
    obtain rfl := List.mem_singleton.1 hs
    exact Schematic.tracked_empty name
  | declare n part =>
    rw [answer]
    cases hs : w[n]? with
    | none => exact h
    | some s => exact hset ((hget hs).declare part)
  | addSub n name k =>
    cases hs : w[n]? with
    | none =>
      rw [answer, hs]
      exact h
    | some s =>
      cases hchild : w[k]? with
      | none =>
        rw [answer, hs, hchild]
        exact h
      | some child =>
        rw [answer_addSub hs hchild]
        cases hadd : s.addSub? name child with
        | error f => exact h
        | ok s' => exact hset ((hget hs).addSub? (hget hchild) hadd)
  | copy n =>
    refine happend fun s hs => ?_
    exact hget (Option.mem_toList.1 hs)
  | copySub n k =>
    refine happend fun s hs => ?_
    obtain ⟨t, ht, hsub⟩ := Option.bind_eq_some_iff.1 (Option.mem_toList.1 hs)
    obtain ⟨sub, hmem, rfl⟩ := Option.map_eq_some_iff.1 hsub
    exact (hget ht).sub (List.mem_of_getElem? hmem)

theorem tracked_after (calls : List Call) : ∀ s ∈ after calls, s.Tracked := by
  have hrun : ∀ w : Workshop, (∀ s ∈ w, s.Tracked) →
      ∀ s ∈ calls.foldl (fun w call => (w.answer call).state) w, s.Tracked := by
    induction calls with
    | nil => exact fun w hw => hw
    | cons call calls ih => exact fun w hw => ih _ (tracked_answer hw call)
  exact hrun [] nofun

/-- A call that is refused leaves all schematics as they were. -/
theorem state_answer_of_fault {call : Call} {f : Fault} (h : (w.answer call).fault? = some f) :
    (w.answer call).state = w := by
  cases call with
  | create name => cases h
  | declare n part =>
    rw [answer] at h
    cases hs : w[n]? with
    | none =>
      rw [hs] at h
      cases h
    | some s =>
      rw [hs] at h
      cases h
  | addSub n name k =>
    rw [answer] at h ⊢
    split
    · rename_i s child hs hchild
      rw [hs, hchild] at h
      cases hadd : s.addSub? name child with
      | error fault => rfl
      | ok s' =>
        simp only [hadd] at h
        cases h
    · rfl
  | copy n => cases h
  | copySub n k => cases h

/-- Whatever the calls, all schematics record the names below them.  One of them is accepted as a
sub-circuit of another one unless the latter's name occurs in its tree; then it is refused with a
fault that names both, and no schematic is changed. -/
theorem records_names (calls : List Call) :
    (∀ s ∈ after calls, s.RecordsNames) ∧
      (∀ (n k : Nat) (name : String) (s child : Schematic), (after calls)[n]? = some s →
        (after calls)[k]? = some child →
          (∀ f, ((after calls).answer (.addSub n name k)).fault? = some f ↔
            child.Carries s.name ∧ f = .circularDependency s.name child.name) ∧
          (¬ child.Carries s.name → ∃ s', (after calls).answer (.addSub n name k) =
            .done ((after calls).set n s') ∧ s'.name = s.name ∧
              s'.subs = s.subs ++ [(name, child)])) ∧
      ∀ (call : Call) (f : Fault), ((after calls).answer call).fault? = some f →
        ((after calls).answer call).state = after calls := by
  have htracked := tracked_after calls
  refine ⟨fun s hs => (htracked s hs).recordsNames, ?_, fun call f => state_answer_of_fault⟩
  intro n k name s child hs hchild
  have hexact := htracked child (List.mem_of_getElem? hchild)
  rw [answer_addSub hs hchild]
  constructor
  · intro f
    rw [← Schematic.addSub?_eq_error_iff_carries hexact name]
    cases s.addSub? name child with
    | error fault => simp [Attempt.ofExcept, Attempt.failed, Except.map]
    | ok s' => simp [Attempt.ofExcept, Attempt.done, Except.map]
  · intro hnot
    rw [Schematic.addSub?_of_not_carries hexact hnot]
    exact ⟨_, rfl, rfl, rfl⟩

end Workshop

end PackedLogic
