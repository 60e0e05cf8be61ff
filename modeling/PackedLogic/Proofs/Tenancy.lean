import PackedLogic.Proofs.TwinBuild
set_option autoImplicit false

/-!
# Several circuits in one machine

A `Tenancy` is a machine with a circuit of one's own and the circuits of others.  Whatever others
build into the machine and write to their ports, one's own circuit does what it does in a machine
of its own, since the two machines stay linked as in `Twins` (`Tenancy.Apart.run`).
-/

namespace PackedLogic

/-- A machine with a circuit of one's own and with the circuits of others. -/
structure Tenancy where
  machine : Machine
  own : Circuit := {}
  others : List Circuit := []

/-- What can happen to a machine with several circuits. -/
inductive Move
  | write (path : List Nat) (name : String) (e : Edit)
  | writeOther (n : Nat) (path : List Nat) (name : String) (e : Edit)
  | buildOther (s : Schematic)
  | tick
  | clear

/-- The others have no part in the move. -/
def Move.isOwn : Move → Bool
  | write .. | tick | clear => true
  | writeOther .. | buildOther _ => false

namespace Tenancy

/-- A new machine, in a store where other machines may have cells. -/
def vacant (config : Config) (s : Store) : Tenancy :=
  { machine := { sim := { config }, store := s } }

/-- Changes a field, if there is one. -/
def edit (t : Tenancy) (e : Edit) : Option Field → Attempt Tenancy
  | some f => (f.edit e t.machine.store).map fun store =>
      { t with machine := { t.machine with store } }
  | none => .done t

/-- Carries out a move.  A build of others may fail, and leaves what it did before then. -/
def step : Move → Tenancy → Attempt Tenancy
  | .write path name e, t => t.edit e (t.own.field? path name)
  | .writeOther n path name e, t => t.edit e ((t.others[n]?).bind fun c => c.field? path name)
  | .buildOther s, t =>
    let built := t.machine.build s
    .done { t with
      machine := built.machine
      others := t.others ++ built.circuit.toOption.toList }
  | .tick, t => t.machine.tick.map fun machine => { t with machine }
  | .clear, t => .done { t with machine := t.machine.clear }

/-- Carries out moves in order, up to the first fault. -/
def run (moves : List Move) (t : Tenancy) : Attempt Tenancy := Attempt.each step moves t

/-- Builds the circuit of one's own. -/
def moveIn? (t : Tenancy) (s : Schematic) : Except Fault Tenancy :=
  let built := t.machine.build s
  built.circuit.map fun own => { t with machine := built.machine, own }

/-- Reads a port of one's own circuit. -/
def read (t : Tenancy) (path : List Nat) (name : String) : Option (Except Fault Word) :=
  (t.own.field? path name).map fun f => f.get t.machine.store

/-- The field is a port of a circuit of others. -/
def IsOthers (t : Tenancy) (f : Field) : Prop :=
  ∃ c ∈ t.others, ∃ path name, c.field? path name = some f

/-- The right tenancy does for one's own circuit what the left one does, whatever others do. -/
structure Apart (links : List (Row × Row)) (t t' : Tenancy) : Prop where
  twins : Twins links t'.IsOthers t.machine t'.machine
  ports : AlikePorts links t.machine.sim t'.machine.sim t.own.field? t'.own.field?

namespace Apart

variable {links : List (Row × Row)} {t t' : Tenancy}

/-- Reads are the same on both sides. -/
theorem read_eq (h : Apart links t t') (path : List Nat) (name : String) :
    t'.read path name = t.read path name := by
  rw [read, read]
  rcases h.ports path name with ⟨hf, hg⟩ | ⟨f, g, hf, hg, hfg⟩
  · rw [hf, hg]
    rfl
  · rw [hf, hg, Option.map_some, Option.map_some,
      hfg.get_eq h.twins.left h.twins.right h.twins.agree]

theorem write (h : Apart links t t') (path : List Nat) (name : String) (e : Edit) :
    ∃ u u', step (.write path name e) t = .done u ∧ step (.write path name e) t' = .done u' ∧
      Apart links u u' := by
  rw [step, step]
  rcases h.ports path name with ⟨hf, hg⟩ | ⟨f, g, hf, hg, hfg⟩
  · rw [hf, hg]
    exact ⟨t, t', rfl, rfl, h⟩
  · obtain ⟨s, s', hedit, hedit', htwins⟩ := h.twins.edit hfg e
    rw [hf, hg, edit, edit, hedit, hedit']
    exact ⟨_, _, rfl, rfl, htwins, h.ports⟩

theorem writeOther (h : Apart links t t') (n : Nat) (path : List Nat) (name : String) (e : Edit) :
    ∃ u', step (.writeOther n path name e) t' = .done u' ∧ Apart links t u' := by
  rw [step]
  cases hf : (t'.others[n]?).bind fun c => c.field? path name with
  | none => exact ⟨t', rfl, h⟩
  | some f =>
    obtain ⟨c, hc, hport⟩ := Option.bind_eq_some_iff.1 hf
    have hothers : t'.IsOthers f := ⟨c, List.mem_of_getElem? hc, path, name, hport⟩
    obtain ⟨s', hedit, htwins⟩ := h.twins.editForeign (h.twins.foreign hothers) e
    rw [edit, hedit]
    exact ⟨_, rfl, htwins, h.ports⟩

theorem buildOther (h : Apart links t t') (s : Schematic) :
    ∃ u', step (.buildOther s) t' = .done u' ∧ Apart links t u' := by
  obtain ⟨htwins, hforeign⟩ := h.twins.build_foreign s
  refine ⟨_, rfl, { htwins with foreign := ?_ },
    h.ports.mono (.refl _) (t'.machine.grows_build s) id⟩
  rintro f ⟨c, hc, path, name, hf⟩
  rcases List.mem_append.1 hc with hold | hnew
  · exact htwins.foreign ⟨c, hold, path, name, hf⟩
  · cases hcircuit : (t'.machine.build s).circuit with
    | error fault =>
      rw [hcircuit] at hnew
      cases hnew
    | ok built =>
      rw [hcircuit] at hnew
      obtain rfl := List.mem_singleton.1 hnew
      exact hforeign hcircuit hf

theorem tick (h : Apart links t t') :
    ∃ u u', step .tick t = .done u ∧ step .tick t' = .done u' ∧ Apart links u u' := by
  obtain ⟨m, m', htick, htick', hgrows, hgrows', htwins⟩ := h.twins.tick
  rw [step, step, htick, htick']
  exact ⟨_, _, rfl, rfl, htwins, h.ports.mono hgrows hgrows' id⟩

theorem clear (h : Apart links t t') :
    ∃ u u', step .clear t = .done u ∧ step .clear t' = .done u' ∧ Apart links u u' :=
  ⟨_, _, rfl, rfl, h.twins.clear, h.ports⟩

theorem step_own (h : Apart links t t') {move : Move} (hown : move.isOwn = true) :
    ∃ u u', step move t = .done u ∧ step move t' = .done u' ∧ Apart links u u' := by
  cases move with
  | write path name e => exact h.write path name e
  | tick => exact h.tick
  | clear => exact h.clear
  | writeOther n path name e => cases hown
  | buildOther s => cases hown

theorem step_other (h : Apart links t t') {move : Move} (hother : ¬ move.isOwn = true) :
    ∃ u', step move t' = .done u' ∧ Apart links t u' := by
  cases move with
  | writeOther n path name e => exact h.writeOther n path name e
  | buildOther s => exact h.buildOther s
  | write path name e => exact absurd rfl hother
  | tick => exact absurd rfl hother
  | clear => exact absurd rfl hother

/-- All moves are carried out on the right side, and all but those of others on the left. -/
theorem run (h : Apart links t t') (moves : List Move) :
    ∃ u u', t.run (moves.filter Move.isOwn) = .done u ∧ t'.run moves = .done u' ∧
      Apart links u u' := by
  induction moves generalizing t t' with
  | nil => exact ⟨t, t', rfl, rfl, h⟩
  | cons move moves ih =>
    by_cases hown : move.isOwn = true
    · obtain ⟨u, u', hstep, hstep', hu⟩ := h.step_own hown
      obtain ⟨v, v', hrun, hrun', hv⟩ := ih hu
      refine ⟨v, v', ?_, ?_, hv⟩
      · rw [List.filter_cons_of_pos hown, Tenancy.run, Attempt.each_cons, hstep]
        exact hrun
      · rw [Tenancy.run, Attempt.each_cons, hstep']
        exact hrun'
    · obtain ⟨u', hstep', hu⟩ := h.step_other hown
      obtain ⟨v, v', hrun, hrun', hv⟩ := ih hu
      refine ⟨v, v', ?_, ?_, hv⟩
      · rw [List.filter_cons_of_neg hown]
        exact hrun
      · rw [Tenancy.run, Attempt.each_cons, hstep']
        exact hrun'

end Apart

/-! ## Moving in -/

theorem clean_vacant (config : Config) (s : Store) :
    (vacant config s).machine.sim.Clean (vacant config s).machine.store := by
  intro b hb
  cases hb.cell

theorem apart_vacant (config config' : Config) (s s' : Store) :
    Apart [] (vacant config s) (vacant config' s') := by
  have hnone : ∀ {a b : Bit}, ¬ Linked [] a b := by
    rintro a b ⟨link, hlink, -⟩
    cases hlink
  have howns : ∀ (config : Config) (s : Store),
      (vacant config s).machine.sim.Owns (vacant config s).machine.store :=
    fun _ _ => ⟨nofun, List.nodup_nil⟩
  refine ⟨⟨howns config s, howns config' s', nofun, nofun, fun hab => absurd hab hnone,
    fun hab => absurd hab hnone, .nil, ?_⟩, ?_⟩
  · rintro f ⟨c, hc, -⟩
    cases hc
  · intro path name
    cases path with
    | nil => exact Or.inl ⟨rfl, rfl⟩
    | cons n path => exact Or.inl ⟨rfl, rfl⟩

/-- As long as no step has been taken, builds of others leave nothing set. -/
theorem exists_apart_before {links : List (Row × Row)} {t t' : Tenancy} (h : Apart links t t')
    (hclean : t'.machine.sim.Clean t'.machine.store) (before : List Schematic) :
    ∃ u', t'.run (before.map .buildOther) = .done u' ∧ Apart links t u' ∧
      u'.machine.sim.Clean u'.machine.store := by
  induction before generalizing t' with
  | nil => exact ⟨t', rfl, h, hclean⟩
  | cons s before ih =>
    obtain ⟨u', hstep, hu'⟩ := h.buildOther s
    obtain rfl := congrArg Attempt.state hstep
    exact ih hu' (Machine.clean_build hclean s)

/-- Circuits in one machine do not interfere.  Take a schematic that is built into a new machine,
and another new machine where others attempt to build schematics before it.  It is built there
too.  Then let anything happen in the second machine: writes to one's own ports and to those of
others, builds of others that succeed or fail, steps and clearings.  If the same happens in the
first machine, but for what others do, then nothing is refused in either, and every port of one's
own reads the same in both. -/
theorem not_interfering {config : Config} {s : Store} {own : Schematic} {t : Tenancy}
    (hbuilt : (vacant config s).moveIn? own = .ok t) (config' : Config) (s' : Store)
    (before : List Schematic) :
    ∃ u t', (vacant config' s').run (before.map .buildOther) = .done u ∧ u.moveIn? own = .ok t' ∧
      ∀ moves : List Move,
        (t.run (moves.filter Move.isOwn)).isDone = true ∧ (t'.run moves).isDone = true ∧
          ∀ path name, (t'.run moves).state.read path name =
            (t.run (moves.filter Move.isOwn)).state.read path name := by
  obtain ⟨u, hbefore, hu, hclean⟩ := exists_apart_before (apart_vacant config config' s s')
    (clean_vacant config' s') before
  cases hcircuit : ((vacant config s).machine.build own).circuit with
  | error fault =>
    rw [moveIn?, hcircuit] at hbuilt
    cases hbuilt
  | ok c =>
    rw [moveIn?, hcircuit] at hbuilt
    obtain rfl := Except.ok.inj hbuilt
    obtain ⟨c', links, hcircuit', htwins, hports⟩ :=
      hu.twins.build_both (clean_vacant config s) hclean hcircuit
    have hapart : Apart links
        { vacant config s with machine := ((vacant config s).machine.build own).machine, own := c }
        { u with machine := (u.machine.build own).machine, own := c' } := ⟨htwins, hports⟩
    refine ⟨u, _, hbefore, by rw [moveIn?, hcircuit']; rfl, ?_⟩
    intro moves
    obtain ⟨v, v', hrun, hrun', hv⟩ := hapart.run moves
    rw [hrun, hrun']
    exact ⟨rfl, rfl, hv.read_eq⟩

/-- Two gates that make "not and", with the output shown. -/
def notAnd : Schematic :=
  { name := "NAND"
    gates := [(.and, "g"), (.not, "n")]
    connections := [("g_c", "n_a")]
    exposed := ["n_b"] }

theorem not_interfering_notAnd :
    ∃ t, (vacant {} {}).moveIn? notAnd = .ok t ∧
      ∃ u t', (vacant {} {}).run ([notAnd].map .buildOther) = .done u ∧ u.moveIn? notAnd = .ok t' ∧
        ∀ moves : List Move,
          (t.run (moves.filter Move.isOwn)).isDone = true ∧ (t'.run moves).isDone = true ∧
            ∀ path name, (t'.run moves).state.read path name =
              (t.run (moves.filter Move.isOwn)).state.read path name :=
  ⟨_, rfl, not_interfering rfl {} {} [notAnd]⟩

end Tenancy

end PackedLogic
