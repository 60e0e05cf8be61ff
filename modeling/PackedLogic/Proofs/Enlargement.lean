import PackedLogic.Proofs.Additions
import PackedLogic.Proofs.Interruption
set_option autoImplicit false

/-!
# Cells that are created

Work either keeps to the cells that there are (`Machine.Stays`) or creates further ones: new cells get
names that no cell had before, and the cells there were stay in existence or released
(`Enlarges`).  A build creates cells for its ports, and all of these are cells of the machine
(`Machine.holds_of_mentions`).
-/

namespace PackedLogic

/-! ## Cells that are kept and cells that are new -/

/-- Some cells at two moments: those of before and, besides, all that were created in between.  No
cell that there was before has come into existence or been released. -/
structure Enlarges (ids ids' : List Nat) (s s' : Store) : Prop where
  size : s.size ≤ s'.size
  cells : ids'.Perm (ids ++ List.range' s.size (s'.size - s.size))
  old : ∀ c < s.size, s'.isLive c = s.isLive c
  new : ∀ c, s.size ≤ c → c < s'.size → s'.isLive c = true

namespace Enlarges

variable {ids ids' ids'' : List Nat} {s s' s'' : Store}

theorem of_sameCells (h : s'.SameCells s) : Enlarges ids ids s s' := by
  refine ⟨Nat.le_of_eq h.size.symm, ?_, fun c _ => h.live c, ?_⟩
  · simp [h.size]
  · intro c hge hlt
    exact absurd hge (Nat.not_le.2 (h.size ▸ hlt))

theorem refl (ids : List Nat) (s : Store) : Enlarges ids ids s s := of_sameCells (.refl s)

theorem trans (h : Enlarges ids ids' s s') (h' : Enlarges ids' ids'' s' s'') :
    Enlarges ids ids'' s s'' := by
  refine ⟨Nat.le_trans h.size h'.size, ?_, ?_, ?_⟩
  · have hrange : List.range' s.size (s''.size - s.size) =
        List.range' s.size (s'.size - s.size) ++ List.range' s'.size (s''.size - s'.size) := by
      have hsize := h.size
      have hsize' := h'.size
      rw [show s''.size - s.size = (s'.size - s.size) + (s''.size - s'.size) by omega,
        ← List.range'_append_1, show s.size + (s'.size - s.size) = s'.size by omega]
    rw [hrange, ← List.append_assoc]
    exact h'.cells.trans (h.cells.append_right _)
  · intro c hc
    rw [h'.old c (Nat.lt_of_lt_of_le hc h.size), h.old c hc]
  · intro c hge hlt
    by_cases hc : c < s'.size
    · rw [h'.old c hc, h.new c hge hc]
    · exact h'.new c (Nat.not_lt.1 hc) hlt

/-- New cells are created by the lanes of a block. -/
theorem of_pushZeros {n : Nat} (h : ids'.Perm (ids ++ List.range' s.size n)) :
    Enlarges ids ids' s (s.pushZeros n) := by
  refine ⟨by simp, by simpa using h, ?_, ?_⟩
  · intro c hc
    simp [Store.isLive, Store.word?_pushZeros, Nat.not_le.2 hc]
  · intro c hge hlt
    rw [Store.size_pushZeros] at hlt
    exact Store.isLive_pushZeros.2 (.inr ⟨hge, hlt⟩)

theorem of_push (s : Store) (w : Word) : Enlarges [] [s.size] s (s.push w) := by
  refine ⟨by simp, by simp, ?_, ?_⟩
  · intro c hc
    simp [Store.isLive, Store.word?_push, Nat.ne_of_lt hc]
  · intro c hge hlt
    obtain rfl : c = s.size := by
      rw [Store.size_push] at hlt
      omega
    simp [Store.isLive, Store.word?_push]

theorem of_claims {lanes width : Nat} {blocks blocks' : List Block} {base index : Nat}
    (h : Claims lanes width blocks blocks' s s' base index) :
    Enlarges (blocks.flatMap fun block => List.range' block.base lanes)
      (blocks'.flatMap fun block => List.range' block.base lanes) s s' := by
  rcases h.cells_eq with ⟨hcells, rfl⟩ | ⟨hcells, rfl⟩
  · rw [hcells]
    exact refl _ _
  · exact of_pushZeros (by rw [hcells])

theorem of_lends {m m' : Machine} {row : Row} (h : m.Lends m' row) :
    Enlarges m.sim.cells m'.sim.cells m.store m'.store := by
  rcases h.cells with ⟨hcells, hstore⟩ | ⟨hperm, hstore⟩
  · rw [hcells, hstore]
    exact refl _ _
  · rw [hstore]
    exact of_pushZeros hperm

end Enlarges

/-! ## Work that creates no cells -/

theorem CellRef.sameCells_update (r : CellRef) (f : Word → Word) (s : Store) :
    (r.update f s).state.SameCells s := by
  obtain ⟨_ | i⟩ := r
  · exact .refl s
  · unfold update
    dsimp only
    split
    · exact Store.sameCells_modify s i f
    · exact .refl s

theorem Field.sameCells_edit (f : Field) (e : Edit) (s : Store) :
    (f.edit e s).state.SameCells s :=
  f.ref.sameCells_update _ s

theorem Socket.sameCells_tick (w : Socket) (s : Store) : (w.tick s).state.SameCells s := by
  unfold tick
  split
  · exact w.target.sameCells_edit _ s
  · exact .refl s

theorem SocketRegistry.sameCells_tick (r : SocketRegistry) (s : Store) :
    (r.tick s).state.SameCells s := by
  unfold tick
  exact Attempt.each_keeps (P := fun t => t.SameCells s)
    (fun w t ht => (w.sameCells_tick t).trans ht) r.sockets (.refl s)

namespace Machine

variable {m m' m'' : Machine}

/-- Nothing has changed but the contents of cells, the counters, and what has been reported. -/
structure Stays (m m' : Machine) : Prop where
  sim : ∃ stats, m'.sim = { m.sim with stats }
  cells : m'.store.SameCells m.store

theorem Stays.refl (m : Machine) : m.Stays m := ⟨⟨_, rfl⟩, .refl _⟩

theorem Stays.trans (h : m.Stays m') (h' : m'.Stays m'') : m.Stays m'' := by
  obtain ⟨stats, hsim⟩ := h.sim
  obtain ⟨stats', hsim'⟩ := h'.sim
  exact ⟨⟨stats', by rw [hsim', hsim]⟩, h'.cells.trans h.cells⟩

theorem stays_tick (m : Machine) : m.Stays m.tick.state := by
  by_cases h : ∃ w ∈ m.sim.sockets.sockets, w.Dangles m.store
  · obtain ⟨m', htick, hhalts⟩ := tick_of_dangles h
    obtain ⟨before, w, after, -, -, -, happlies⟩ := hhalts.first
    rw [htick]
    exact ⟨⟨_, hhalts.sim⟩, happlies.cells⟩
  · obtain ⟨m', htick, hcompletes⟩ := tick_of_live fun w hw hdangles => h ⟨w, hw, hdangles⟩
    rw [htick]
    exact ⟨⟨_, hcompletes.sim⟩, hcompletes.applies.cells⟩

theorem stays_run (m : Machine) (n : Nat) : m.Stays (m.run n).state := by
  induction n generalizing m with
  | zero => exact .refl m
  | succ n ih =>
    rw [run, Attempt.times_succ]
    exact Attempt.keeps_andThen (P := m.Stays) m.stays_tick fun m' hm' => hm'.trans (ih m')

/-- While a socket dangles no step is counted. -/
theorem sim_run_of_dangles (h : ∃ w ∈ m.sim.sockets.sockets, w.Dangles m.store) (n : Nat) :
    (m.run n).state.sim = m.sim := by
  cases n with
  | zero => rfl
  | succ n =>
    obtain ⟨m', htick, hhalts⟩ := tick_of_dangles h
    rw [run_succ_of_dangles h, htick]
    exact hhalts.sim

end Machine

/-! ## What a build hands out -/

/-- The field of a port that is shown by the instance at a path. -/
def Circuit.exposedField? (c : Circuit) (path : List Nat) (name : String) : Option Field :=
  (c.at? path).bind fun c => c.exposed[name]?

/-- The reference is that of a port of the circuit or of one below it, shown or not. -/
def Circuit.Mentions (c : Circuit) (r : CellRef) : Prop :=
  ∃ path name f, (c.field? path name = some f ∨ c.exposedField? path name = some f) ∧ f.ref = r

/-- What a built circuit shows is one of its ports. -/
theorem Machine.field?_of_exposedField? {m : Machine} {s : Schematic} {c : Circuit}
    (h : (m.build s).circuit = .ok c) {path : List Nat} {name : String} {f : Field}
    (hf : c.exposedField? path name = some f) : c.field? path name = some f := by
  obtain ⟨last, hall, rfl⟩ := exists_draft_of_build h
  unfold Circuit.exposedField? at hf
  unfold Circuit.field?
  rw [Schematic.at?_assemble, List.nil_append] at hf ⊢
  obtain ⟨node, hnode, hf⟩ := Option.bind_eq_some_iff.1 hf
  obtain ⟨t, ht, rfl⟩ := Option.map_eq_some_iff.1 hnode
  obtain ⟨own, hi⟩ := Schematic.exists_hasNode ht
  obtain ⟨_, _, before, after, hturn, hlast⟩ := exists_turn hall hi
  obtain ⟨hports, hexposed, -⟩ := hturn.leaves hlast
  rw [ht, Option.map_some, Option.bind_some, hports]
  rw [hexposed] at hf
  have hshown := hturn.exposed?_after name
  rw [Draft.exposed?, hf] at hshown
  split at hshown
  · exact hshown.symm
  · cases hshown

/-- A draft in a machine that has grown since, with ports and new sockets in its cells. -/
structure Draft.Grown (m : Machine) (d : Draft) : Prop where
  enlarges : Enlarges m.sim.cells d.machine.sim.cells m.store d.machine.store
  sockets : ∃ added, d.machine.sim.sockets.sockets = m.sim.sockets.sockets ++ added ∧
    ∀ w ∈ added, d.machine.sim.Holds w.source ∧ d.machine.sim.Holds w.target
  stats : d.machine.sim.stats = m.sim.stats
  holds : ∀ {path : List Nat} {name : String} {f : Field}, d.field? path name = some f →
    d.machine.sim.Holds f

theorem Draft.Grown.changes {m : Machine} {d d' : Draft} (h : Grown m d)
    (hchanges : d.Changes d') : Grown m d' := by
  have hgrows := hchanges.grows
  obtain ⟨added, hsockets, hadded⟩ := h.sockets
  have hold : ∀ w ∈ added, d'.machine.sim.Holds w.source ∧ d'.machine.sim.Holds w.target :=
    fun w hw => ⟨hgrows.holds (hadded w hw).1, hgrows.holds (hadded w hw).2⟩
  cases hchanges with
  | lend hlends hports =>
    refine ⟨h.enlarges.trans (.of_lends hlends), ⟨added, by rw [hlends.sockets, hsockets], hold⟩,
      hlends.stats.trans h.stats, ?_⟩
    intro path name f hf
    rcases hports hf with hf | ⟨lane, offset, width, hcut⟩
    · exact hgrows.holds (h.holds hf)
    · exact hlends.holds_of_cut hcut
  | @wire _ _ _ f g width_eq hf hg hsim hstore hports =>
    refine ⟨?_, ⟨added ++ [⟨f, g, width_eq⟩], ?_, ?_⟩, ?_, ?_⟩
    · rw [hsim, hstore]
      exact h.enlarges
    · rw [hsim, Simulator.withSockets, hsockets, List.append_assoc]
    · intro w hw
      rcases List.mem_append.1 hw with hw | hw
      · exact hold w hw
      · obtain rfl := List.mem_singleton.1 hw
        exact ⟨hgrows.holds (h.holds hf), hgrows.holds (h.holds hg)⟩
    · rw [hsim]
      exact h.stats
    · intro path name f hf
      rw [hports] at hf
      exact hgrows.holds (h.holds hf)
  | name hsim hstore hports =>
    refine ⟨?_, ⟨added, by rw [hsim, hsockets], hold⟩, ?_, ?_⟩
    · rw [hsim, hstore]
      exact h.enlarges
    · rw [hsim, h.stats]
    · intro path name f hf
      obtain ⟨path', name', hf⟩ := hports hf
      exact hgrows.holds (h.holds hf)

theorem Machine.grown_populateAll (m : Machine) (s : Schematic) :
    Draft.Grown m (m.populateAll s).state :=
  m.populateAll_keeps (fun h hchanges => h.changes hchanges) s
    ⟨.refl _ _, ⟨[], (List.append_nil _).symm, nofun⟩, rfl, nofun⟩

/-- All ports of a built circuit lie in cells of the machine. -/
theorem Machine.holds_of_mentions {m : Machine} {s : Schematic} {c : Circuit}
    (h : (m.build s).circuit = .ok c) {r : CellRef} (hr : c.Mentions r) :
    ∃ cell ∈ (m.build s).machine.sim.cells, r = .ofCell cell := by
  obtain ⟨path, name, f, hport, rfl⟩ := hr
  have hf : c.field? path name = some f := hport.elim id (field?_of_exposedField? h)
  have hgrown := m.grown_populateAll s
  obtain ⟨last, hall, rfl⟩ := exists_draft_of_build h
  rw [hall] at hgrown
  rw [m.machine_build, hall]
  rw [Schematic.field?_assemble] at hf
  obtain ⟨t, -, hf⟩ := Option.bind_eq_some_iff.1 hf
  exact hgrown.holds hf

end PackedLogic
