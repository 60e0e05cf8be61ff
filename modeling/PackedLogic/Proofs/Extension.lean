import PackedLogic.Proofs.PortNames
set_option autoImplicit false

/-!
# Machines that grow

A machine extends another if it has all that the other one has, where it was (`Machine.Extends`).
Every declaration extends the machine, and it is described once what it does to it (`Draft.Works`):
a gate or a bridge is lent, or a socket is registered, or nothing happens but to names.
-/

namespace PackedLogic

/-! ## Claimed blocks -/

namespace Claims

variable {lanes width : Nat} {blocks blocks' : List Block} {s s' : Store} {base index : Nat}

theorem size_le (h : Claims lanes width blocks blocks' s s' base index) : s.size ≤ s'.size := by
  cases h with
  | reuse _ _ _ _ _ _ hstore => exact Nat.le_of_eq (congrArg Store.size hstore.symm)
  | append _ _ hstore =>
    rw [hstore, Store.size_pushZeros]
    exact Nat.le_add_right _ _

/-- What there is in a cell, or that it has been released, does not change. -/
theorem word?_of_lt (h : Claims lanes width blocks blocks' s s' base index) {c : Nat}
    (hc : c < s.size) : s'.word? c = s.word? c := by
  cases h with
  | reuse _ _ _ _ _ _ hstore => rw [hstore]
  | append _ _ hstore => rw [hstore, Store.word?_pushZeros, if_neg (by omega)]

/-- Every claim adds its width to what is lent. -/
theorem total_cursor (h : Claims lanes width blocks blocks' s s' base index) :
    total (blocks'.map Block.cursor) = total (blocks.map Block.cursor) + width := by
  cases h with
  | reuse before block rest room hblocks hblocks' =>
    simp only [hblocks, hblocks', Block.claim, List.map_append, List.map_cons, total_append,
      total_cons]
    omega
  | append block hblocks' _ _ hcursor => simp [hblocks', hcursor]

end Claims

/-! ## Machines that grow -/

namespace Machine

/-- All that one machine has is in the other, where it was. -/
structure Extends (m m' : Machine) : Prop where
  size : m.store.size ≤ m'.store.size
  /-- Every cell that there is holds the same word, or has been released as before. -/
  words : ∀ c < m.store.size, m'.store.word? c = m.store.word? c
  /-- Every block of every bank keeps its position and gets no bits back. -/
  blocks : ∀ (p : Part) (k : Nat) (block : Block), (m.sim.blocks p)[k]? = some block →
    ∃ block', (m'.sim.blocks p)[k]? = some block' ∧ block'.base = block.base ∧
      block.cursor ≤ block'.cursor
  /-- The blocks of the bus do not change at all. -/
  bus : m.sim.bus.blocks <+: m'.sim.bus.blocks
  sockets : m.sim.sockets.sockets <+: m'.sim.sockets.sockets
  stats : m'.sim.stats = m.sim.stats
  config : m'.sim.config = m.sim.config

variable {m m' m'' : Machine} {row : Row}

namespace Extends

/-- What has been reported does not matter. -/
theorem of_eq (hsim : m'.sim = m.sim) (hstore : m'.store = m.store) : m.Extends m' := by
  obtain ⟨sim, store, log⟩ := m
  obtain ⟨sim', store', log'⟩ := m'
  obtain rfl : sim' = sim := hsim
  obtain rfl : store' = store := hstore
  exact ⟨Nat.le_refl _, fun _ _ => rfl, fun _ _ block hblock => ⟨block, hblock, rfl, Nat.le_refl _⟩,
    List.prefix_rfl, List.prefix_rfl, rfl, rfl⟩

theorem trans (h : m.Extends m') (h' : m'.Extends m'') : m.Extends m'' := by
  refine ⟨Nat.le_trans h.size h'.size, ?_, ?_, h.bus.trans h'.bus, h.sockets.trans h'.sockets,
    h'.stats.trans h.stats, h'.config.trans h.config⟩
  · intro c hc
    rw [h'.words c (Nat.lt_of_lt_of_le hc h.size), h.words c hc]
  · intro p k block hblock
    obtain ⟨block', hblock', hbase, hcursor⟩ := h.blocks p k block hblock
    obtain ⟨block'', hblock'', hbase', hcursor'⟩ := h'.blocks p k block' hblock'
    exact ⟨block'', hblock'', hbase'.trans hbase, Nat.le_trans hcursor hcursor'⟩

theorem of_withSockets {added : List Socket}
    (hsim : m'.sim = m.sim.withSockets (m.sim.sockets.sockets ++ added))
    (hstore : m'.store = m.store) : m.Extends m' := by
  refine ⟨Nat.le_of_eq (by rw [hstore]), fun _ _ => by rw [hstore], ?_, ?_, ?_, ?_, ?_⟩
  · intro p k block hblock
    rw [hsim, Simulator.blocks_withSockets]
    exact ⟨block, hblock, rfl, Nat.le_refl _⟩
  · rw [hsim]
    exact List.prefix_rfl
  · rw [hsim]
    exact List.prefix_append _ _
  · rw [hsim]
    rfl
  · rw [hsim]
    rfl

end Extends

/-- Lending extends the machine, provided that it leaves the blocks of the bus as they are. -/
theorem Lends.extended (h : m.Lends m' row) (hbus : m.sim.bus.blocks <+: m'.sim.bus.blocks) :
    m.Extends m' := by
  refine ⟨h.claims.size_le, fun _ hc => h.claims.word?_of_lt hc, ?_, hbus, ?_, h.stats, h.config⟩
  · intro p k block hblock
    by_cases hp : p = row.part
    · subst hp
      exact h.claims.getElem?_of_getElem? hblock
    · exact ⟨block, by rwa [h.others p hp], rfl, Nat.le_refl _⟩
  · exact ⟨[], by rw [List.append_nil, h.sockets]⟩

end Machine

/-! ## Single declarations -/

namespace Draft

variable {d d' : Draft} {i : Instance} {declaration : Declaration} {f : Field}

/-- What a declaration of the instance at a path does to the machine: it lends a bit in every lane of a
pool, or appends a block to the bus, or registers a socket between two ports, or does nothing. -/
inductive Works (d : Draft) (path : List Nat) (d' : Draft) : Declaration → Prop
  | gate {k : GateKind} {name : String} {row : Row} (hpart : row.part = .gates k)
      (hwidth : row.width = 1) (hlends : d.machine.Lends d'.machine row) :
      Works d path d' (.gate k name)
  | bridge {views : List BridgeView} {row : Row} (hpart : row.part = .bus)
      (hlends : d.machine.Lends d'.machine row)
      (hblocks : d'.machine.sim.bus.blocks =
        d.machine.sim.bus.blocks ++ [.whole d.machine.store.size]) :
      Works d path d' (.bridge views)
  | synonym {target name : String} (hsim : d'.machine.sim = d.machine.sim)
      (hstore : d'.machine.store = d.machine.store) : Works d path d' (.synonym target name)
  | connection {source target : String} (w : Socket)
      (hsource : d.field? path source = some w.source)
      (htarget : d.field? path target = some w.target)
      (hsim : d'.machine.sim =
        d.machine.sim.withSockets (d.machine.sim.sockets.sockets ++ [w]))
      (hstore : d'.machine.store = d.machine.store) :
      Works d path d' (.connection source target)
  | exposure {port : String} (hsim : d'.machine.sim = d.machine.sim)
      (hstore : d'.machine.store = d.machine.store) : Works d path d' (.exposure port)

theorem works_gate {k : GateKind} {name : String} (h : declare? i (.gate k name) d = .ok d') :
    Works d i.path d' (.gate k name) := by
  obtain ⟨row, hpart, hwidth, hlends, -⟩ := d.machine.lends_lendGate k
  rw [declare?_gate] at h
  obtain rfl := Except.ok.inj h
  exact .gate hpart hwidth (hlends.of_eq (sim_insertPorts _ _ _) (store_insertPorts _ _ _))

theorem works_bridge {views : List BridgeView} (h : declare? i (.bridge views) d = .ok d') :
    Works d i.path d' (.bridge views) := by
  by_cases fits : ∀ widths ∈ views.map BridgeView.widths, total widths ≤ cellBits
  · obtain ⟨m', fields, hok, row, hpart, -, hlends, -⟩ := d.machine.lends_lendBridge? fits
    have hblocks := Machine.blocks_lendBridge? hok
    rw [declare?_bridge_of_ok hok] at h
    obtain rfl := Except.ok.inj h
    refine .bridge hpart (hlends.of_eq (sim_insertPorts _ _ _) (store_insertPorts _ _ _)) ?_
    rw [sim_insertPorts]
    exact hblocks
  · rw [declare?_bridge_of_wide fits] at h
    cases h

theorem works_of_declare? (h : declare? i declaration d = .ok d') :
    Works d i.path d' declaration := by
  cases declaration with
  | gate k name => exact works_gate h
  | bridge views => exact works_bridge h
  | synonym target name =>
    obtain ⟨f, -, rfl⟩ := declare?_synonym_eq_ok h
    exact .synonym (sim_insertPort _ _ _ _) (store_insertPort _ _ _ _)
  | connection source target =>
    obtain ⟨w, hsource, htarget, rfl⟩ := declare?_connection_eq_ok h
    exact .connection w hsource htarget rfl rfl
  | exposure port =>
    obtain ⟨f, -, rfl⟩ := declare?_exposure_eq_ok h
    unfold handOver
    cases i.parent? with
    | none => exact .exposure rfl rfl
    | some parent =>
      exact .exposure (d.sim_insertPort parent (memberName i.name port) f)
        (d.store_insertPort parent (memberName i.name port) f)

theorem Works.extended {path : List Nat} (h : Works d path d' declaration) :
    d.machine.Extends d'.machine := by
  cases h with
  | gate hpart hwidth hlends =>
    refine hlends.extended ?_
    have hbus : d'.machine.sim.bus.blocks = d.machine.sim.bus.blocks :=
      hlends.others .bus (by simp [hpart])
    exact ⟨[], by rw [List.append_nil, hbus]⟩
  | bridge hpart hlends hblocks =>
    refine hlends.extended ?_
    rw [hblocks]
    exact List.prefix_append _ _
  | synonym hsim hstore => exact .of_eq hsim hstore
  | connection w _ _ hsim hstore => exact .of_withSockets hsim hstore
  | exposure hsim hstore => exact .of_eq hsim hstore

/-- No declaration but a connection adds a socket. -/
theorem Works.sockets_eq {path : List Nat} (h : Works d path d' declaration)
    (hconnects : ∀ source target, declaration ≠ .connection source target) :
    d'.machine.sim.sockets.sockets = d.machine.sim.sockets.sockets := by
  cases h with
  | gate _ _ hlends => rw [hlends.sockets]
  | bridge _ hlends => rw [hlends.sockets]
  | synonym hsim => rw [hsim]
  | connection => exact absurd rfl (hconnects _ _)
  | exposure hsim => rw [hsim]

/-- The sockets that a declaration adds join ports that there are already. -/
theorem Works.exists_sockets {path : List Nat} (h : Works d path d' declaration) :
    ∃ added, d'.machine.sim.sockets.sockets = d.machine.sim.sockets.sockets ++ added ∧
      ∀ w ∈ added, ∃ source target, d.field? path source = some w.source ∧
        d.field? path target = some w.target := by
  by_cases hconnects : ∀ source target, declaration ≠ .connection source target
  · exact ⟨[], by rw [h.sockets_eq hconnects, List.append_nil], nofun⟩
  · cases h with
    | connection w hsource htarget hsim =>
      refine ⟨[w], by rw [hsim]; rfl, ?_⟩
      intro v hv
      obtain rfl := List.mem_singleton.1 hv
      exact ⟨_, _, hsource, htarget⟩
    | gate | bridge | synonym | exposure => exact absurd nofun hconnects

end Draft

end PackedLogic
