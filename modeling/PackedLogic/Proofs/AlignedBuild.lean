import PackedLogic.Proofs.Alignment
set_option autoImplicit false

/-!
# Lending and building in aligned machines

What two aligned machines lend for the same request is at the same place (`HandOut`), so a schematic
that is built in both is refused with the same fault or yields circuits with the same ports at the
same places (`Aligned.build`).
-/

namespace PackedLogic

/-- Both are refused with the same fault, or both succeed and the results are related. -/
def SameOutcome {α β : Type} (R : α → β → Prop) (x : Except Fault α) (y : Except Fault β) : Prop :=
  (∃ fault, x = .error fault ∧ y = .error fault) ∨ ∃ a b, x = .ok a ∧ y = .ok b ∧ R a b

namespace SameOutcome

variable {α β γ δ : Type} {R : α → β → Prop} {S : γ → δ → Prop} {x : Except Fault α}
  {y : Except Fault β}

theorem refused (fault : Fault) : SameOutcome R (.error fault) (.error fault) :=
  .inl ⟨fault, rfl, rfl⟩

theorem done {a : α} {b : β} (h : R a b) : SameOutcome R (.ok a) (.ok b) :=
  .inr ⟨a, b, rfl, rfl, h⟩

theorem bind (h : SameOutcome R x y) {next : α → Except Fault γ} {next' : β → Except Fault δ}
    (hnext : ∀ a b, R a b → SameOutcome S (next a) (next' b)) :
    SameOutcome S (x >>= next) (y >>= next') := by
  rcases h with ⟨fault, rfl, rfl⟩ | ⟨a, b, rfl, rfl, hab⟩
  · exact .refused fault
  · exact hnext a b hab

theorem ofExcept {s : α} {t : β} (h : SameOutcome R x y) (hst : R s t) :
    Attempt.Related R (.ofExcept s x) (.ofExcept t y) := by
  rcases h with ⟨fault, rfl, rfl⟩ | ⟨a, b, rfl, rfl, hab⟩
  · exact ⟨rfl, hst⟩
  · exact ⟨rfl, hab⟩

end SameOutcome

/-! ## Rows at the same place -/

/-- A block that was not there before consists of new cells. -/
theorem Claims.base_of_new {lanes width : Nat} {blocks blocks' : List Block} {s s' : Store}
    {base index : Nat} (h : Claims lanes width blocks blocks' s s' base index) {k : Nat}
    {block : Block} (hold : blocks[k]? = none) (hnew : blocks'[k]? = some block) :
    block.base = s.size := by
  rw [List.getElem?_eq_none_iff] at hold
  cases h with
  | reuse before claimed rest room hblocks hblocks' =>
    have hlength : blocks'.length = blocks.length := by simp [hblocks, hblocks']
    have hk := (List.getElem?_eq_some_iff.1 hnew).1
    omega
  | append new hblocks' _ hbase =>
    rw [hblocks', List.getElem?_append_right hold] at hnew
    obtain rfl := List.mem_singleton.1 (List.mem_of_getElem? hnew)
    exact hbase

/-- Both machines lend a row, and the rows are at the same place. -/
structure LendsBoth (m n m' n' : Machine) (row : Row) (base' : Nat) : Prop where
  left : m.Lends m' row
  right : n.Lends n' { row with base := base' }
  cursors : SameCursors (m'.sim.blocks row.part) (n'.sim.blocks row.part)
  position : ∃ (k : Nat) (block block' : Block), (m'.sim.blocks row.part)[k]? = some block ∧
    (n'.sim.blocks row.part)[k]? = some block' ∧ block.base = row.base ∧ block'.base = base'

/-- Both machines have grown, and hand out fields at the same places. -/
structure HandOut (same : Prop) (m n m' n' : Machine) (fs gs : List Field) : Prop where
  aligned : Aligned same m' n'
  left : m.sim.KeepsPlaces m'.sim
  right : n.sim.KeepsPlaces n'.sim
  fields : List.Forall₂ (SamePlace m'.sim n'.sim) fs gs

section

variable {same : Prop} {m m' n n' : Machine} {row : Row} {base' : Nat}

/-- The same cuts of both rows are at the same place. -/
theorem LendsBoth.samePlace (h : LendsBoth m n m' n' row base') {lane offset width : Nat}
    {f g : Field} (hf : row.Cut lane offset width f)
    (hg : Row.Cut { row with base := base' } lane offset width g) :
    SamePlace m'.sim n'.sim f g := by
  obtain ⟨k, block, block', hblock, hblock', hbase, hbase'⟩ := h.position
  refine ⟨?_, row.part, k, block, block', hblock, hblock', lane, hf.lane_lt, ?_, ?_⟩
  · obtain ⟨⟨offset, width, fits⟩, ref⟩ := f
    obtain ⟨⟨offset', width', fits'⟩, ref'⟩ := g
    obtain rfl : offset = offset' := hf.offset_eq.trans hg.offset_eq.symm
    obtain rfl : width = width' := hf.width_eq.trans hg.width_eq.symm
    rfl
  · rw [hbase, hf.ref]
  · rw [hbase', hg.ref]

/-- Machines stay aligned when both lend a row at the same place.  Bits that were there before are
as they were, lent or not, and those of new cells are zero in both. -/
theorem Aligned.lend (h : Aligned same m n) (hlends : LendsBoth m n m' n' row base') :
    Aligned same m' n' := by
  have hcursors : ∀ p, SameCursors (m'.sim.blocks p) (n'.sim.blocks p) := by
    intro p
    by_cases hp : p = row.part
    · rw [hp]
      exact hlends.cursors
    · rw [hlends.left.others p hp, hlends.right.others p hp]
      exact h.cursors p
  have hleft := Simulator.KeepsPlaces.of_lends hlends.left
  have hright := Simulator.KeepsPlaces.of_lends hlends.right
  refine ⟨hlends.left.owns h.left, hlends.right.owns h.right, hcursors, ?_, ?_, fun hsame => ?_⟩
  · rw [hlends.left.sockets, hlends.right.sockets]
    exact h.sockets.imp fun _ _ hwire => hwire.mono hleft hright
  · rw [hlends.left.config, hlends.right.config, h.config]
  intro a b hab
  rw [hlends.left.bit_eq, hlends.right.bit_eq]
  obtain ⟨p, k, block, block', hblock, hblock', lane, hlane, j, hj, rfl, rfl⟩ :=
    (linked_wholeLinks hcursors).1 hab
  cases hold : (m.sim.blocks p)[k]? with
  | some old =>
    obtain ⟨old', hold'⟩ := (h.cursors p).getElem? hold
    obtain ⟨grown, hgrown, hbase⟩ := hleft p k old hold
    obtain ⟨grown', hgrown', hbase'⟩ := hright p k old' hold'
    obtain rfl := Option.some.inj (hblock.symm.trans hgrown)
    obtain rfl := Option.some.inj (hblock'.symm.trans hgrown')
    rw [hbase, hbase']
    exact h.agree hsame ((linked_wholeLinks h.cursors).2
      ⟨p, k, old, old', hold, hold', lane, hlane, j, hj, rfl, rfl⟩)
  | none =>
    have hold' : (n.sim.blocks p)[k]? = none := by
      rw [List.getElem?_eq_none_iff] at hold ⊢
      rwa [← (h.cursors p).length_eq]
    obtain rfl : p = row.part := by
      by_contra hp
      rw [hlends.left.others p hp, hold] at hblock
      cases hblock
    have hdead : ∀ {s : Store} {base : Nat}, base = s.size → s.bit ⟨base + lane, j⟩ = false := by
      rintro s base rfl
      apply Store.bit_of_not_isLive
      rw [Store.isLive, Store.word?_eq_none_of_size_le (Nat.le_add_right _ _)]
      rfl
    rw [hdead (hlends.left.claims.base_of_new hold hblock),
      hdead (hlends.right.claims.base_of_new hold' hblock')]

/-- The fields lent are cut from the row that has been claimed. -/
theorem Lending.At.cut {lanes base index width : Nat} {l : Lending lanes (Fin lanes → Field)}
    (h : l.At base index width) {p : Part} (hp : p.lanes = lanes) (lane : Fin lanes) :
    Row.Cut ⟨p, base, index, width⟩ lane 0 width (l.lent lane) := by
  obtain ⟨href, hoffset, hwidth⟩ := h lane
  exact ⟨hp ▸ lane.isLt, Nat.le_of_eq (Nat.zero_add width), href, hoffset, hwidth⟩

theorem LendsBoth.handOut (h : LendsBoth m n m' n' row base') (hmn : Aligned same m n)
    {fs gs : List Field} (hfields : List.Forall₂ (SamePlace m'.sim n'.sim) fs gs) :
    HandOut same m n m' n' fs gs :=
  ⟨hmn.lend h, .of_lends h.left, .of_lends h.right, hfields⟩

end

/-! ## The operations that lend and connect -/

namespace Aligned

variable {same : Prop} {m m' n n' : Machine}

/-- What the machines have reported does not matter. -/
theorem of_eq (h : Aligned same m n) (hm : m'.sim = m.sim) (hms : m'.store = m.store)
    (hn : n'.sim = n.sim) (hns : n'.store = n.store) : Aligned same m' n' := by
  refine h.of_blocks (fun p => by rw [hm]) (fun p => by rw [hn]) ?_ ?_ ?_ ?_ fun hsame => ?_
  · rw [hm, hms]
    exact h.left
  · rw [hn, hns]
    exact h.right
  · rw [hm, hn]
    exact h.sockets
  · rw [hm, hn, h.config]
  · rw [hms, hns]
    exact h.agree hsame

theorem lendGate (h : Aligned same m n) (k : GateKind) :
    HandOut same m n (m.lendGate k).1 (n.lendGate k).1 (List.ofFn (m.lendGate k).2)
      (List.ofFn (n.lendGate k).2) := by
  obtain ⟨base, base', index, hclaims, hfields, hfields'⟩ :=
    (m.sim.pool k).bank.claimsBoth_lend (n.sim.pool k).bank one_le_cellBits m.store n.store
      (h.cursors (.gates k))
  have hboth : LendsBoth m n (m.lendGate k).1 (n.lendGate k).1 ⟨.gates k, base, index, 1⟩ base' := by
    refine ⟨Machine.lends_of_claims_pool hclaims.left _, Machine.lends_of_claims_pool hclaims.right _,
      ?_, ?_⟩
    · simp only [Machine.lendGate, Machine.afterLending, Simulator.blocks_setPool_self]
      exact hclaims.cursors
    · simp only [Machine.lendGate, Machine.afterLending, Simulator.blocks_setPool_self]
      exact hclaims.position
  refine hboth.handOut h ?_
  rw [List.ofFn_eq_map, List.ofFn_eq_map, List.forall₂_map_left_iff, List.forall₂_map_right_iff,
    List.forall₂_same]
  intro lane _
  exact hboth.samePlace (hfields.cut (p := .gates k) rfl lane) (hfields'.cut rfl lane)

theorem lendBus? (h : Aligned same m n) (width : Nat) :
    SameOutcome (fun x y => HandOut same m n x.1 y.1 [x.2] [y.2]) (m.lendBus? width)
      (n.lendBus? width) := by
  by_cases fits : width ≤ cellBits
  · obtain ⟨base, base', index, hclaims, hfields, hfields'⟩ :=
      m.sim.bus.claimsBoth_lend n.sim.bus fits m.store n.store (h.cursors .bus)
    rw [Machine.lendBus?, Machine.lendBus?, Bank.lend?_of_fits _ fits,
      Bank.lend?_of_fits _ fits]
    have hboth : LendsBoth m n
        (m.afterLending { m.sim with bus := (m.sim.bus.lend width fits m.store).bank }
          (m.sim.bus.lend width fits m.store))
        (n.afterLending { n.sim with bus := (n.sim.bus.lend width fits n.store).bank }
          (n.sim.bus.lend width fits n.store)) ⟨.bus, base, index, width⟩ base' :=
      ⟨Machine.lends_of_claims_bus hclaims.left _, Machine.lends_of_claims_bus hclaims.right _,
        hclaims.cursors, hclaims.position⟩
    have hplace := hboth.samePlace (hfields.cut (p := .bus) rfl 0) (hfields'.cut rfl 0)
    exact .done (hboth.handOut h (.cons hplace .nil))
  · rw [m.lendBus?_of_wide fits, n.lendBus?_of_wide fits]
    exact .refused _

theorem lendBridge? (h : Aligned same m n) (views : List (List Nat)) :
    SameOutcome (fun x y => HandOut same m n x.1 y.1 x.2.flatten y.2.flatten)
      (m.lendBridge? views) (n.lendBridge? views) := by
  by_cases fits : ∀ widths ∈ views, total widths ≤ cellBits
  · have hclaims := m.sim.bus.claimsBoth_lendWhole n.sim.bus m.store n.store (h.cursors .bus)
    rw [Machine.lendBridge?, Machine.lendBridge?, Bank.bridge?_of_fits _ _ fits,
      Bank.bridge?_of_fits _ _ fits]
    have hboth : LendsBoth m n
        { sim := { m.sim with bus := (m.sim.bus.lendWhole m.store).bank }
          store := (m.sim.bus.lendWhole m.store).store
          log := m.log ++ ([] : List Event) }
        { sim := { n.sim with bus := (n.sim.bus.lendWhole n.store).bank }
          store := (n.sim.bus.lendWhole n.store).store
          log := n.log ++ ([] : List Event) } ⟨.bus, m.store.size, 0, cellBits⟩ n.store.size :=
      ⟨Machine.lends_of_claims_bus hclaims.left _, Machine.lends_of_claims_bus hclaims.right _,
        hclaims.cursors, hclaims.position⟩
    have hcut : ∀ (base : Nat) (span : Span),
        Row.Cut ⟨.bus, base, 0, cellBits⟩ 0 span.offset span.width ⟨span, .ofCell base⟩ :=
      fun base span => ⟨Nat.one_pos, span.fits, rfl, (Nat.zero_add _).symm, rfl⟩
    refine .done (hboth.handOut h ?_)
    dsimp only
    rw [← List.flatMap_def, ← List.flatMap_def, ← List.map_flatMap, ← List.map_flatMap,
      List.forall₂_map_left_iff, List.forall₂_map_right_iff, List.forall₂_same]
    intro span _
    exact hboth.samePlace (hcut m.store.size span) (hcut n.store.size span)
  · rw [m.lendBridge?_of_wide fits, n.lendBridge?_of_wide fits]
    exact .refused _

/-- The same socket is registered in both machines, unless its ends differ in width. -/
theorem connect? (h : Aligned same m n) {f f' g g' : Field} (hsource : SamePlace m.sim n.sim f g)
    (htarget : SamePlace m.sim n.sim f' g') :
    SameOutcome (fun m' n' => HandOut same m n m' n' [] []) (m.connect? f f')
      (n.connect? g g') := by
  by_cases heq : f.width = f'.width
  · have heq' : g.width = g'.width := by rw [← hsource.width_eq, ← htarget.width_eq, heq]
    rw [m.connect?_of_eq heq, n.connect?_of_eq heq']
    refine .done ⟨?_, .of_blocks (m.sim.blocks_withSockets _), .of_blocks (n.sim.blocks_withSockets _),
      .nil⟩
    exact h.of_blocks (m.sim.blocks_withSockets _) (n.sim.blocks_withSockets _)
      (h.left.withSockets _) (h.right.withSockets _)
      (List.rel_append h.sockets (.cons ⟨hsource, htarget⟩ .nil)) h.config h.agree
  · have heq' : g.width ≠ g'.width := by rwa [← hsource.width_eq, ← htarget.width_eq]
    rw [m.connect?_of_ne heq, n.connect?_of_ne heq', hsource.width_eq, htarget.width_eq]
    exact .refused _

end Aligned

/-! ## Builds -/

theorem Simulator.KeepsPlaces.of_changes {d d' : Draft} (h : d.Changes d') :
    d.machine.sim.KeepsPlaces d'.machine.sim := by
  cases h with
  | lend hlends _ => exact .of_lends hlends
  | wire _ _ _ hsim _ _ =>
    rw [hsim]
    exact .of_blocks (Simulator.blocks_withSockets _ _)
  | name hsim _ _ =>
    rw [hsim]
    exact .refl _

theorem Simulator.KeepsPlaces.of_build (m : Machine) (s : Schematic) :
    m.sim.KeepsPlaces (m.build s).machine.sim := by
  rw [m.machine_build]
  exact m.populateAll_keeps (P := fun d => m.sim.KeepsPlaces d.machine.sim)
    (fun hd hchanges => hd.trans (.of_changes hchanges)) s (.refl _)

/-- Both maps give fields at the same places to the same names. -/
def SamePorts (sim sim' : Simulator) (ports ports' : List Nat → String → Option Field) : Prop :=
  ∀ path name, Option.Rel (SamePlace sim sim') (ports path name) (ports' path name)

/-- Drafts of the same schematic in aligned machines. -/
structure AlignedDrafts (same : Prop) (d e : Draft) : Prop where
  machines : Aligned same d.machine e.machine
  ports : SamePorts d.machine.sim e.machine.sim d.field? e.field?
  exposed : SamePorts d.machine.sim e.machine.sim d.exposed? e.exposed?

/-- The circuits have the same ports at the same places, and show the same ones. -/
structure SameCircuits (sim sim' : Simulator) (c c' : Circuit) : Prop where
  ports : SamePorts sim sim' c.field? c'.field?
  exposed : SamePorts sim sim' c.exposedField? c'.exposedField?

section

variable {sim sim' simGrown simGrown' : Simulator}

theorem SamePorts.mono {ports ports' : List Nat → String → Option Field}
    (h : SamePorts sim sim' ports ports') (hleft : sim.KeepsPlaces simGrown)
    (hright : sim'.KeepsPlaces simGrown') : SamePorts simGrown simGrown' ports ports' := by
  intro path name
  rcases rel_cases (h path name) with ⟨hf, hg⟩ | ⟨f, g, hf, hg, hfg⟩
  · rw [hf, hg]
    exact .none
  · rw [hf, hg]
    exact .some (hfg.mono hleft hright)

theorem SameCircuits.mono {c c' : Circuit} (h : SameCircuits sim sim' c c')
    (hleft : sim.KeepsPlaces simGrown) (hright : sim'.KeepsPlaces simGrown') :
    SameCircuits simGrown simGrown' c c' :=
  ⟨h.ports.mono hleft hright, h.exposed.mono hleft hright⟩

variable {d e : Draft}

theorem SamePorts.insertPort (h : SamePorts sim sim' d.field? e.field?) (path : List Nat)
    (name : String) {f g : Field} (hfg : SamePlace sim sim' f g) :
    SamePorts sim sim' (d.insertPort path name f).field? (e.insertPort path name g).field? := by
  intro p n
  rw [Draft.field?_insertPort, Draft.field?_insertPort]
  split
  · exact .some hfg
  · exact h p n

theorem SamePorts.insertPorts {fs gs : List Field} (hfields : List.Forall₂ (SamePlace sim sim') fs gs)
    (path : List Nat) {names : List String} (h : SamePorts sim sim' d.field? e.field?) :
    SamePorts sim sim' (d.insertPorts path (names.zip fs)).field?
      (e.insertPorts path (names.zip gs)).field? := by
  induction hfields generalizing d e names with
  | nil =>
    rw [List.zip_nil_right]
    exact h
  | cons hfg _ ih =>
    cases names with
    | nil => exact h
    | cons name names => exact ih (h.insertPort path name hfg)

theorem SamePorts.handOver (h : SamePorts sim sim' d.field? e.field?) (i : Instance) (port : String)
    {f g : Field} (hfg : SamePlace sim sim' f g) :
    SamePorts sim sim' (d.handOver i port f).field? (e.handOver i port g).field? := by
  intro p n
  rw [Draft.field?_handOver, Draft.field?_handOver]
  split
  · exact .some hfg
  · exact h p n

end

section

variable {sim sim' : Simulator} {d e : Draft}

/-- Showing ports adds none. -/
theorem SamePorts.expose (h : SamePorts sim sim' d.field? e.field?) (path : List Nat)
    (port : String) (f g : Field) :
    SamePorts sim sim' (d.expose path port f).field? (e.expose path port g).field? := by
  intro p n
  rw [Draft.field?_expose, Draft.field?_expose]
  exact h p n

/-- A port that is handed over in both drafts is then shown in both. -/
theorem SamePorts.exposeBoth (h : SamePorts sim sim' d.exposed? e.exposed?) (i : Instance)
    (port : String) {f g : Field} (hfg : SamePlace sim sim' f g) :
    SamePorts sim sim' ((d.handOver i port f).expose i.path port f).exposed?
      ((e.handOver i port g).expose i.path port g).exposed? := by
  intro p n
  rw [Draft.exposed?_expose_eq, Draft.exposed?_expose_eq, Draft.exposed?_handOver,
    Draft.exposed?_handOver]
  split
  · exact .some hfg
  · exact h p n

end

namespace AlignedDrafts

variable {same : Prop} {d d' e e' : Draft} {i : Instance}

/-- Another state of both drafts with the same simulators and the same stores. -/
theorem of_eq (h : AlignedDrafts same d e) (hd : d'.machine.sim = d.machine.sim)
    (hds : d'.machine.store = d.machine.store) (he : e'.machine.sim = e.machine.sim)
    (hes : e'.machine.store = e.machine.store)
    (hports : SamePorts d.machine.sim e.machine.sim d'.field? e'.field?)
    (hexposed : SamePorts d.machine.sim e.machine.sim d'.exposed? e'.exposed?) :
    AlignedDrafts same d' e' := by
  refine ⟨h.machines.of_eq hd hds he hes, ?_, ?_⟩
  · rw [hd, he]
    exact hports
  · rw [hd, he]
    exact hexposed

/-- What has been handed out gets the same names in both drafts. -/
theorem insertPorts (h : AlignedDrafts same d e) {m n : Machine} {fs gs : List Field}
    (hout : HandOut same d.machine e.machine m n fs gs) (path : List Nat) (names : List String) :
    AlignedDrafts same ({ d with machine := m }.insertPorts path (names.zip fs))
      ({ e with machine := n }.insertPorts path (names.zip gs)) := by
  have hbefore : AlignedDrafts same { d with machine := m } { e with machine := n } :=
    ⟨hout.aligned, h.ports.mono hout.left hout.right, h.exposed.mono hout.left hout.right⟩
  refine hbefore.of_eq (Draft.sim_insertPorts _ _ _) (Draft.store_insertPorts _ _ _)
    (Draft.sim_insertPorts _ _ _) (Draft.store_insertPorts _ _ _)
    (SamePorts.insertPorts hout.fields path hbefore.ports) ?_
  rw [(Draft.AddsPorts.insertPorts path _ _).exposed?_eq,
    (Draft.AddsPorts.insertPorts path _ _).exposed?_eq]
  exact hbefore.exposed

theorem port? (h : AlignedDrafts same d e) (path : List Nat) (name : String) :
    SameOutcome (SamePlace d.machine.sim e.machine.sim) (d.port? path name)
      (e.port? path name) := by
  rw [Draft.port?_eq, Draft.port?_eq]
  rcases rel_cases (h.ports path name) with ⟨hf, hg⟩ | ⟨f, g, hf, hg, hfg⟩
  · rw [hf, hg]
    exact .refused _
  · rw [hf, hg]
    exact .done hfg

/-- A declaration has the same outcome in both drafts. -/
theorem declare? (h : AlignedDrafts same d e) (declaration : Declaration) :
    SameOutcome (AlignedDrafts same) (Draft.declare? i declaration d)
      (Draft.declare? i declaration e) := by
  cases declaration with
  | gate k name =>
    rw [Draft.declare?_gate, Draft.declare?_gate]
    exact .done (h.insertPorts (h.machines.lendGate k) i.path _)
  | bridge views =>
    exact (h.machines.lendBridge? (views.map BridgeView.widths)).bind fun _ _ hout =>
      .done (h.insertPorts hout i.path _)
  | synonym target name =>
    refine (h.port? i.path target).bind fun f g hfg => .done (h.of_eq ?_ ?_ ?_ ?_ ?_ ?_)
    · exact Draft.sim_insertPort d i.path name f
    · exact Draft.store_insertPort d i.path name f
    · exact Draft.sim_insertPort e i.path name g
    · exact Draft.store_insertPort e i.path name g
    · exact h.ports.insertPort i.path name hfg
    · rw [(Draft.AddsPorts.insertPort i.path d name f).exposed?_eq,
        (Draft.AddsPorts.insertPort i.path e name g).exposed?_eq]
      exact h.exposed
  | connection source target =>
    refine (h.port? i.path source).bind fun f g hsource => ?_
    refine (h.port? i.path target).bind fun f' g' htarget => ?_
    exact (h.machines.connect? hsource htarget).bind fun _ _ hout =>
      .done ⟨hout.aligned, h.ports.mono hout.left hout.right, h.exposed.mono hout.left hout.right⟩
  | exposure port =>
    refine (h.port? i.path port).bind fun f g hfg => .done (h.of_eq ?_ ?_ ?_ ?_ ?_ ?_)
    · exact (Draft.machine_handOver i port f d).1
    · exact (Draft.machine_handOver i port f d).2
    · exact (Draft.machine_handOver i port g e).1
    · exact (Draft.machine_handOver i port g e).2
    · exact (h.ports.handOver i port hfg).expose i.path port f g
    · exact h.exposed.exposeBoth i port hfg

/-- Instances are populated in the same way in both drafts. -/
theorem populate (h : AlignedDrafts same d e) (i : Instance) :
    Attempt.Related (AlignedDrafts same) (d.populate i) (e.populate i) := by
  refine Attempt.Related.andThen (Attempt.each_related ?_ i.schematic.declarations h) ?_
  · intro declaration d e hde
    exact (hde.declare? declaration).ofExcept hde
  · intro d e hde
    exact ⟨rfl, hde.of_eq rfl rfl rfl rfl hde.ports hde.exposed⟩

end AlignedDrafts

/-- A built circuit shows the ports that the instances showed at the end. -/
theorem Schematic.exposedField?_assemble (s : Schematic) (d : Draft) (path : List Nat)
    (name : String) :
    (s.assemble d.scope []).exposedField? path name =
      (s.at? path).bind fun _ => d.exposed? path name := by
  rw [Circuit.exposedField?, at?_assemble, List.nil_append]
  cases s.at? path with
  | none => rfl
  | some t =>
    cases t
    rfl

/-- What building a schematic in both machines yields, with success or without. -/
structure BuiltBoth (same : Prop) (m n : Machine) (s : Schematic) : Prop where
  aligned : Aligned same (m.build s).machine (n.build s).machine
  circuits : SameOutcome (SameCircuits (m.build s).machine.sim (n.build s).machine.sim)
    (m.build s).circuit (n.build s).circuit

theorem Aligned.build {same : Prop} {m n : Machine} (h : Aligned same m n) (s : Schematic) :
    BuiltBoth same m n s := by
  have hempty : AlignedDrafts same
      { machine := m.report (.treeInstantiated s.name s.instances.length) }
      { machine := n.report (.treeInstantiated s.name s.instances.length) } :=
    ⟨h.of_eq rfl rfl rfl rfl, fun _ _ => .none, fun _ _ => .none⟩
  obtain ⟨hfault, hdrafts⟩ : Attempt.Related (AlignedDrafts same) (m.populateAll s)
      (n.populateAll s) :=
    Attempt.each_related (fun i d e hde => hde.populate i) s.instances.reverse hempty
  constructor
  · rw [m.machine_build, n.machine_build]
    exact hdrafts.machines
  · rw [m.machine_build, n.machine_build, m.circuit_build, n.circuit_build, ← hfault]
    cases (m.populateAll s).fault? with
    | some fault => exact .refused fault
    | none =>
      refine .done ⟨fun path name => ?_, fun path name => ?_⟩
      · rw [Schematic.field?_assemble, Schematic.field?_assemble]
        cases s.at? path with
        | none => exact .none
        | some _ => exact hdrafts.ports path name
      · rw [Schematic.exposedField?_assemble, Schematic.exposedField?_assemble]
        cases s.at? path with
        | none => exact .none
        | some _ => exact hdrafts.exposed path name

end PackedLogic
