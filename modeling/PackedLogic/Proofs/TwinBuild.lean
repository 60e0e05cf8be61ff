import PackedLogic.Proofs.Drafts
import PackedLogic.Proofs.Links
import Mathlib.Data.List.FinRange
import Mathlib.Data.List.Forall2
set_option autoImplicit false

/-!
# Building in linked machines

A circuit that is built in the right machine alone stays away from all links
(`Twins.build_foreign`). A circuit that is built in both machines at once, before anything in them
is set that nobody has been lent, gets ports in both that are alike (`Twins.build_both`), and is
refused in both or in none.
-/

namespace PackedLogic

namespace Attempt

variable {α σ τ : Type}

/-- Both sequences end with the same fault or without one, in related states. -/
structure Related (R : σ → τ → Prop) (a : Attempt σ) (b : Attempt τ) : Prop where
  fault : a.fault? = b.fault?
  state : R a.state b.state

theorem Related.andThen {R : σ → τ → Prop} {a : Attempt σ} {b : Attempt τ} (h : Related R a b)
    {next : σ → Attempt σ} {next' : τ → Attempt τ}
    (hnext : ∀ s t, R s t → Related R (next s) (next' t)) :
    Related R (a.andThen next) (b.andThen next') := by
  obtain ⟨s, fault⟩ := a
  obtain ⟨t, fault'⟩ := b
  obtain rfl : fault = fault' := h.fault
  cases fault with
  | none => exact hnext s t h.state
  | some f => exact ⟨rfl, h.state⟩

theorem each_related {step : α → σ → Attempt σ} {step' : α → τ → Attempt τ} {R : σ → τ → Prop}
    (h : ∀ a s t, R s t → Related R (step a s) (step' a t)) (as : List α) {s : σ} {t : τ}
    (hst : R s t) : Related R (each step as s) (each step' as t) := by
  induction as generalizing s t with
  | nil => exact ⟨rfl, hst⟩
  | cons a as ih =>
    rw [each_cons, each_cons]
    exact (h a s t hst).andThen fun _ _ => ih

end Attempt

section

variable {α β γ δ : Type} {R : α → β → Prop} {S : γ → δ → Prop} {x : Option α} {y : Option β}

/-- Options that are related are both empty, or both not. -/
theorem rel_cases (h : Option.Rel R x y) :
    (x = none ∧ y = none) ∨ ∃ a b, x = some a ∧ y = some b ∧ R a b := by
  cases h with
  | none => exact .inl ⟨rfl, rfl⟩
  | some hab => exact .inr ⟨_, _, rfl, rfl, hab⟩

theorem rel_bind (h : Option.Rel R x y) {next : α → Option γ} {next' : β → Option δ}
    (hnext : ∀ a b, R a b → Option.Rel S (next a) (next' b)) :
    Option.Rel S (x.bind next) (y.bind next') := by
  cases h with
  | none => exact .none
  | some hab => exact hnext _ _ hab

theorem rel_map (h : Option.Rel R x y) {f : α → γ} {g : β → δ} (hfg : ∀ a b, R a b → S (f a) (g b)) :
    Option.Rel S (x.map f) (y.map g) := by
  cases h with
  | none => exact .none
  | some hab => exact .some (hfg _ _ hab)

/-- Lists that are related member by member are so at every position. -/
theorem rel_getElem? {as : List α} {bs : List β} (h : List.Forall₂ R as bs) (n : Nat) :
    Option.Rel R as[n]? bs[n]? := by
  induction h generalizing n with
  | nil => exact .none
  | cons hab _ ih =>
    cases n with
    | zero => exact .some hab
    | succ n => exact ih n

end

/-! ## Cuts of rows that are lent -/

section

variable {links : List (Row × Row)} {others : Field → Prop} {m m' n n' : Machine} {row row' : Row}
  {lane offset width : Nat} {f g : Field}

theorem Row.Cut.foreign (h : row.Cut lane offset width f) (htwins : Twins links others m n)
    (hlends : n.Lends n' row) : Foreign links n'.sim f := by
  refine ⟨hlends.holds_of_cut h, fun hb => hlends.lent_of_contains (h.contains hb), ?_⟩
  intro a b hab hcovers
  exact hlends.not_lent htwins.right (h.contains hcovers) (htwins.lent_right hab)

theorem Row.Cut.holds {sim : Simulator} (h : row.Cut lane offset width f) (hrow : sim.HasRow row) :
    sim.Holds f := by
  obtain ⟨block, hblock, hbase, -⟩ := hrow
  exact ⟨row.base + lane, hbase ▸ Simulator.cell_mem hblock h.lane_lt, h.ref⟩

/-- The same cuts of linked rows. -/
theorem Row.Cut.alike {sim sim' : Simulator} (hf : row.Cut lane offset width f)
    (hg : row'.Cut lane offset width g) (hrow : sim.HasRow row) (hrow' : sim'.HasRow row')
    (hlink : (row, row') ∈ links) : Alike links sim sim' f g := by
  refine ⟨hf.holds hrow, hg.holds hrow', hf.width_eq.trans hg.width_eq.symm, ?_⟩
  intro j a b ha hb
  obtain ⟨rfl, hlt⟩ := hf.bit? ha
  obtain ⟨rfl, -⟩ := hg.bit? hb
  exact ⟨_, hlink, lane, hf.lane_lt, offset + j, hlt, rfl, rfl⟩

/-- What the machines have reported does not matter. -/
theorem Twins.of_eq (h : Twins links others m n) (hm : m'.sim = m.sim) (hms : m'.store = m.store)
    (hn : n'.sim = n.sim) (hns : n'.store = n.store) : Twins links others m' n' := by
  refine h.of_grows (.of_blocks fun p => by rw [hm]) (.of_blocks fun p => by rw [hn]) ?_ ?_ ?_ ?_
  · rw [hm, hms]
    exact h.left
  · rw [hn, hns]
    exact h.right
  · rw [hm, hn]
    exact h.sockets
  · rw [hms, hns]
    exact h.agree

theorem Simulator.Clean.withSockets {sim : Simulator} {s : Store} (h : sim.Clean s)
    (ws : List Socket) : (sim.withSockets ws).Clean s := by
  rintro b ⟨hcell, hunlent, hset⟩
  refine h b ⟨hcell, fun hlent => hunlent ?_, hset⟩
  exact (Simulator.Grows.of_blocks (sim.blocks_withSockets ws)).lent hlent

/-- Sockets between fields that are alike are added to both machines. -/
theorem Twins.connect (h : Twins links others m n) {w w' : Socket}
    (hsource : Alike links m.sim n.sim w.source w'.source)
    (htarget : Alike links m.sim n.sim w.target w'.target) :
    Twins links others { m with sim := m.sim.withSockets (m.sim.sockets.sockets ++ [w]) }
      { n with sim := n.sim.withSockets (n.sim.sockets.sockets ++ [w']) } :=
  h.of_grows (.of_blocks (m.sim.blocks_withSockets _)) (.of_blocks (n.sim.blocks_withSockets _))
    (h.left.withSockets _) (h.right.withSockets _) (h.sockets.append_both hsource htarget) h.agree

/-- A socket between fields of another circuit is added to the right machine. -/
theorem Twins.connectForeign (h : Twins links others m n) {w : Socket}
    (hsource : Foreign links n.sim w.source) (htarget : Foreign links n.sim w.target) :
    Twins links others m { n with sim := n.sim.withSockets (n.sim.sockets.sockets ++ [w]) } :=
  h.of_grows (.refl _) (.of_blocks (n.sim.blocks_withSockets _)) h.left (h.right.withSockets _)
    (h.sockets.append_skip hsource.holds htarget) h.agree

end

/-! ## A circuit in the right machine alone -/

/-- A draft in the right machine whose ports stay away from all links. -/
structure Stranger (links : List (Row × Row)) (others : Field → Prop) (m : Machine) (d : Draft) :
    Prop where
  twins : Twins links others m d.machine
  foreign : ∀ {path : List Nat} {name : String} {f : Field}, d.field? path name = some f →
    Foreign links d.machine.sim f

section

variable {links : List (Row × Row)} {others : Field → Prop} {m : Machine} {d d' : Draft}

theorem Stranger.changes (h : Stranger links others m d) (hchanges : d.Changes d') :
    Stranger links others m d' := by
  cases hchanges with
  | lend hlends hports =>
    refine ⟨h.twins.lendForeign hlends, ?_⟩
    intro path name f hf
    rcases hports hf with hold | ⟨lane, offset, width, hcut⟩
    · exact (h.foreign hold).mono hlends.grows fun hab _ => hab
    · exact hcut.foreign h.twins hlends
  | wire width_eq hf hg hsim hstore hports =>
    have hconnect := h.twins.connectForeign (w := ⟨_, _, width_eq⟩) (h.foreign hf) (h.foreign hg)
    refine ⟨hconnect.of_eq rfl rfl hsim hstore, ?_⟩
    intro path name f' hf'
    rw [hports] at hf'
    refine (h.foreign hf').mono (.of_blocks fun p => ?_) fun hab _ => hab
    rw [hsim, Simulator.blocks_withSockets]
  | name hsim hstore hports =>
    refine ⟨h.twins.of_eq rfl rfl hsim hstore, ?_⟩
    intro path name f hf
    obtain ⟨path', name', hold⟩ := hports hf
    rw [hsim]
    exact h.foreign hold

/-- Declarations leave nothing set that nobody has been lent. -/
theorem Draft.Changes.clean (h : d.Changes d') (hclean : d.machine.sim.Clean d.machine.store) :
    d'.machine.sim.Clean d'.machine.store := by
  cases h with
  | lend hlends _ => exact hlends.clean hclean
  | wire width_eq _ _ hsim hstore _ =>
    rw [hsim, hstore]
    exact hclean.withSockets _
  | name hsim hstore _ =>
    rw [hsim, hstore]
    exact hclean

/-- A circuit that is built in the right machine, or only in part, has nothing to do with links. -/
theorem Twins.build_foreign {n : Machine} (h : Twins links others m n) (s : Schematic) :
    Twins links others m (n.build s).machine ∧
      ∀ {c : Circuit}, (n.build s).circuit = .ok c →
        ∀ {path : List Nat} {name : String} {f : Field}, c.field? path name = some f →
          Foreign links (n.build s).machine.sim f := by
  have hdraft := n.populateAll_keeps (P := Stranger links others m)
    (fun hd hchanges => hd.changes hchanges) s ⟨h, nofun⟩
  rw [n.machine_build, n.circuit_build]
  refine ⟨hdraft.twins, ?_⟩
  intro c hc path name f hf
  cases hfault : (n.populateAll s).fault? with
  | some fault =>
    rw [hfault] at hc
    cases hc
  | none =>
    rw [hfault] at hc
    obtain rfl := Except.ok.inj hc
    rw [Schematic.field?_assemble] at hf
    obtain ⟨t, -, hf⟩ := Option.bind_eq_some_iff.1 hf
    exact hdraft.foreign hf

theorem Machine.clean_build (h : m.sim.Clean m.store) (s : Schematic) :
    (m.build s).machine.sim.Clean (m.build s).machine.store := by
  rw [m.machine_build]
  exact m.populateAll_keeps (P := fun d => d.machine.sim.Clean d.machine.store)
    (fun hd hchanges => hchanges.clean hd) s h

end

/-! ## A circuit in both machines -/

/-- Both maps give fields that are alike to the same names. -/
def AlikePorts (links : List (Row × Row)) (sim sim' : Simulator)
    (ports ports' : List Nat → String → Option Field) : Prop :=
  ∀ path name, (ports path name = none ∧ ports' path name = none) ∨
    ∃ f g, ports path name = some f ∧ ports' path name = some g ∧ Alike links sim sim' f g

/-- Drafts of the same schematic in both machines. -/
structure TwinDrafts (links : List (Row × Row)) (others : Field → Prop) (d e : Draft) : Prop where
  twins : Twins links others d.machine e.machine
  cleanLeft : d.machine.sim.Clean d.machine.store
  cleanRight : e.machine.sim.Clean e.machine.store
  ports : AlikePorts links d.machine.sim e.machine.sim d.field? e.field?

section

variable {links links' : List (Row × Row)} {others : Field → Prop} {d d' e e' : Draft}
  {i : Instance}

theorem AlikePorts.mono {sim sim' simGrown simGrown' : Simulator}
    {ports ports' : List Nat → String → Option Field} (h : AlikePorts links sim sim' ports ports')
    (hleft : sim.Grows simGrown) (hright : sim'.Grows simGrown')
    (hlinks : ∀ {a b : Bit}, Linked links a b → Linked links' a b) :
    AlikePorts links' simGrown simGrown' ports ports' := by
  intro path name
  rcases h path name with hnone | ⟨f, g, hf, hg, hfg⟩
  · exact Or.inl hnone
  · exact Or.inr ⟨f, g, hf, hg, hfg.mono hleft hright hlinks⟩

theorem AlikePorts.insertPort {sim sim' : Simulator}
    (h : AlikePorts links sim sim' d.field? e.field?) (path : List Nat) (name : String)
    {f g : Field} (hfg : Alike links sim sim' f g) :
    AlikePorts links sim sim' (d.insertPort path name f).field?
      (e.insertPort path name g).field? := by
  intro p n
  rw [Draft.field?_insertPort, Draft.field?_insertPort]
  split
  · exact Or.inr ⟨f, g, rfl, rfl, hfg⟩
  · exact h p n

/-- The same names are given to fields that are related. -/
theorem forall₂_zip_names {R : Field → Field → Prop} {fields fields' : List Field}
    (h : List.Forall₂ R fields fields') (names : List String) :
    List.Forall₂ (fun p q => q.1 = p.1 ∧ R p.2 q.2) (names.zip fields) (names.zip fields') := by
  induction h generalizing names with
  | nil =>
    rw [List.zip_nil_right]
    exact .nil
  | cons hfg _ ih =>
    cases names with
    | nil => exact .nil
    | cons name names => exact .cons ⟨rfl, hfg⟩ (ih names)

theorem AlikePorts.insertPorts {sim sim' : Simulator} (path : List Nat)
    {ports ports' : List (String × Field)}
    (hports : List.Forall₂ (fun p q => q.1 = p.1 ∧ Alike links sim sim' p.2 q.2) ports ports')
    (h : AlikePorts links sim sim' d.field? e.field?) :
    AlikePorts links sim sim' (d.insertPorts path ports).field?
      (e.insertPorts path ports').field? := by
  induction hports generalizing d e with
  | nil => exact h
  | @cons port port' ports ports' hhead _ ih =>
    obtain ⟨name, f⟩ := port
    obtain ⟨name', g⟩ := port'
    obtain ⟨rfl, hfg⟩ := hhead
    exact ih (h.insertPort path name' hfg)

/-- A row is lent in both machines, and its fields get the same names. -/
theorem TwinDrafts.insertPorts (h : TwinDrafts links others d e) {m n : Machine} {row row' : Row}
    (hlends : d.machine.Lends m row) (hlends' : e.machine.Lends n row')
    (hpart : row'.part = row.part) (hwidth : row'.width = row.width) (path : List Nat)
    {names : List String} {fields fields' : List Field}
    (hfields : List.Forall₂ (Alike ((row, row') :: links) m.sim n.sim) fields fields') :
    TwinDrafts ((row, row') :: links) others
      ({ d with machine := m }.insertPorts path (names.zip fields))
      ({ e with machine := n }.insertPorts path (names.zip fields')) := by
  have htwins := h.twins.lend hlends hlends' hpart hwidth h.cleanLeft h.cleanRight
  have hports : AlikePorts ((row, row') :: links) m.sim n.sim
      ({ d with machine := m } : Draft).field? ({ e with machine := n } : Draft).field? :=
    h.ports.mono hlends.grows hlends'.grows fun hab => hab.cons _
  refine ⟨htwins.of_eq ?_ ?_ ?_ ?_, ?_, ?_, ?_⟩
  · exact Draft.sim_insertPorts _ _ _
  · exact Draft.store_insertPorts _ _ _
  · exact Draft.sim_insertPorts _ _ _
  · exact Draft.store_insertPorts _ _ _
  · rw [Draft.sim_insertPorts, Draft.store_insertPorts]
    exact hlends.clean h.cleanLeft
  · rw [Draft.sim_insertPorts, Draft.store_insertPorts]
    exact hlends'.clean h.cleanRight
  · rw [Draft.sim_insertPorts, Draft.sim_insertPorts]
    exact AlikePorts.insertPorts path (forall₂_zip_names hfields names) hports

/-- A port has the same fate in both drafts: its fields are alike, or there is none. -/
theorem TwinDrafts.port? (h : TwinDrafts links others d e) (path : List Nat) (name : String) :
    (∃ f g, d.port? path name = .ok f ∧ e.port? path name = .ok g ∧
        Alike links d.machine.sim e.machine.sim f g) ∨
      (d.port? path name = .error (.portNotFound name) ∧
        e.port? path name = .error (.portNotFound name)) := by
  rw [Draft.port?_eq, Draft.port?_eq]
  rcases h.ports path name with ⟨hf, hg⟩ | ⟨f, g, hf, hg, hfg⟩
  · rw [hf, hg]
    exact Or.inr ⟨rfl, rfl⟩
  · rw [hf, hg]
    exact Or.inl ⟨f, g, rfl, rfl, hfg⟩

/-- Another state of both drafts with the same simulators and the same stores. -/
theorem TwinDrafts.of_eq (h : TwinDrafts links others d e)
    (hd : d'.machine.sim = d.machine.sim) (hds : d'.machine.store = d.machine.store)
    (he : e'.machine.sim = e.machine.sim) (hes : e'.machine.store = e.machine.store)
    (hports : AlikePorts links d.machine.sim e.machine.sim d'.field? e'.field?) :
    TwinDrafts links others d' e' := by
  refine ⟨h.twins.of_eq hd hds he hes, ?_, ?_, ?_⟩
  · rw [hd, hds]
    exact h.cleanLeft
  · rw [he, hes]
    exact h.cleanRight
  · rw [hd, he]
    exact hports

/-- A declaration is refused with the same fault in both drafts, or carried out in both. -/
def BothDeclare (others : Field → Prop) (a b : Except Fault Draft) : Prop :=
  (∃ fault, a = .error fault ∧ b = .error fault) ∨
    ∃ d e links, a = .ok d ∧ b = .ok e ∧ TwinDrafts links others d e

namespace TwinDrafts

theorem declare?_gate (h : TwinDrafts links others d e) (k : GateKind) (name : String) :
    BothDeclare others (Draft.declare? i (.gate k name) d) (Draft.declare? i (.gate k name) e) := by
  obtain ⟨row, hpart, hwidth, hlends, hcut⟩ := d.machine.lends_lendGate k
  obtain ⟨row', hpart', hwidth', hlends', hcut'⟩ := e.machine.lends_lendGate k
  refine Or.inr ⟨_, _, (row, row') :: links, Draft.declare?_gate d i k name,
    Draft.declare?_gate e i k name, ?_⟩
  refine h.insertPorts hlends hlends' (hpart'.trans hpart.symm) (hwidth'.trans hwidth.symm) _ ?_
  rw [List.ofFn_eq_map, List.ofFn_eq_map, List.forall₂_map_left_iff, List.forall₂_map_right_iff,
    List.forall₂_same]
  intro lane _
  exact (hcut lane).alike (hcut' lane) hlends.hasRow hlends'.hasRow List.mem_cons_self

theorem declare?_bridge (h : TwinDrafts links others d e) (views : List BridgeView) :
    BothDeclare others (Draft.declare? i (.bridge views) d)
      (Draft.declare? i (.bridge views) e) := by
  by_cases fits : ∀ widths ∈ views.map BridgeView.widths, total widths ≤ cellBits
  · obtain ⟨m, fields, hok, row, hpart, hwidth, hlends, hcut, rfl⟩ :=
      d.machine.lends_lendBridge? fits
    obtain ⟨n, fields', hok', row', hpart', hwidth', hlends', hcut', rfl⟩ :=
      e.machine.lends_lendBridge? fits
    refine Or.inr ⟨_, _, (row, row') :: links, Draft.declare?_bridge_of_ok hok,
      Draft.declare?_bridge_of_ok hok', ?_⟩
    refine h.insertPorts hlends hlends' (hpart'.trans hpart.symm) (hwidth'.trans hwidth.symm) _ ?_
    rw [← List.flatMap_def, ← List.flatMap_def, ← List.map_flatMap, ← List.map_flatMap,
      List.forall₂_map_left_iff, List.forall₂_map_right_iff, List.forall₂_same]
    intro span _
    exact (hcut span).alike (hcut' span) hlends.hasRow hlends'.hasRow List.mem_cons_self
  · exact Or.inl ⟨_, Draft.declare?_bridge_of_wide fits, Draft.declare?_bridge_of_wide fits⟩

theorem declare?_synonym (h : TwinDrafts links others d e) (target name : String) :
    BothDeclare others (Draft.declare? i (.synonym target name) d)
      (Draft.declare? i (.synonym target name) e) := by
  rw [Draft.declare?, Draft.declare?]
  rcases h.port? i.path target with ⟨f, g, hf, hg, hfg⟩ | ⟨hf, hg⟩
  · rw [hf, hg]
    refine Or.inr ⟨_, _, links, rfl, rfl, h.of_eq ?_ ?_ ?_ ?_ ?_⟩
    · exact Draft.sim_insertPort d i.path name f
    · exact Draft.store_insertPort d i.path name f
    · exact Draft.sim_insertPort e i.path name g
    · exact Draft.store_insertPort e i.path name g
    · exact h.ports.insertPort i.path name hfg
  · rw [hf, hg]
    exact Or.inl ⟨_, rfl, rfl⟩

theorem declare?_connection (h : TwinDrafts links others d e) (source target : String) :
    BothDeclare others (Draft.declare? i (.connection source target) d)
      (Draft.declare? i (.connection source target) e) := by
  rw [Draft.declare?, Draft.declare?]
  rcases h.port? i.path source with ⟨f, g, hf, hg, hsource⟩ | ⟨hf, hg⟩
  · rcases h.port? i.path target with ⟨f', g', hf', hg', htarget⟩ | ⟨hf', hg'⟩
    · rw [hf, hg, hf', hg']
      by_cases heq : f.width = f'.width
      · have heq' : g.width = g'.width := by rw [← hsource.width, ← htarget.width, heq]
        have hconnect := d.machine.connect?_of_eq heq
        have hconnect' := e.machine.connect?_of_eq heq'
        simp only [hconnect, hconnect', bind, Except.bind, pure, Except.pure]
        refine Or.inr ⟨_, _, links, rfl, rfl, ?_⟩
        have hgrows := Simulator.Grows.of_blocks (d.machine.sim.blocks_withSockets
          (d.machine.sim.sockets.sockets ++ [⟨f, f', heq⟩]))
        have hgrows' := Simulator.Grows.of_blocks (e.machine.sim.blocks_withSockets
          (e.machine.sim.sockets.sockets ++ [⟨g, g', heq'⟩]))
        have hwire : Alike links d.machine.sim e.machine.sim (Socket.mk f f' heq).source
            (Socket.mk g g' heq').source := hsource
        exact ⟨h.twins.connect hwire htarget,
          h.cleanLeft.withSockets _, h.cleanRight.withSockets _, h.ports.mono hgrows hgrows' id⟩
      · have heq' : g.width ≠ g'.width := by rwa [← hsource.width, ← htarget.width]
        have hconnect := d.machine.connect?_of_ne heq
        have hconnect' := e.machine.connect?_of_ne heq'
        simp only [hconnect, hconnect', bind, Except.bind]
        exact Or.inl ⟨_, rfl, by rw [hsource.width, htarget.width]⟩
    · rw [hf, hg, hf', hg']
      exact Or.inl ⟨_, rfl, rfl⟩
  · rw [hf, hg]
    exact Or.inl ⟨_, rfl, rfl⟩

theorem declare?_exposure (h : TwinDrafts links others d e) (port : String) :
    BothDeclare others (Draft.declare? i (.exposure port) d)
      (Draft.declare? i (.exposure port) e) := by
  have hexpose : ∀ {d : Draft} (f : Field), (d.expose i.path port f).field? = d.field? := by
    intro d f
    funext path name
    exact Draft.field?_expose d i.path port f path name
  rw [Draft.declare?, Draft.declare?]
  rcases h.port? i.path port with ⟨f, g, hf, hg, hfg⟩ | ⟨hf, hg⟩
  · rw [hf, hg]
    cases hparent : i.parent? with
    | none =>
      refine Or.inr ⟨_, _, links, rfl, rfl, h.of_eq rfl rfl rfl rfl ?_⟩
      rw [hexpose, hexpose]
      exact h.ports
    | some parent =>
      refine Or.inr ⟨_, _, links, rfl, rfl, h.of_eq ?_ ?_ ?_ ?_ ?_⟩
      · exact Draft.sim_insertPort d parent (memberName i.name port) f
      · exact Draft.store_insertPort d parent (memberName i.name port) f
      · exact Draft.sim_insertPort e parent (memberName i.name port) g
      · exact Draft.store_insertPort e parent (memberName i.name port) g
      · rw [hexpose, hexpose]
        exact h.ports.insertPort parent (memberName i.name port) hfg
  · rw [hf, hg]
    exact Or.inl ⟨_, rfl, rfl⟩

/-- A declaration has the same outcome in both drafts. -/
theorem declare? (h : TwinDrafts links others d e) (declaration : Declaration) :
    BothDeclare others (Draft.declare? i declaration d) (Draft.declare? i declaration e) := by
  cases declaration with
  | gate k name => exact h.declare?_gate k name
  | bridge views => exact h.declare?_bridge views
  | synonym target name => exact h.declare?_synonym target name
  | connection source target => exact h.declare?_connection source target
  | exposure port => exact h.declare?_exposure port

/-- Declarations have the same outcome in both drafts, one after the other. -/
theorem declareAll (h : TwinDrafts links others d e) (i : Instance)
    (declarations : List Declaration) :
    Attempt.Related (fun d e => ∃ links, TwinDrafts links others d e)
      (Attempt.each (fun declaration d => .ofExcept d (Draft.declare? i declaration d))
        declarations d)
      (Attempt.each (fun declaration d => .ofExcept d (Draft.declare? i declaration d))
        declarations e) := by
  refine Attempt.each_related ?_ declarations ⟨links, h⟩
  rintro declaration d e ⟨links, hde⟩
  rcases hde.declare? (i := i) declaration with ⟨fault, hd, he⟩ | ⟨d', e', links', hd, he, hde'⟩
  · rw [hd, he]
    exact ⟨rfl, links, hde⟩
  · rw [hd, he]
    exact ⟨rfl, links', hde'⟩

/-- Instances are populated in the same way in both drafts. -/
theorem populate (h : TwinDrafts links others d e) (i : Instance) :
    Attempt.Related (fun d e => ∃ links, TwinDrafts links others d e) (d.populate i)
      (e.populate i) := by
  refine Attempt.Related.andThen (h.declareAll i i.schematic.declarations) ?_
  rintro d e ⟨links, hde⟩
  exact ⟨rfl, links, hde.of_eq rfl rfl rfl rfl hde.ports⟩

end TwinDrafts

/-- A schematic that is built in both machines is refused in both or in none, and the circuits
have ports that are alike. -/
theorem Twins.build_both {m n : Machine} (h : Twins links others m n)
    (hm : m.sim.Clean m.store) (hn : n.sim.Clean n.store) {s : Schematic} {c : Circuit}
    (hc : (m.build s).circuit = .ok c) :
    ∃ c' links', (n.build s).circuit = .ok c' ∧
      Twins links' others (m.build s).machine (n.build s).machine ∧
      AlikePorts links' (m.build s).machine.sim (n.build s).machine.sim c.field? c'.field? := by
  have hempty : TwinDrafts links others
      { machine := m.report (.treeInstantiated s.name s.instances.length) }
      { machine := n.report (.treeInstantiated s.name s.instances.length) } :=
    ⟨h.of_eq rfl rfl rfl rfl, hm, hn, fun _ _ => Or.inl ⟨rfl, rfl⟩⟩
  have hall : Attempt.Related (fun d e => ∃ links, TwinDrafts links others d e)
      (m.populateAll s) (n.populateAll s) := by
    refine Attempt.each_related ?_ s.instances.reverse ⟨links, hempty⟩
    rintro i d e ⟨links, hde⟩
    exact hde.populate i
  obtain ⟨hfault, links', hdrafts⟩ := hall
  rw [m.circuit_build] at hc
  rw [m.machine_build, n.machine_build, n.circuit_build, ← hfault]
  cases hdone : (m.populateAll s).fault? with
  | some fault =>
    rw [hdone] at hc
    cases hc
  | none =>
    rw [hdone] at hc
    obtain rfl := Except.ok.inj hc
    refine ⟨_, links', rfl, hdrafts.twins, ?_⟩
    intro path name
    rw [Schematic.field?_assemble, Schematic.field?_assemble]
    cases s.at? path with
    | none => exact Or.inl ⟨rfl, rfl⟩
    | some _ => exact hdrafts.ports path name

end

end PackedLogic
