import PackedLogic.Proofs.Enlargement
set_option autoImplicit false

/-!
# Instances side by side

A field travels upward only: an instance has the fields that it has been lent itself and those that
come from the instances below it.  What is lent was nobody's before.  So two instances neither of
which lies above the other have no field in common (`Machine.field_ne_of_diverge`).
-/

namespace PackedLogic

/-- Neither path leads on from the other. -/
def Diverge (p q : List Nat) : Prop := ¬ p <+: q ∧ ¬ q <+: p

namespace Diverge

variable {p q p' q' : List Nat}

theorem symm (h : Diverge p q) : Diverge q p := ⟨h.2, h.1⟩

/-- Paths that have parted stay apart. -/
theorem of_prefix_left (h : Diverge p q) (hp : p <+: p') : Diverge p' q := by
  refine ⟨fun hq => h.1 (hp.trans hq), fun hq => ?_⟩
  rcases List.prefix_or_prefix_of_prefix hp hq with hpq | hqp
  · exact h.1 hpq
  · exact h.2 hqp

theorem of_prefix (h : Diverge p q) (hp : p <+: p') (hq : q <+: q') : Diverge p' q' :=
  ((h.of_prefix_left hp).symm.of_prefix_left hq).symm

theorem of_ne {path : List Nat} {k k' : Nat} (h : k ≠ k') :
    Diverge (path ++ [k]) (path ++ [k']) := by
  constructor
  · intro habove
    exact h (by simpa using habove)
  · intro habove
    exact h (by simpa [eq_comm] using habove)

end Diverge

/-- The field lies in a cell of the simulator, and all of its bits have been lent. -/
structure Simulator.HoldsLent (sim : Simulator) (f : Field) : Prop where
  holds : sim.Holds f
  lent : ∀ b, f.Covers b → sim.Lent b

theorem Simulator.HoldsLent.mono {sim sim' : Simulator} {f : Field} (h : sim.HoldsLent f)
    (hgrows : sim.Grows sim') : sim'.HoldsLent f :=
  ⟨hgrows.holds h.holds, fun b hb => hgrows.lent (h.lent b hb)⟩

namespace Draft

variable {d d' : Draft} {i : Instance} {declaration : Declaration} {f g : Field}

/-! ## Fields that have just been lent -/

/-- The field has been lent in this step.  If it has no bits, it lies in a new cell. -/
structure Lends (d d' : Draft) (f : Field) (row : Row) (lane offset width : Nat) : Prop where
  lends : d.machine.Lends d'.machine row
  cut : row.Cut lane offset width f
  fresh : 0 < width ∨ row.base = d.machine.store.size

/-- What has just been lent is no field that somebody had before. -/
theorem Lends.ne {row : Row} {lane offset width : Nat} (h : Lends d d' f row lane offset width)
    (howns : d.machine.sim.Owns d.machine.store) (hg : d.machine.sim.HoldsLent g) : f ≠ g := by
  rintro rfl
  rcases h.fresh with hwidth | hbase
  · have hbit : f.bit? 0 = some ⟨row.base + lane, f.offset⟩ :=
      Field.bit?_eq_some_iff.2 ⟨by rw [h.cut.width_eq]; exact hwidth, by rw [h.cut.ref]; rfl, rfl⟩
    have hcovers : f.Covers ⟨row.base + lane, f.offset⟩ := ⟨0, hbit⟩
    exact h.lends.not_lent howns (h.cut.contains hcovers) (hg.lent _ hcovers)
  · obtain ⟨c, hc, href⟩ := hg.holds
    have hcell : row.base + lane = c :=
      Option.some.inj (congrArg CellRef.cell? (h.cut.ref.symm.trans href))
    have hlt := Store.lt_size_of_isLive (howns.live c hc)
    omega

theorem Lends.holdsLent {row : Row} {lane offset width : Nat}
    (h : Lends d d' f row lane offset width) : d'.machine.sim.HoldsLent f :=
  ⟨h.lends.holds_of_cut h.cut, fun _ hb => h.lends.lent_of_contains (h.cut.contains hb)⟩

/-! ## Where ports come from -/

/-- A port of an instance has a field of this instance or of one below, or the instance has just been
lent it. -/
inductive ComesFrom (d d' : Draft) (i : Instance) (p : List Nat) (f : Field) : Prop
  | below {q : List Nat} {n : String} (habove : p <+: q) (hfield : d.field? q n = some f)
  | new {row : Row} {lane offset width : Nat} (hpath : p = i.path)
      (hlends : Lends d d' f row lane offset width)

/-- Names from a list are given to fields that have just been lent. -/
theorem comesFrom_insertPorts {m' : Machine} {ports : List (String × Field)}
    (hlends : ∀ port ∈ ports, ∃ row lane offset width,
      Lends d ({ d with machine := m' }.insertPorts i.path ports) port.2 row lane offset width)
    {p : List Nat} {n : String}
    (hf : ({ d with machine := m' }.insertPorts i.path ports).field? p n = some f) :
    ComesFrom d ({ d with machine := m' }.insertPorts i.path ports) i p f := by
  by_cases hp : p = i.path
  · rcases field?_insertPorts hf with hold | ⟨port, hport, rfl⟩
    · exact .below List.prefix_rfl hold
    · obtain ⟨row, lane, offset, width, h⟩ := hlends port hport
      exact .new hp h
  · rw [field?, (AddsPorts.insertPorts i.path _ ports).others p hp] at hf
    exact .below List.prefix_rfl hf

theorem comesFrom_gate {k : GateKind} {name : String} (h : declare? i (.gate k name) d = .ok d')
    {p : List Nat} {n : String} (hf : d'.field? p n = some f) : ComesFrom d d' i p f := by
  obtain ⟨row, -, -, hlends, hcut⟩ := d.machine.lends_lendGate k
  rw [declare?_gate] at h
  obtain rfl := Except.ok.inj h
  refine comesFrom_insertPorts ?_ hf
  rintro ⟨port, g⟩ hport
  obtain ⟨lane, rfl⟩ := List.mem_ofFn.1 (List.of_mem_zip hport).2
  exact ⟨row, _, _, _, hlends.of_eq (sim_insertPorts _ _ _) (store_insertPorts _ _ _), hcut lane,
    .inl Nat.one_pos⟩

theorem comesFrom_bridge {views : List BridgeView} (h : declare? i (.bridge views) d = .ok d')
    {p : List Nat} {n : String} (hf : d'.field? p n = some f) : ComesFrom d d' i p f := by
  by_cases fits : ∀ widths ∈ views.map BridgeView.widths, total widths ≤ cellBits
  · obtain ⟨m', fields, hok, row, hpart, -, hlends, hcut, rfl⟩ := d.machine.lends_lendBridge? fits
    have hclaims := hlends.claims
    rw [hpart] at hclaims
    have hbase := hclaims.base_eq_size (Machine.blocks_lendBridge? hok)
    rw [declare?_bridge_of_ok hok] at h
    obtain rfl := Except.ok.inj h
    refine comesFrom_insertPorts ?_ hf
    rintro ⟨port, g⟩ hport
    obtain ⟨fields, hfields, hg⟩ := List.mem_flatten.1 (List.of_mem_zip hport).2
    obtain ⟨widths, -, rfl⟩ := List.mem_map.1 hfields
    obtain ⟨span, -, rfl⟩ := List.mem_map.1 hg
    exact ⟨row, _, _, _, hlends.of_eq (sim_insertPorts _ _ _) (store_insertPorts _ _ _), hcut span,
      .inr hbase⟩
  · rw [declare?_bridge_of_wide fits] at h
    cases h

theorem comesFrom_of_declare? (h : declare? i declaration d = .ok d') {p : List Nat} {n : String}
    (hf : d'.field? p n = some f) : ComesFrom d d' i p f := by
  cases declaration with
  | gate k name => exact comesFrom_gate h hf
  | bridge views => exact comesFrom_bridge h hf
  | synonym target name =>
    obtain ⟨g, hg, rfl⟩ := declare?_synonym_eq_ok h
    rw [field?_insertPort] at hf
    split at hf
    · rename_i hport
      rw [hport.1]
      exact .below List.prefix_rfl (hg.trans hf)
    · exact .below List.prefix_rfl hf
  | connection source target =>
    obtain ⟨w, -, -, rfl⟩ := declare?_connection_eq_ok h
    exact .below List.prefix_rfl hf
  | exposure port =>
    obtain ⟨g, hg, rfl⟩ := declare?_exposure_eq_ok h
    rw [field?_expose, field?_handOver] at hf
    split at hf
    · rename_i hport
      obtain ⟨k, hpath⟩ := Instance.parent?_eq_some_iff.1 hport.1
      exact .below ⟨[k], hpath.symm⟩ (hg.trans hf)
    · exact .below List.prefix_rfl hf

/-! ## Ports of instances side by side -/

/-- Instances neither of which lies above the other have no field in common. -/
structure Separate (d : Draft) : Prop where
  owns : d.machine.sim.Owns d.machine.store
  lent : ∀ {p : List Nat} {n : String} {f : Field}, d.field? p n = some f →
    d.machine.sim.HoldsLent f
  apart : ∀ {p q : List Nat} {n n' : String} {f : Field}, Diverge p q → d.field? p n = some f →
    d.field? q n' ≠ some f

/-- One more declaration keeps them separate. -/
theorem Separate.declare? (h : d.Separate) (hdeclare : Draft.declare? i declaration d = .ok d') :
    d'.Separate := by
  have hchanges := changes_of_declare? hdeclare
  refine ⟨hchanges.owns h.owns, ?_, ?_⟩
  · intro p n f hf
    cases comesFrom_of_declare? hdeclare hf with
    | below _ hold => exact (h.lent hold).mono hchanges.grows
    | new _ hlends => exact hlends.holdsLent
  · intro p q n n' f hpq hp hq
    cases comesFrom_of_declare? hdeclare hp with
    | below habove hold =>
      cases comesFrom_of_declare? hdeclare hq with
      | below habove' hold' => exact h.apart (hpq.of_prefix habove habove') hold hold'
      | new _ hlends => exact hlends.ne h.owns (h.lent hold) rfl
    | new hpath hlends =>
      cases comesFrom_of_declare? hdeclare hq with
      | below _ hold => exact hlends.ne h.owns (h.lent hold) rfl
      | new hpath' _ => exact hpq.1 (hpath.trans hpath'.symm ▸ List.prefix_rfl)

end Draft

namespace Machine

variable {m : Machine} {s : Schematic} {last : Draft}

theorem separate_populateAll (howns : m.sim.Owns m.store) (h : m.populateAll s = .done last) :
    last.Separate := by
  have hall := m.populateAll_keeps_of_declare? (P := Draft.Separate)
    (fun hdeclare hd => hd.declare? hdeclare) (fun _ hd => ⟨hd.owns, hd.lent, hd.apart⟩) s
    ⟨howns, nofun, nofun⟩
  rwa [h] at hall

/-- In a built circuit, instances neither of which lies above the other have no field in common. -/
theorem field_ne_of_diverge {c : Circuit} (howns : m.sim.Owns m.store)
    (hbuilt : (m.build s).circuit = .ok c) {p q : List Nat} (hpq : Diverge p q) {n n' : String}
    {f g : Field} (hf : c.field? p n = some f) (hg : c.field? q n' = some g) : f ≠ g := by
  obtain ⟨last, hlast, rfl⟩ := exists_draft_of_build hbuilt
  rw [Schematic.field?_assemble] at hf hg
  obtain ⟨-, -, hf⟩ := Option.bind_eq_some_iff.1 hf
  obtain ⟨-, -, hg⟩ := Option.bind_eq_some_iff.1 hg
  rintro rfl
  exact (separate_populateAll howns hlast).apart hpq hf hg

/-- Different children of an instance never show the same field. -/
theorem exposed_ne_of_ne {c node child child' : Circuit} (howns : m.sim.Owns m.store)
    (hbuilt : (m.build s).circuit = .ok c) {path : List Nat} (hnode : c.at? path = some node)
    {k k' : Nat} (hne : k ≠ k') (hchild : node.children[k]? = some child)
    (hchild' : node.children[k']? = some child') {port port' : String} {f g : Field}
    (hf : child.exposed[port]? = some f) (hg : child'.exposed[port']? = some g) : f ≠ g := by
  have hshown : ∀ {k : Nat} {child : Circuit} {port : String} {f : Field},
      node.children[k]? = some child → child.exposed[port]? = some f →
        c.field? (path ++ [k]) port = some f := by
    intro k child port f hchild hf
    have hat : c.at? (path ++ [k]) = some child := by
      rw [Circuit.at?_append, hnode, Option.bind_some, Circuit.at?_cons, hchild]
      rfl
    refine field?_of_exposedField? hbuilt ?_
    rw [Circuit.exposedField?, hat]
    exact hf
  exact field_ne_of_diverge howns hbuilt (.of_ne hne) (hshown hchild hf) (hshown hchild' hg)

end Machine

end PackedLogic
