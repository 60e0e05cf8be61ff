import PackedLogic.Proofs.PortNames
set_option autoImplicit false

/-!
# Re-exposed ports

A port that every instance of a chain shows to the next one above carries, at the top of the chain,
the names of all instances below it (`chainName`).  Handing a port upward copies the field and
nothing else, so whatever the length of the chain, the long name at the top and the short one at
the bottom stand for the same bits (`Machine.exists_relayed_field`), and what is written through
one of them is read through the other.
-/

namespace PackedLogic

/-! ## Writing and reading a field -/

/-- A field reads what was written to it last, cut down to its width. -/
theorem Field.get_of_edit_set {f : Field} {s s' : Store} {v : Word} (hlive : f.isLive s = true)
    (hedit : f.edit (.set v) s = .done s') : f.get s' = .ok (v &&& ones f.width) := by
  obtain ⟨s'', hdone, hedited⟩ := f.edit_of_isLive (.set v) hlive
  obtain rfl : s'' = s' := congrArg Attempt.state (hdone.symm.trans hedit)
  obtain ⟨c, href, hcell⟩ := Field.isLive_iff.1 hlive
  have hlive' : f.isLive s'' = true :=
    Field.isLive_iff.2 ⟨c, href, (hedited.cells.live c).trans hcell⟩
  refine Field.get_of_bits hlive' fun j => ?_
  rw [BitVec.getLsbD_and, getLsbD_ones]
  by_cases hj : j < f.width
  · have hbit : f.bit? j = some ⟨c, f.offset + j⟩ :=
      Field.bit?_eq_some_iff.2 ⟨hj, congrArg CellRef.cell? href, rfl⟩
    have h64 : j < 64 := by
      have hfits := f.fits
      rw [cellBits_eq] at hfits
      omega
    simp [hbit, hedited.inside hbit, Edit.bit, hj, h64]
  · simp [Field.bit?, hj]

namespace Circuit

variable {c : Circuit} {port : String} {f : Field}

theorem set_eq (h : c.port? port = .ok f) (v : Word) (s : Store) :
    c.set port v s = f.edit (.set v) s := by
  simp [set, h]

theorem get_eq (h : c.port? port = .ok f) (s : Store) : c.get port s = f.get s := by
  simp only [get, h]
  rfl

end Circuit

/-! ## Chains of instances -/

/-- The name of a port seen through several instances, from the outermost to the innermost. -/
def chainName (names : List String) (port : String) : String :=
  "_".intercalate (names ++ [port])

theorem chainName_nil (port : String) : chainName [] port = port := by
  simp [chainName]

/-- Seen through one more instance, a port gets its name in front. -/
theorem chainName_cons (name : String) (names : List String) (port : String) :
    chainName (name :: names) port = memberName name (chainName names port) := by
  have hne : names ++ [port] ≠ [] := by simp
  rw [chainName, List.cons_append, String.intercalate_cons_of_ne_nil hne]
  rfl

namespace Schematic

instance (t : Schematic) (n : String) : Decidable (t.Declares n) :=
  decidable_of_iff _ declares_iff.symm

theorem getsOnlyFrom_iff {t : Schematic} {k : Nat} {n : String} :
    t.GetsOnlyFrom k n ↔ ¬ t.Declares n ∧ ∀ (k' : Nat) (h : k' < t.subs.length),
      (∃ port ∈ t.subs[k'].2.exposed, n = memberName t.subs[k'].1 port) → k' = k := by
  constructor
  · intro h
    exact ⟨h.undeclared, fun k' hk' => h.only k' _ (List.getElem?_eq_getElem hk')⟩
  · rintro ⟨hundeclared, honly⟩
    refine ⟨hundeclared, ?_⟩
    intro k' sub hsub
    obtain ⟨hk', rfl⟩ := List.getElem?_eq_some_iff.1 hsub
    exact honly k' hk'

instance (t : Schematic) (k : Nat) (n : String) : Decidable (t.GetsOnlyFrom k n) :=
  decidable_of_iff _ getsOnlyFrom_iff.symm

/-- From instances of the schematic, the positions lead down a chain of instances with the given
names.  The last one shows the port, and each one above it but the first shows what it gets from
the next one; no instance gets that name from anywhere else. -/
inductive Relays : Schematic → List Nat → List String → String → Prop
  | last {t child : Schematic} {k : Nat} {name port : String}
      (hsub : t.subs[k]? = some (name, child)) (hexposed : port ∈ child.exposed)
      (honly : t.GetsOnlyFrom k (chainName [name] port)) : Relays t [k] [name] port
  | link {t child : Schematic} {k : Nat} {name port : String} {below : List Nat}
      {names : List String} (hsub : t.subs[k]? = some (name, child))
      (hrelays : child.Relays below names port) (hexposed : chainName names port ∈ child.exposed)
      (honly : t.GetsOnlyFrom k (chainName (name :: names) port)) :
      Relays t (k :: below) (name :: names) port

/-- A chain ends at an instance. -/
theorem Relays.exists_at? {t : Schematic} {below : List Nat} {names : List String} {port : String}
    (h : t.Relays below names port) : ∃ u, t.at? below = some u := by
  induction h with
  | @last t child k name port hsub _ _ => exact ⟨child, by simp [at?, hsub]⟩
  | link hsub _ _ _ ih =>
    obtain ⟨u, hu⟩ := ih
    exact ⟨u, by simp [at?, hsub, hu]⟩

end Schematic

namespace Machine

variable {m : Machine} {s : Schematic} {last : Draft}

/-- Whatever the length of a chain, its two ends have the same field. -/
theorem exists_relayed_field (h : m.populateAll s = .done last) {t : Schematic}
    {below : List Nat} {names : List String} {port : String} (hrelays : t.Relays below names port)
    {path : List Nat} {name : String} (hi : s.HasNode ⟨path, name, t⟩) :
    ∃ f, last.field? path (chainName names port) = some f ∧
      last.field? (path ++ below) port = some f := by
  induction hrelays generalizing path name with
  | last hsub hexposed honly =>
    rw [chainName_cons, chainName_nil] at honly ⊢
    obtain ⟨f, -, hbottom, htop⟩ := exists_handed_field h hi hsub hexposed honly
    exact ⟨f, htop, hbottom⟩
  | @link t child k sub port below names hsub _ hexposed honly ih =>
    rw [chainName_cons] at honly ⊢
    -- The field that the next instance hands up is the one it has itself from below.
    obtain ⟨f, -, hnext, htop⟩ := exists_handed_field h hi hsub hexposed honly
    obtain ⟨g, hshown, hbottom⟩ := ih (.child hi hsub rfl)
    obtain rfl : f = g := Option.some.inj (hnext.symm.trans hshown)
    refine ⟨f, htop, ?_⟩
    rw [List.append_cons]
    exact hbottom

theorem port?_assemble {d : Draft} {path : List Nat} {name : String} {f : Field}
    (h : d.field? path name = some f) (t : Schematic) :
    (t.assemble d.scope path).port? name = .ok f := by
  rw [Circuit.port?, PortMap.find?, Schematic.getElem?_ports_assemble, h]

/-- The ports of a built circuit lie in cells of the machine. -/
theorem isLive_of_field? (howns : m.sim.Owns m.store) (hwired : m.sim.Wired)
    (h : m.populateAll s = .done last) {path : List Nat} {name : String} {f : Field}
    (hf : last.field? path name = some f) : f.isLive (m.build s).machine.store = true := by
  have hsound := sound_populateAll howns hwired s
  rw [h] at hsound
  rw [m.machine_build, h]
  exact hsound.owns.isLive (hsound.holds hf)

/-- A long name in one instance and a short one in another stand for one field.  As long as its cell
exists, a write through either name does the same, and is read back through both. -/
structure SharesField (top deep : Circuit) (long short : String) (f : Field) : Prop where
  long_eq : top.port? long = .ok f
  short_eq : deep.port? short = .ok f
  set_get : ∀ (store : Store) (v : Word), f.isLive store = true → ∃ store',
    top.set long v store = .done store' ∧ deep.set short v store = .done store' ∧
      top.get long store' = .ok (v &&& ones f.width) ∧
      deep.get short store' = .ok (v &&& ones f.width)

theorem SharesField.of_port? {top deep : Circuit} {long short : String} {f : Field}
    (hlong : top.port? long = .ok f) (hshort : deep.port? short = .ok f) :
    SharesField top deep long short f := by
  refine ⟨hlong, hshort, ?_⟩
  intro store v hlive
  obtain ⟨store', hdone, -⟩ := f.edit_of_isLive (.set v) hlive
  have hget := Field.get_of_edit_set hlive hdone
  refine ⟨store', ?_, ?_, ?_, ?_⟩
  · rw [Circuit.set_eq hlong, hdone]
  · rw [Circuit.set_eq hshort, hdone]
  · rw [Circuit.get_eq hlong, hget]
  · rw [Circuit.get_eq hshort, hget]

/-- Re-exposure is free at any depth.  Where a chain of instances relays a port, the instance at the
top and the one at the bottom share its field, and after the build the cell of this field exists. -/
theorem relays_shares {c top : Circuit} {t : Schematic} {path below : List Nat}
    {names : List String} {port : String} (hbuilt : (m.build s).circuit = .ok c)
    (htop : c.at? path = some top) (ht : s.at? path = some t)
    (hrelays : t.Relays below names port) :
    ∃ deep f, c.at? (path ++ below) = some deep ∧
      SharesField top deep (chainName names port) port f ∧
      (m.sim.Owns m.store → m.sim.Wired → f.isLive (m.build s).machine.store = true) := by
  obtain ⟨last, hlast, rfl⟩ := exists_draft_of_build hbuilt
  obtain ⟨u, hu⟩ := hrelays.exists_at?
  obtain ⟨name, hi⟩ := Schematic.exists_hasNode ht
  obtain ⟨f, hlong, hshort⟩ := exists_relayed_field hlast hrelays hi
  have hdeep : s.at? (path ++ below) = some u := by simp [Schematic.at?_append, ht, hu]
  rw [Schematic.at?_assemble, ht] at htop
  obtain rfl := Option.some.inj htop
  refine ⟨u.assemble last.scope (path ++ below), f, ?_, ?_, ?_⟩
  · simp [Schematic.at?_assemble, hdeep]
  · exact .of_port? (port?_assemble hlong t) (port?_assemble hshort u)
  · intro howns hwired
    exact isLive_of_field? howns hwired hlast hshort

/-- The input of a line of two inverters, from two levels above. -/
theorem relays_shares_twoLines :
    ∃ c deep f, (({} : Machine).build twoLines).circuit = .ok c ∧
      twoLines.Relays [0, 0] ["long", "in"] "n_a" ∧ c.at? [0, 0] = some deep ∧
      SharesField c deep "long_in_n_a" "n_a" f ∧
      f.isLive (({} : Machine).build twoLines).machine.store = true := by
  obtain ⟨c, hbuilt⟩ : ∃ c, (({} : Machine).build twoLines).circuit = .ok c := ⟨_, rfl⟩
  have hlong : twoLines.subs[0]? = some ("long", repeater) := rfl
  have hin : repeater.subs[0]? = some ("in", inverter) := rfl
  have hrelays : twoLines.Relays [0, 0] ["long", "in"] "n_a" :=
    .link hlong (.last hin (by decide) (by decide +kernel)) (by decide +kernel) (by decide +kernel)
  obtain ⟨deep, f, hdeep, hshares, hlive⟩ :=
    relays_shares hbuilt (Circuit.at?_nil c) rfl hrelays
  have hname : chainName ["long", "in"] "n_a" = "long_in_n_a" := by decide +kernel
  rw [hname] at hshares
  exact ⟨c, deep, f, hbuilt, hrelays, hdeep, hshares, hlive ⟨nofun, List.nodup_nil⟩ nofun⟩

end Machine

end PackedLogic
