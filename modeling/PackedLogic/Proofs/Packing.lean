import PackedLogic.Proofs.Reference
import PackedLogic.Proofs.Step
set_option autoImplicit false

/-!
# Packing is not observable

The packed machine and the reference machine carry out the same actions.  A `Layout` says where in
the store each record of the reference machine stands, and `Packs` that the bits there have the
values of the record.  Edits, steps and clearings keep this, so that all fields read the same in
both machines (`Packs.read`).  There is one exception: the output of an inverter that was lent
from a block evaluated before reads one until the next step.
-/

namespace PackedLogic

/-- An edit that tells the values of a bit apart keeps them apart. -/
theorem Edit.bit_true_eq_or (e : Edit) (j : Nat) :
    e.bit j true = e.bit j false ∨ (e.bit j true = true ∧ e.bit j false = false) := by
  cases e with
  | set v => exact Or.inl rfl
  | clear => exact Or.inl rfl
  | add v => cases hv : v.getLsbD j <;> simp [bit, hv]
  | multiply v => cases hv : v.getLsbD j <;> simp [bit, hv]

/-- Where the records of the reference machine stand in the store: the first bit of each. -/
structure Layout where
  gate : Nat → Bit
  word : Nat → Bit

namespace Layout

/-- Where a bit of the reference machine stands. -/
def bit (L : Layout) : Spot → Bit
  | .terminal gate lane => ⟨(L.gate gate).cell + lane, (L.gate gate).index⟩
  | .bit word index => ⟨(L.word word).cell, (L.word word).index + index⟩

/-- Where a place begins. -/
def start (L : Layout) : Place → Bit
  | .terminal gate lane => L.bit (.terminal gate lane)
  | .bits word span => L.bit (.bit word span.offset)

/-- The field addresses a place of the reference machine. -/
structure Shows (L : Layout) (r : Reference) (p : Place) (f : Field) : Prop where
  knows : r.Knows p
  ref : f.ref = .ofCell (L.start p).cell
  offset : f.offset = (L.start p).index
  width : f.width = p.width

theorem Shows.bit? {L : Layout} {r : Reference} {p : Place} {f : Field} (h : L.Shows r p f)
    {j : Nat} (hj : j < p.width) : f.bit? j = some (L.bit (p.spot j)) := by
  rw [Field.bit?_eq_some_iff]
  refine ⟨h.width ▸ hj, ?_, ?_⟩
  · rw [h.ref]
    cases p <;> rfl
  · rw [h.offset]
    cases p with
    | terminal gate lane =>
      have hlt : j < 1 := hj
      show (L.gate gate).index = (L.gate gate).index + j
      omega
    | bits word span => exact (Nat.add_assoc _ _ _).symm

theorem Shows.of_sameShape {L : Layout} {r r' : Reference} {p : Place} {f : Field}
    (h : L.Shows r p f) (hshape : r.SameShape r') : L.Shows r' p f :=
  ⟨hshape.knows h.knows, h.ref, h.offset, h.width⟩

theorem Shows.withSockets {L : Layout} {r : Reference} {p : Place} {f : Field}
    (h : L.Shows r p f) {sockets : List (Place × Place)} : L.Shows { r with sockets } p f := by
  refine ⟨?_, h.ref, h.offset, h.width⟩
  cases p <;> exact h.knows

theorem Shows.exists_spot {L : Layout} {r : Reference} {p : Place} {f : Field}
    (h : L.Shows r p f) {b : Bit} (hb : f.Covers b) : ∃ j < p.width, b = L.bit (p.spot j) := by
  obtain ⟨j, hj⟩ := hb
  have hlt : j < p.width := h.width ▸ (Field.bit?_eq_some_iff.1 hj).1
  rw [h.bit? hlt] at hj
  exact ⟨j, hlt, (Option.some.inj hj).symm⟩

end Layout

/-- The output of an inverter that was lent after the latest step or clearing. -/
def Reference.Stale (r : Reference) : Spot → Prop
  | .terminal gate lane =>
    r.settled ≤ gate ∧ lane = 1 ∧ ∃ g, r.gates[gate]? = some g ∧ g.kind = .not
  | .bit .. => False

theorem Reference.Stale.of_sameShape {r r' : Reference} {x : Spot} (h : r.Stale x)
    (hshape : r.SameShape r') (hsettled : r'.settled = r.settled) : r'.Stale x := by
  cases x with
  | terminal gate lane =>
    obtain ⟨hle, hlane, g, hg, hnot⟩ := h
    obtain ⟨g', hg', hkind⟩ := hshape.exists_gate hg
    exact ⟨hsettled ▸ hle, hlane, g', hg', hkind.trans hnot⟩
  | bit word index => exact h

theorem Reference.not_stale {r : Reference} (h : r.settled = r.gates.length) {x : Spot} :
    ¬ r.Stale x := by
  cases x with
  | terminal gate lane =>
    rintro ⟨hle, -, g, hg, -⟩
    obtain ⟨hlt, -⟩ := List.getElem?_eq_some_iff.1 hg
    omega
  | bit word index => exact id

/-- The bit lies in the output lane of an inverter block. -/
def Simulator.InverterOutput (sim : Simulator) (b : Bit) : Prop :=
  ∃ block ∈ sim.blocks (.gates .not), b.cell = block.base + 1

/-- The records of the reference machine stand in lent bits of their own, which have their values;
only outputs of inverters may be set beyond that. -/
structure Packs (L : Layout) (r : Reference) (sim : Simulator) (s : Store) : Prop where
  owns : sim.Owns s
  settled : r.settled ≤ r.gates.length
  gates : ∀ {gate : Nat} {g : GateRecord}, r.gates[gate]? = some g →
    ∃ block ∈ sim.blocks (.gates g.kind),
      block.base = (L.gate gate).cell ∧ (L.gate gate).index < block.cursor
  words : ∀ {word : Nat} {w : WordRecord}, r.words[word]? = some w →
    ∃ block ∈ sim.blocks .bus,
      block.base = (L.word word).cell ∧ (L.word word).index + w.width ≤ block.cursor
  inj : ∀ {x y : Spot} {a a' : Bool}, r.bit? x = some a → r.bit? y = some a' →
    L.bit x = L.bit y → x = y
  agree : ∀ {x : Spot} {a : Bool}, r.bit? x = some a →
    s.bit (L.bit x) = a ∨ (r.Stale x ∧ s.bit (L.bit x) = true ∧ a = false)
  residue : ∀ {b : Bit}, sim.Residue s b → sim.InverterOutput b
  sockets : List.Forall₂ (fun wire w => L.Shows r wire.1 w.source ∧ L.Shows r wire.2 w.target)
    r.sockets sim.sockets.sockets

namespace Packs

variable {L : Layout} {r : Reference} {sim : Simulator} {s : Store}

/-- Every bit in use has been lent. -/
theorem lent (h : Packs L r sim s) {x : Spot} {a : Bool} (hx : r.bit? x = some a) :
    sim.Lent (L.bit x) := by
  cases x with
  | terminal gate lane =>
    obtain ⟨g, hg, hlane, -⟩ := Reference.bit?_terminal_eq_some_iff.1 hx
    obtain ⟨block, hblock, hbase, hindex⟩ := h.gates hg
    exact ⟨_, block, hblock, lane, hlane, by rw [hbase]; rfl, hindex⟩
  | bit word index =>
    obtain ⟨w, hw, hindex, -⟩ := Reference.bit?_bit_eq_some_iff.1 hx
    obtain ⟨block, hblock, hbase, hcursor⟩ := h.words hw
    refine ⟨_, block, hblock, 0, Nat.one_pos, by rw [hbase]; rfl, ?_⟩
    show (L.word word).index + index < block.cursor
    omega

theorem holds (h : Packs L r sim s) {p : Place} {f : Field} (hf : L.Shows r p f) :
    sim.Holds f := by
  refine ⟨_, ?_, hf.ref⟩
  cases p with
  | terminal gate lane =>
    obtain ⟨g, hg, hlane⟩ := hf.knows
    obtain ⟨block, hblock, hbase, -⟩ := h.gates hg
    show (L.gate gate).cell + lane ∈ sim.cells
    rw [← hbase]
    exact Simulator.cell_mem hblock hlane
  | bits word span =>
    obtain ⟨w, hw, -⟩ := hf.knows
    obtain ⟨block, hblock, hbase, -⟩ := h.words hw
    show (L.word word).cell ∈ sim.cells
    rw [← hbase]
    exact Simulator.mem_cells.2 ⟨.bus, block, hblock, 0, Nat.one_pos, rfl⟩

theorem lent_of_covers (h : Packs L r sim s) {p : Place} {f : Field} (hf : L.Shows r p f)
    {b : Bit} (hb : f.Covers b) : sim.Lent b := by
  obtain ⟨j, hj, rfl⟩ := hf.exists_spot hb
  obtain ⟨a, ha⟩ := hf.knows.exists_bit hj
  exact h.lent ha

theorem wired (h : Packs L r sim s) : sim.Wired := by
  intro w hw
  have hends : ∀ {wires : List (Place × Place)} {ws : List Socket},
      List.Forall₂ (fun wire w => L.Shows r wire.1 w.source ∧ L.Shows r wire.2 w.target)
        wires ws → w ∈ ws → sim.Holds w.source ∧ sim.Holds w.target := by
    intro wires ws hall hmem
    induction hall with
    | nil => cases hmem
    | cons hshows _ ih =>
      rcases List.mem_cons.1 hmem with rfl | hmem
      · exact ⟨h.holds hshows.1, h.holds hshows.2⟩
      · exact ih hmem
  exact hends h.sockets hw

/-- A field all of whose bits agree with its place reads the same. -/
theorem read_of_agree (h : Packs L r sim s) {p : Place} {f : Field} (hf : L.Shows r p f)
    (hall : ∀ j < p.width, ∀ a, r.bit? (p.spot j) = some a → s.bit (L.bit (p.spot j)) = a) :
    f.get s = .ok (r.read p) := by
  refine Field.get_of_bits (h.owns.isLive (h.holds hf)) ?_
  intro j
  rw [Reference.getLsbD_read hf.knows]
  by_cases hj : j < p.width
  · obtain ⟨a, ha⟩ := hf.knows.exists_bit hj
    rw [if_pos hj, hf.bit? hj, ha]
    exact (hall j hj a ha).symm
  · have hnone : f.bit? j = none := by
      rw [Field.bit?, if_neg (hf.width ▸ hj)]
    rw [if_neg hj, hnone]
    rfl

/-- A terminal whose bit is set reads one. -/
theorem read_one (h : Packs L r sim s) {gate lane : Nat} {f : Field}
    (hf : L.Shows r (.terminal gate lane) f)
    (hset : s.bit (L.bit (.terminal gate lane)) = true) : f.get s = .ok 1 := by
  refine Field.get_of_bits (h.owns.isLive (h.holds hf)) ?_
  intro j
  have hwidth : f.width = 1 := hf.width
  rcases Nat.eq_zero_or_pos j with rfl | hj
  · rw [hf.bit? Nat.one_pos]
    exact hset.symm
  · have hnone : f.bit? j = none := by
      rw [Field.bit?, if_neg (by omega)]
    simp [hnone, Nat.ne_of_gt hj]

/-- What a field reads, compared with the place that it addresses. -/
theorem read (h : Packs L r sim s) {p : Place} {f : Field} (hf : L.Shows r p f) :
    f.get s = .ok (r.read p) ∨
      ((∃ gate, p = .terminal gate 1 ∧ r.Stale (.terminal gate 1)) ∧ f.get s = .ok 1 ∧
        r.read p = 0) := by
  by_cases hstale : ∃ gate, p = .terminal gate 1 ∧ r.Stale (.terminal gate 1)
  · obtain ⟨gate, rfl, hgate⟩ := hstale
    -- The place has one bit, which either agrees or is set in the store alone.
    obtain ⟨a, ha⟩ : ∃ a, r.bit? (.terminal gate 1) = some a :=
      hf.knows.exists_bit (j := 0) Nat.one_pos
    rcases h.agree ha with heq | ⟨-, hset, rfl⟩
    · refine Or.inl (h.read_of_agree hf ?_)
      intro j _ a' ha'
      obtain rfl : a = a' := Option.some.inj (ha.symm.trans ha')
      exact heq
    · obtain ⟨g, hg, -, hfalse⟩ := Reference.bit?_terminal_eq_some_iff.1 ha
      refine Or.inr ⟨⟨gate, rfl, hgate⟩, h.read_one hf hset, ?_⟩
      simp [Reference.read, hg, hfalse]
  · refine Or.inl (h.read_of_agree hf ?_)
    intro j hj a ha
    rcases h.agree ha with heq | ⟨hbit, -⟩
    · exact heq
    · cases p with
      | terminal gate lane =>
        obtain rfl : lane = 1 := hbit.2.1
        exact absurd ⟨gate, rfl, hbit⟩ hstale
      | bits word span => exact hbit.elim

/-- Another content of the same records and the same cells. -/
theorem of_sameShape (h : Packs L r sim s) {r' : Reference} {s' : Store} (hshape : r.SameShape r')
    (hcells : s'.SameCells s) (hsettled : r'.settled ≤ r'.gates.length)
    (hagree : ∀ {x : Spot} {a : Bool}, r'.bit? x = some a →
      s'.bit (L.bit x) = a ∨ (r'.Stale x ∧ s'.bit (L.bit x) = true ∧ a = false))
    (hresidue : ∀ {b : Bit}, sim.Residue s' b → sim.InverterOutput b) : Packs L r' sim s' := by
  refine ⟨h.owns.of_sameCells hcells, hsettled, ?_, ?_, ?_, hagree, hresidue, ?_⟩
  · intro gate g' hg'
    obtain ⟨g, hg, hkind⟩ := hshape.symm.exists_gate hg'
    rw [← hkind]
    exact h.gates hg
  · intro word w' hw'
    obtain ⟨w, hw, hwidth⟩ := hshape.symm.exists_word hw'
    rw [← hwidth]
    exact h.words hw
  · intro x y a a' hx hy heq
    obtain ⟨c, hc⟩ := hshape.symm.exists_bit hx
    obtain ⟨c', hc'⟩ := hshape.symm.exists_bit hy
    exact h.inj hc hc' heq
  · rw [hshape.sockets]
    exact h.sockets.imp fun _ _ hshows =>
      ⟨hshows.1.of_sameShape hshape, hshows.2.of_sameShape hshape⟩

/-- An edit of a field is the edit of its place. -/
theorem edit (h : Packs L r sim s) {p : Place} {f : Field} (hf : L.Shows r p f) {e : Edit}
    {s' : Store} (hs' : f.Edited e s s') : Packs L (r.edit e p) sim s' := by
  have hshape := r.sameShape_edit e p
  have hstale : ∀ {x : Spot}, r.Stale x → (r.edit e p).Stale x :=
    fun hx => hx.of_sameShape hshape (r.settled_edit e p)
  refine h.of_sameShape hshape hs'.cells ?_ ?_ ?_
  · rw [r.settled_edit, hshape.length_gates]
    exact h.settled
  · intro x a hx
    obtain ⟨c, hc⟩ := hshape.symm.exists_bit hx
    by_cases hspot : ∃ j < p.width, x = p.spot j
    · obtain ⟨j, hj, rfl⟩ := hspot
      rw [Reference.bit?_edit_spot hf.knows e hj, hc] at hx
      obtain rfl : e.bit j c = a := Option.some.inj hx
      rw [hs'.inside (hf.bit? hj)]
      rcases h.agree hc with heq | ⟨hold, hset, rfl⟩
      · rw [heq]
        exact Or.inl rfl
      · -- Whatever the edit makes of both values, it does not swap them.
        rw [hset]
        rcases e.bit_true_eq_or j with heq | ⟨htrue, hfalse⟩
        · exact Or.inl heq
        · exact Or.inr ⟨hstale hold, htrue, hfalse⟩
    · have hne : ∀ j < p.width, x ≠ p.spot j := fun j hj heq => hspot ⟨j, hj, heq⟩
      rw [Reference.bit?_edit_of_ne e hne] at hx
      have houtside : ¬ f.Covers (L.bit x) := by
        intro hcovers
        obtain ⟨j, hj, heq⟩ := hf.exists_spot hcovers
        obtain ⟨c', hc'⟩ := hf.knows.exists_bit hj
        exact hne j hj (h.inj hx hc' heq)
      rw [hs'.outside houtside]
      rcases h.agree hx with heq | ⟨hold, hset, hfalse⟩
      · exact Or.inl heq
      · exact Or.inr ⟨hstale hold, hset, hfalse⟩
  · intro b hb
    refine h.residue ⟨hb.cell, hb.unlent, ?_⟩
    rw [← hs'.outside fun hcovers => hb.unlent (h.lent_of_covers hf hcovers)]
    exact hb.set

/-- The gate phase leaves bits that nobody has been lent at zero, outputs of inverters apart. -/
theorem inverterOutput_of_residue_tickGates (h : Packs L r sim s) {b : Bit}
    (hb : sim.Residue (sim.tickGates s) b) : sim.InverterOutput b := by
  by_cases hout : sim.GateOutput b
  · obtain ⟨k, block, hblock, i, hi, rfl⟩ := hout
    -- The gate was not lent either, so that its inputs are zero.
    have hunlent : ¬ i < block.cursor := fun hlt =>
      hb.unlent ⟨_, block, hblock, k.inputs, Nat.lt_succ_self _, rfl, hlt⟩
    have hinput : k ≠ .not → ∀ lane < k.inputs, s.bit ⟨block.base + lane, i⟩ = false := by
      intro hk lane hlane
      have harity : lane < k.arity := Nat.lt_succ_of_lt hlane
      rw [Bool.eq_false_iff]
      intro hset
      have hresidue : sim.Residue s ⟨block.base + lane, i⟩ := by
        refine ⟨Simulator.cell_mem hblock harity, ?_, hset⟩
        rintro ⟨p, block', hblock', lane', hlane', hcell, hindex⟩
        obtain ⟨-, rfl, -⟩ := h.owns.unique hblock harity hblock' hlane' hcell
        exact hunlent hindex
      obtain ⟨block', hblock', hcell⟩ := h.residue hresidue
      have hcells : block.base + lane = block'.base + 1 := hcell
      obtain ⟨hpart, -⟩ := h.owns.unique hblock harity hblock' (by decide : 1 < 2) hcells
      exact hk (Part.gates.inj hpart)
    have hset := hb.set
    rw [Simulator.bit_tickGates_output h.owns hblock hi] at hset
    by_cases hk : k = .not
    · subst hk
      exact ⟨block, hblock, rfl⟩
    · rw [funext fun lane : Fin k.inputs => hinput hk lane lane.isLt, GateKind.bit_false hk] at hset
      cases hset
  · refine h.residue ⟨hb.cell, hb.unlent, ?_⟩
    rw [← Simulator.bit_tickGates_of_not_output hout]
    exact hb.set

/-- Inputs of gates are never stale. -/
theorem agree_input (h : Packs L r sim s) {gate : Nat} {g : GateRecord}
    (hg : r.gates[gate]? = some g) {lane : Nat} (hlane : lane < g.kind.inputs) :
    s.bit (L.bit (.terminal gate lane)) = g.terminals lane := by
  have hbit : r.bit? (.terminal gate lane) = some (g.terminals lane) :=
    Reference.bit?_terminal_eq_some_iff.2 ⟨g, hg, Nat.lt_succ_of_lt hlane, rfl⟩
  rcases h.agree hbit with heq | ⟨⟨-, rfl, g₁, hg₁, hnot⟩, -⟩
  · exact heq
  · rw [hg] at hg₁
    obtain rfl : g = g₁ := Option.some.inj hg₁
    rw [hnot] at hlane
    exact absurd hlane (Nat.lt_irrefl 1)

/-- Bits of words are never stale. -/
theorem agree_bit (h : Packs L r sim s) {word index : Nat} {a : Bool}
    (hx : r.bit? (.bit word index) = some a) : s.bit (L.bit (.bit word index)) = a := by
  rcases h.agree hx with heq | ⟨hstale, -⟩
  · exact heq
  · exact hstale.elim

/-- After the gate phase every terminal has the value it has in its record by itself. -/
theorem bit_tickGates_terminal (h : Packs L r sim s) {gate : Nat} {g : GateRecord}
    (hg : r.gates[gate]? = some g) {lane : Nat} (hlane : lane < g.kind.arity) :
    (sim.tickGates s).bit (L.bit (.terminal gate lane)) = g.evaluate.terminals lane := by
  obtain ⟨block, hblock, hbase, hindex⟩ := h.gates hg
  have hbit : ∀ l, (⟨block.base + l, (L.gate gate).index⟩ : Bit) = L.bit (.terminal gate l) := by
    intro l
    rw [hbase]
    rfl
  by_cases hout : lane = g.kind.inputs
  · subst hout
    have hlt : (L.gate gate).index < 64 := Nat.lt_of_lt_of_le hindex block.cursor_le
    rw [← hbit, Simulator.bit_tickGates_output h.owns hblock hlt, g.terminals_evaluate_output]
    refine congrArg g.kind.bit (funext fun l => ?_)
    rw [hbit]
    exact h.agree_input hg l.isLt
  · have hnot : ¬ sim.GateOutput (L.bit (.terminal gate lane)) := by
      rw [← hbit]
      exact h.owns.not_gateOutput_of_ne hblock hlane hout _
    have hinput : lane < g.kind.inputs := by
      have hlt : lane < g.kind.inputs + 1 := hlane
      omega
    rw [Simulator.bit_tickGates_of_not_output hnot, h.agree_input hg hinput,
      g.terminals_evaluate_of_ne hout]

/-- The gate phase leaves the words of the bus alone. -/
theorem bit_tickGates_bit (h : Packs L r sim s) {word index : Nat} {a : Bool}
    (hx : r.bit? (.bit word index) = some a) :
    (sim.tickGates s).bit (L.bit (.bit word index)) = a := by
  obtain ⟨w, hw, -⟩ := Reference.bit?_bit_eq_some_iff.1 hx
  obtain ⟨block, hblock, hbase, -⟩ := h.words hw
  have hnot : ¬ sim.GateOutput (L.bit (.bit word index)) := by
    rw [Layout.bit, ← hbase]
    exact h.owns.not_gateOutput_bus hblock _
  rw [Simulator.bit_tickGates_of_not_output hnot]
  exact h.agree_bit hx

/-- The gate phase evaluates every record by itself. -/
theorem evaluate (h : Packs L r sim s) : Packs L r.evaluate sim (sim.tickGates s) := by
  have hshape := r.sameShape_evaluate
  refine h.of_sameShape hshape (sim.sameCells_tickGates s) ?_ ?_
    h.inverterOutput_of_residue_tickGates
  · exact Nat.le_of_eq hshape.length_gates.symm
  · intro x a hx
    refine Or.inl ?_
    cases x with
    | terminal gate lane =>
      obtain ⟨g', hg', hlane, rfl⟩ := Reference.bit?_terminal_eq_some_iff.1 hx
      obtain ⟨g, hg, rfl⟩ := Reference.exists_of_evaluate hg'
      exact h.bit_tickGates_terminal hg hlane
    | bit word index => exact h.bit_tickGates_bit hx

/-- The socket phase applies the same sockets in the same order. -/
theorem copyAll {wires : List (Place × Place)} {ws : List Socket} (h : Packs L r sim s)
    (hall : r.settled = r.gates.length)
    (hwires : List.Forall₂ (fun wire w => L.Shows r wire.1 w.source ∧ L.Shows r wire.2 w.target)
      wires ws) :
    ∃ s', Attempt.each Socket.tick ws s = .done s' ∧
      Packs L (wires.foldl Reference.copy r) sim s' := by
  induction wires generalizing r s ws with
  | nil =>
    cases hwires
    exact ⟨s, rfl, h⟩
  | cons wire wires ih =>
    cases hwires with
    | @cons _ w _ ws hshows hrest =>
      have hshape := r.sameShape_edit (.set (r.read wire.1)) wire.2
      obtain ⟨s₁, hedit, hs₁⟩ :=
        Field.edit_of_isLive (.set (r.read wire.1)) (h.owns.isLive (h.holds hshows.2))
      have htick : w.tick s = .done s₁ := by
        rcases h.read hshows.1 with hget | ⟨⟨gate, -, hstale⟩, -⟩
        · rw [Socket.tick, hget]
          exact hedit
        · exact absurd hstale (Reference.not_stale hall)
      obtain ⟨s', heach, hs'⟩ := ih (h.edit hshows.2 hs₁)
        (by rw [r.settled_edit, hall, hshape.length_gates])
        (hrest.imp fun _ _ hends =>
          ⟨hends.1.of_sameShape hshape, hends.2.of_sameShape hshape⟩)
      exact ⟨s', by rw [Attempt.each_cons, htick, Attempt.done_andThen, heach], hs'⟩

/-- Other sockets and other counters of the same blocks. -/
theorem withSockets (h : Packs L r sim s) {sim' : Simulator} {sockets : List (Place × Place)}
    (hblocks : ∀ p, sim'.blocks p = sim.blocks p)
    (hsockets : List.Forall₂
      (fun wire w => L.Shows r wire.1 w.source ∧ L.Shows r wire.2 w.target)
      sockets sim'.sockets.sockets) :
    Packs L { r with sockets } sim' s := by
  have hcells : sim'.cells = sim.cells := by
    rw [Simulator.cells_eq, Simulator.cells_eq]
    refine List.flatMap_congr fun p _ => ?_
    rw [Simulator.cellsOf, hblocks, Simulator.cellsOf]
  have hlent : ∀ {b : Bit}, sim.Lent b → sim'.Lent b := by
    rintro b ⟨p, block, hblock, hb⟩
    exact ⟨p, block, hblocks p ▸ hblock, hb⟩
  have hbit : ∀ x, ({ r with sockets } : Reference).bit? x = r.bit? x := by
    intro x
    cases x <;> rfl
  refine ⟨⟨fun c hc => h.owns.live c (hcells ▸ hc), hcells ▸ h.owns.apart⟩, h.settled, ?_, ?_,
    ?_, ?_, ?_, hsockets.imp fun _ _ hshows => ⟨hshows.1.withSockets, hshows.2.withSockets⟩⟩
  · intro gate g hg
    rw [hblocks]
    exact h.gates hg
  · intro word w hw
    rw [hblocks]
    exact h.words hw
  · intro x y a a' hx hy
    rw [hbit] at hx hy
    exact h.inj hx hy
  · intro x a hx
    rw [hbit] at hx
    rcases h.agree hx with heq | ⟨hstale, hset, hfalse⟩
    · exact Or.inl heq
    · refine Or.inr ⟨?_, hset, hfalse⟩
      cases x <;> exact hstale
  · intro b hb
    obtain ⟨block, hblock, hcell⟩ :=
      h.residue ⟨hcells ▸ hb.cell, fun hold => hb.unlent (hlent hold), hb.set⟩
    exact ⟨block, hblocks _ ▸ hblock, hcell⟩

/-- Clearing clears every record. -/
theorem clear (h : Packs L r sim s) : Packs L r.clear sim (sim.clear s) := by
  have hshape := r.sameShape_clear
  have hzero : ∀ {b : Bit}, b.cell ∈ sim.cells → (sim.clear s).bit b = false := by
    intro b hb
    rw [Simulator.clear, Store.bit_zero, if_pos hb]
  refine h.of_sameShape hshape (Store.sameCells_zero s sim.cells) ?_ ?_ ?_
  · exact Nat.le_of_eq hshape.length_gates.symm
  · intro x a hx
    obtain ⟨c, hc⟩ := hshape.symm.exists_bit hx
    rw [hzero (h.lent hc).mem_cells, Reference.eq_false_of_clear hx]
    exact Or.inl rfl
  · intro b hb
    have hset := hb.set
    rw [hzero hb.cell] at hset
    cases hset

end Packs

/-- A step of the packed machine is a step of the reference machine. -/
theorem Packs.tick {L : Layout} {r : Reference} {m : Machine} (h : Packs L r m.sim m.store) :
    ∃ m', m.tick = .done m' ∧ Packs L r.tick m'.sim m'.store := by
  obtain ⟨m', htick, hticked⟩ := Machine.tick_of_wired h.owns h.wired
  obtain ⟨s', heach, hs'⟩ := h.evaluate.copyAll
    r.sameShape_evaluate.length_gates.symm h.evaluate.sockets
  have hstore : m'.store = s' := by
    have hphases : m.sim.sockets.tick (m.sim.tickGates m.store) = .done m'.store :=
      hticked.phases
    rw [SocketRegistry.tick, heach] at hphases
    exact (congrArg Attempt.state hphases).symm
  refine ⟨m', htick, ?_⟩
  rw [hstore]
  exact hs'.withSockets hticked.blocks (hticked.sockets ▸ hs'.sockets)

end PackedLogic
