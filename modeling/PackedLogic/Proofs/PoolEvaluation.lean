import PackedLogic.Proofs.Lifetimes
import PackedLogic.Proofs.PoolHistory
set_option autoImplicit false

/-!
# Gates one by one

A tick computes with whole words, up to 64 gates at a time.  For any contents of the cells, whether
gates could have left them so or not, it does to every gate on its own what the function of the gate
says (`GatePool.Session.evaluatesEach`).  The pools of a simulator read and write cells of their own,
so the order of their ticks does not matter: each order leads to the one store in which all gates have
been evaluated at once (`Simulator.tickPools_eq_iff`).
-/

namespace PackedLogic

/-! ## One pool -/

namespace GatePool

variable {k : GateKind}

/-- Cells that are no output lanes keep their words. -/
theorem word?_tick {p : GatePool k} {s : Store} {c : Nat}
    (h : ∀ block ∈ p.bank.blocks, c ≠ block.base + k.inputs) :
    (p.tick s).word? c = s.word? c :=
  Store.word?_eq_of_bit_eq (p.sameCells_tick s) fun _ _ => bit_tick_of_ne h

/-- A second tick finds all outputs as the first one has left them. -/
theorem tick_tick {p : GatePool k} {s : Store} (htidy : p.bank.Tidy s) (hlive : p.bank.Live s) :
    p.tick (p.tick s) = p.tick s := by
  have hcells := p.sameCells_tick s
  have htidy' : p.bank.Tidy (p.tick s) := htidy.mono (Nat.le_of_eq hcells.size.symm)
  refine Store.ext_bit (p.sameCells_tick _) fun b => ?_
  by_cases hb : ∃ block ∈ p.bank.blocks, b.cell = block.base + k.inputs
  · obtain ⟨cell, i⟩ := b
    obtain ⟨block, hblock, rfl⟩ := hb
    rcases Nat.lt_or_ge i 64 with hi | hi
    · rw [bit_tick_output htidy' (hlive.of_sameCells hcells) hblock hi,
        bit_tick_output htidy hlive hblock hi]
      refine congrArg k.bit (funext fun lane => ?_)
      exact bit_tick_of_ne (ne_output htidy hblock lane.isLt)
    · rw [Store.bit_of_ge hi, Store.bit_of_ge hi]
  · exact bit_tick_of_ne fun block hblock heq => hb ⟨block, hblock, heq⟩

/-- The two values of a bit are told apart as words. -/
theorem eq_of_ite_eq {a b : Bool} (h : (if a then 1 else 0 : Word) = if b then 1 else 0) : a = b := by
  cases a <;> cases b <;> first | rfl | cases h

namespace Session

/-- Whatever the cells hold, a tick evaluates every gate that has been lent on its own, and changes
nothing but the output lanes. -/
structure EvaluatesEach (σ : Session k) (s : Store) : Prop where
  count : (σ.pool.step s).2 = σ.pool.bank.blockCount
  cells : (σ.pool.step s).1.SameCells s
  inputs : ∀ block ∈ σ.pool.bank.blocks, ∀ lane < k.inputs,
    (σ.pool.step s).1.word? (block.base + lane) = s.word? (block.base + lane)
  others : ∀ c, c ∉ σ.pool.bank.cells → (σ.pool.step s).1.word? c = s.word? c
  /-- The inputs of a gate read some bits, and then its output reads the function of these bits. -/
  outputs : ∀ gate ∈ σ.gates, ∃ v : Fin k.inputs → Bool,
    (∀ lane, (gate lane.castSucc).get s = .ok (if v lane then 1 else 0)) ∧
      (gate (Fin.last k.inputs)).get (σ.pool.step s).1 = .ok (if k.bit v then 1 else 0)
  /-- Whatever else the cells hold, as long as the inputs of a gate read the same, so does its output. -/
  alone : ∀ gate ∈ σ.gates, ∀ t : Store, t.SameCells s →
    (∀ lane : Fin k.inputs, (gate lane.castSucc).get t = (gate lane.castSucc).get s) →
      (gate (Fin.last k.inputs)).get (σ.pool.step t).1 =
        (gate (Fin.last k.inputs)).get (σ.pool.step s).1
  twice : (σ.pool.step (σ.pool.step s).1).1 = (σ.pool.step s).1

/-- A gate reads some bits at its inputs, and after a tick the function of these bits at its output. -/
theorem Orderly.exists_bits {σ : Session k} (h : σ.Orderly) {gate : Fin k.arity → Field}
    (hgate : gate ∈ σ.gates) {s : Store} (hs : s.SameCells σ.store) : ∃ v : Fin k.inputs → Bool,
    (∀ lane, (gate lane.castSucc).get s = .ok (if v lane then 1 else 0)) ∧
      (gate (Fin.last k.inputs)).get (σ.pool.tick s) = .ok (if k.bit v then 1 else 0) := by
  obtain ⟨htidy, hlive, -⟩ := h.of_sameCells hs
  obtain ⟨n, i, block, hblock, hseats⟩ := h.seated gate hgate
  have hmem := List.mem_of_getElem? hblock
  refine ⟨fun lane => s.bit ⟨block.base + lane, i⟩, ?_, ?_⟩
  · intro lane
    exact hseats.get_eq lane.castSucc (hlive block hmem _ (Nat.lt_succ_of_lt lane.isLt))
  · have hlive' := hlive.of_sameCells (σ.pool.sameCells_tick s)
    have hread := hseats.get_eq (Fin.last k.inputs)
      (hlive' block hmem k.inputs (Nat.lt_succ_self _))
    rw [Fin.val_last, bit_tick_output htidy hlive hmem hseats.index_lt] at hread
    exact hread

/-- A pool of any kind, with any history and any contents, evaluates each of its gates. -/
theorem evaluatesEach (start : Store) (requests : List (Request k)) {s : Store}
    (hs : s.SameCells (after start requests).store) : (after start requests).EvaluatesEach s := by
  have horderly := orderly_after start requests
  obtain ⟨htidy, hlive, -⟩ := horderly.of_sameCells hs
  refine ⟨rfl, sameCells_tick _ s, ?_, ?_, ?_, ?_, tick_tick htidy hlive⟩
  · intro block hblock lane hlane
    exact word?_tick (ne_output htidy hblock hlane)
  · intro c hc
    refine word?_tick ?_
    rintro block hblock rfl
    exact hc (Bank.mem_cells.2
      ⟨block, hblock, Nat.le_add_right _ _, Nat.add_lt_add_left (Nat.lt_succ_self _) _⟩)
  · intro gate hgate
    exact horderly.exists_bits hgate hs
  · intro gate hgate t ht hsame
    obtain ⟨v, hv, houtput⟩ := horderly.exists_bits hgate hs
    obtain ⟨w, hw, houtput'⟩ := horderly.exists_bits hgate (ht.trans hs)
    have hbits : w = v := by
      funext lane
      exact eq_of_ite_eq (Except.ok.inj (((hw lane).symm.trans (hsame lane)).trans (hv lane)))
    rw [hbits] at houtput'
    exact houtput'.trans houtput.symm

end Session

end GatePool

/-! ## The pools of a simulator -/

namespace Simulator

variable {sim : Simulator} {s s' : Store}

/-- Ticks the pools of some kinds, one after the other. -/
def tickPools (sim : Simulator) (kinds : List GateKind) (s : Store) : Store :=
  kinds.foldl (fun s k => ((sim.pool k).step s).1) s

/-- All gates of the simulator, lent or not, have been evaluated at once: every output bit is the
function of the input bits as they were before, and no other bit has changed. -/
structure EvaluatedAtOnce (sim : Simulator) (s s' : Store) : Prop where
  cells : s'.SameCells s
  outputs : ∀ k, ∀ block ∈ (sim.pool k).bank.blocks, ∀ i < 64,
    s'.bit ⟨block.base + k.inputs, i⟩ = k.bit fun lane => s.bit ⟨block.base + lane, i⟩
  others : ∀ b, ¬ sim.GateOutput b → s'.bit b = s.bit b

/-- Evaluating all gates at once leaves no choice. -/
theorem EvaluatedAtOnce.unique {t : Store} (h : sim.EvaluatedAtOnce s s')
    (h' : sim.EvaluatedAtOnce s t) : s' = t := by
  refine Store.ext_bit (h.cells.trans h'.cells.symm) fun b => ?_
  by_cases hb : sim.GateOutput b
  · obtain ⟨k, block, hblock, i, hi, rfl⟩ := hb
    rw [h.outputs k block hblock i hi, h'.outputs k block hblock i hi]
  · rw [h.others b hb, h'.others b hb]

theorem tickPools_eq (sim : Simulator) (kinds : List GateKind) (s : Store) :
    sim.tickPools kinds s = evaluateRows
      (kinds.flatMap fun k => (sim.blocks (.gates k)).map fun block => (k, block)) s := by
  simp only [tickPools, evaluateRows, List.foldl_flatMap, List.foldl_map]
  rfl

/-- In whatever order the pools tick, all gates are evaluated as if at once. -/
theorem Owns.evaluatedAtOnce (h : sim.Owns s) {kinds : List GateKind}
    (hkinds : kinds.Perm GateKind.all) : sim.EvaluatedAtOnce s (sim.tickPools kinds s) := by
  have hrows := hkinds.flatMap_right
    fun k => (sim.blocks (.gates k)).map fun block => (k, block)
  have hnodup := h.apart
  rw [cells_eq_gateRows] at hnodup
  have hapart := (hrows.flatMap_right rowCells).nodup_iff.2 (List.nodup_append.1 hnodup).1
  rw [tickPools_eq]
  refine ⟨sameCells_evaluateRows _ _, ?_, ?_⟩
  · intro k block hblock i hi
    exact bit_evaluateRows_output hapart (hrows.mem_iff.2 (mem_gateRows.2 hblock))
      (h.live _ (cell_mem (p := .gates k) hblock (Nat.lt_succ_self _))) hi
  · intro b hb
    rcases Nat.lt_or_ge b.index 64 with hlt | hge
    · apply bit_evaluateRows_of_ne
      rintro ⟨k, block⟩ hrow hcell
      exact hb ⟨k, block, mem_gateRows.1 (hrows.mem_iff.1 hrow), b.index, hlt, by rw [← hcell]⟩
    · rw [Store.bit_of_ge hge, Store.bit_of_ge hge]

theorem tickPools_eq_iff (h : sim.Owns s) {kinds : List GateKind}
    (hkinds : kinds.Perm GateKind.all) : sim.tickPools kinds s = s' ↔ sim.EvaluatedAtOnce s s' := by
  have hticked := h.evaluatedAtOnce hkinds
  constructor
  · rintro rfl
    exact hticked
  · exact hticked.unique

end Simulator

/-- Gates are evaluated one by one.  A pool of any kind with any history, whatever its cells hold,
evaluates each of its gates on its own; and whatever the cells of a simulator hold, its pools may tick
in any order, and the result is that of evaluating all gates at once. -/
theorem evaluates_gate_by_gate :
    (∀ (k : GateKind) (start : Store) (requests : List (GatePool.Request k)) (s : Store),
      s.SameCells (GatePool.Session.after start requests).store →
        (GatePool.Session.after start requests).EvaluatesEach s) ∧
    ∀ (acts : List Act) (n : Nat) (sim : Simulator), (World.after acts).simulator? n = some sim →
      ∀ s : Store, s.SameCells (World.after acts).store →
        ∀ kinds : List GateKind, kinds.Perm GateKind.all →
          ∀ s', sim.tickPools kinds s = s' ↔ sim.EvaluatedAtOnce s s' := by
  refine ⟨fun k start requests s hs => GatePool.Session.evaluatesEach start requests hs, ?_⟩
  intro acts n sim hsim s hs kinds hkinds s'
  have howns := (World.orderly_after acts).owns (World.simulator?_eq_some_iff.1 hsim)
  exact Simulator.tickPools_eq_iff (howns.of_sameCells hs) hkinds

/-- Two exclusive-or gates, and the pools of a simulator ticking from the last to the first. -/
theorem evaluates_gate_by_gate_backwards :
    let σ : GatePool.Session .xor := .after {} [.lend, .lend, .edit 1 (0 : Fin 3) (.set 1)]
    let acts : List Act := [.newSimulator {}, .work 0 (.lendGate .xor), .work 0 (.lendGate .not)]
    σ.EvaluatesEach σ.store ∧ ∃ sim, (World.after acts).simulator? 0 = some sim ∧
      sim.tickPools [.xor, .or, .not, .and] (World.after acts).store =
        sim.tickGates (World.after acts).store := by
  intro σ acts
  obtain ⟨heach, hpools⟩ := evaluates_gate_by_gate
  obtain ⟨sim, hsim⟩ : ∃ sim, (World.after acts).simulator? 0 = some sim := ⟨_, rfl⟩
  refine ⟨heach .xor {} _ σ.store (.refl _), sim, hsim, ?_⟩
  have hforwards := (hpools acts 0 sim hsim _ (.refl _) GateKind.all (.refl _) _).1 rfl
  exact (hpools acts 0 sim hsim _ (.refl _) _ (by decide) _).2 hforwards

end PackedLogic
