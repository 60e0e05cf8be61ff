import PackedLogic.Proofs.Lending
import Mathlib.Logic.Function.Basic
set_option autoImplicit false

/-!
# The reference machine

A machine without any packing: every gate is a record of its own with one bit for each terminal,
every bridge and every field of the bus has a word of its own, and a step evaluates the records
one by one. A `Place` is what a field is here, and both machines understand the same `Action`s,
which name fields by the order in which they were lent.
-/

namespace PackedLogic

/-- A gate on its own: one bit for each terminal, inputs first. -/
structure GateRecord where
  kind : GateKind
  terminals : Nat → Bool := fun _ => false

/-- A word of its own, and how many of its bits are in use. -/
structure WordRecord where
  width : Nat
  value : Word := 0

/-- A field of the reference machine: a terminal of a gate, or a span of a word. -/
inductive Place
  | terminal (gate lane : Nat)
  | bits (word : Nat) (span : Span)

/-- The number of bits of a place. -/
def Place.width : Place → Nat
  | terminal .. => 1
  | bits _ span => span.width

namespace GateRecord

/-- Changes one terminal. -/
def edit (e : Edit) (lane : Nat) (g : GateRecord) : GateRecord :=
  { g with terminals := Function.update g.terminals lane (e.bit 0 (g.terminals lane)) }

/-- Recomputes the output. -/
def evaluate (g : GateRecord) : GateRecord :=
  { g with
    terminals := Function.update g.terminals g.kind.inputs
      (g.kind.bit fun lane => g.terminals lane) }

theorem terminals_evaluate_output (g : GateRecord) :
    g.evaluate.terminals g.kind.inputs = g.kind.bit fun lane => g.terminals lane :=
  Function.update_self ..

theorem terminals_evaluate_of_ne (g : GateRecord) {lane : Nat} (h : lane ≠ g.kind.inputs) :
    g.evaluate.terminals lane = g.terminals lane :=
  Function.update_of_ne h ..

end GateRecord

/-- The reference machine: its records, what has been lent, and its sockets in order. -/
structure Reference where
  gates : List GateRecord := []
  words : List WordRecord := []
  places : List Place := []
  sockets : List (Place × Place) := []
  /-- The number of gates lent before the latest step or clearing. -/
  settled : Nat := 0

namespace Reference

/-- Reads a place. -/
def read (r : Reference) : Place → Word
  | .terminal gate lane =>
    (r.gates[gate]?).elim 0 fun g => if g.terminals lane then 1 else 0
  | .bits word span => (r.words[word]?).elim 0 fun w => span.extract w.value

/-- Changes a place. -/
def edit (e : Edit) (r : Reference) : Place → Reference
  | .terminal gate lane => { r with gates := r.gates.modify gate (GateRecord.edit e lane) }
  | .bits word span =>
    { r with words := r.words.modify word fun w => { w with value := e.apply span w.value } }

/-- Copies one place into another. -/
def copy (r : Reference) (wire : Place × Place) : Reference := r.edit (.set (r.read wire.1)) wire.2

/-- Evaluates every gate on its own. -/
def evaluate (r : Reference) : Reference :=
  { r with gates := r.gates.map GateRecord.evaluate, settled := r.gates.length }

/-- Evaluates every gate and then applies every socket once. -/
def tick (r : Reference) : Reference := r.sockets.foldl copy r.evaluate

/-- Sets all bits back to zero. -/
def clear (r : Reference) : Reference :=
  { r with
    gates := r.gates.map fun g => { kind := g.kind }
    words := r.words.map fun w => { width := w.width }
    settled := r.gates.length }

/-- Adds a gate, all of whose terminals are zero. -/
def lendGate (r : Reference) (k : GateKind) : Reference :=
  { r with
    gates := r.gates ++ [{ kind := k }]
    places := r.places ++ (List.range k.arity).map (.terminal r.gates.length) }

/-- Adds a word of zeros and lends spans of it. -/
def lendWord (r : Reference) (width : Nat) (spans : List Span) : Reference :=
  { r with
    words := r.words ++ [{ width }]
    places := r.places ++ spans.map (.bits r.words.length) }

end Reference

/-- What can be done with a machine without a schematic.  Fields are named by their number in the
order of lending. -/
inductive Action
  | lendGate (k : GateKind)
  | lendBus (width : Nat)
  | lendBridge (views : List (List Nat))
  | connect (source target : Nat)
  | edit (field : Nat) (e : Edit)
  | tick
  | clear

/-- Carries out an action on the reference machine.  A number that no field has names nothing. -/
def Reference.act (r : Reference) : Action → Attempt Reference
  | .lendGate k => .done (r.lendGate k)
  | .lendBus width =>
    if fits : width ≤ cellBits then
      .done (r.lendWord width [⟨0, width, by rwa [Nat.zero_add]⟩])
    else .failed r (.widthExceedsCapacity width)
  | .lendBridge views =>
    if ∀ widths ∈ views, total widths ≤ cellBits then
      .done (r.lendWord cellBits (views.flatMap Span.tiles))
    else .failed r (oversizedView views)
  | .connect source target =>
    match r.places[source]?, r.places[target]? with
    | some a, some b =>
      if a.width = b.width then .done { r with sockets := r.sockets ++ [(a, b)] }
      else .failed r (.socketSizeMismatch a.width b.width)
    | _, _ => .done r
  | .edit field e =>
    match r.places[field]? with
    | some p => .done (r.edit e p)
    | none => .done r
  | .tick => .done r.tick
  | .clear => .done r.clear

/-- Carries out actions one after the other; one that is refused changes nothing. -/
def Reference.run (actions : List Action) (r : Reference) : Reference :=
  actions.foldl (fun r a => (r.act a).state) r

/-- A packed machine and the fields lent from it, in order. -/
structure Bench where
  machine : Machine
  fields : List Field := []

namespace Bench

/-- Carries out an action on the packed machine.  A number that no field has names nothing. -/
def act (b : Bench) : Action → Attempt Bench
  | .lendGate k =>
    let (machine, terminals) := b.machine.lendGate k
    .done ⟨machine, b.fields ++ List.ofFn terminals⟩
  | .lendBus width =>
    match b.machine.lendBus? width with
    | .ok (machine, field) => .done ⟨machine, b.fields ++ [field]⟩
    | .error fault => .failed b fault
  | .lendBridge views =>
    match b.machine.lendBridge? views with
    | .ok (machine, fields) => .done ⟨machine, b.fields ++ fields.flatten⟩
    | .error fault => .failed b fault
  | .connect source target =>
    match b.fields[source]?, b.fields[target]? with
    | some f, some g =>
      match b.machine.connect? f g with
      | .ok machine => .done { b with machine }
      | .error fault => .failed b fault
    | _, _ => .done b
  | .edit field e =>
    match b.fields[field]? with
    | some f => (f.edit e b.machine.store).map fun store =>
        { b with machine := { b.machine with store } }
    | none => .done b
  | .tick => b.machine.tick.map fun machine => { b with machine }
  | .clear => .done { b with machine := b.machine.clear }

/-- Carries out actions one after the other. -/
def run (actions : List Action) (b : Bench) : Bench :=
  actions.foldl (fun b a => (b.act a).state) b

end Bench

/-! ## Bits of the reference machine -/

/-- The address of one bit of the reference machine. -/
inductive Spot
  | terminal (gate lane : Nat)
  | bit (word index : Nat)
  deriving DecidableEq

/-- The address of bit `j` of a place. -/
def Place.spot : Place → (j : Nat) → Spot
  | terminal gate lane, _ => .terminal gate lane
  | bits word span, j => .bit word (span.offset + j)

namespace Reference

/-- The value of a bit in use. -/
def bit? (r : Reference) : Spot → Option Bool
  | .terminal gate lane => (r.gates[gate]?).bind fun g =>
    if lane < g.kind.arity then some (g.terminals lane) else none
  | .bit word index => (r.words[word]?).bind fun w =>
    if index < w.width then some (w.value.getLsbD index) else none

/-- The place belongs to a record of the machine. -/
def Knows (r : Reference) : Place → Prop
  | .terminal gate lane => ∃ g, r.gates[gate]? = some g ∧ lane < g.kind.arity
  | .bits word span => ∃ w, r.words[word]? = some w ∧ span.offset + span.width ≤ w.width

theorem bit?_terminal_eq_some_iff {r : Reference} {gate lane : Nat} {a : Bool} :
    r.bit? (.terminal gate lane) = some a ↔
      ∃ g, r.gates[gate]? = some g ∧ lane < g.kind.arity ∧ g.terminals lane = a := by
  rw [bit?, Option.bind_eq_some_iff]
  constructor
  · rintro ⟨g, hg, h⟩
    split at h
    · rename_i hlane
      exact ⟨g, hg, hlane, Option.some.inj h⟩
    · cases h
  · rintro ⟨g, hg, hlane, rfl⟩
    exact ⟨g, hg, if_pos hlane⟩

theorem bit?_bit_eq_some_iff {r : Reference} {word index : Nat} {a : Bool} :
    r.bit? (.bit word index) = some a ↔
      ∃ w, r.words[word]? = some w ∧ index < w.width ∧ w.value.getLsbD index = a := by
  rw [bit?, Option.bind_eq_some_iff]
  constructor
  · rintro ⟨w, hw, h⟩
    split at h
    · rename_i hindex
      exact ⟨w, hw, hindex, Option.some.inj h⟩
    · cases h
  · rintro ⟨w, hw, hindex, rfl⟩
    exact ⟨w, hw, if_pos hindex⟩

theorem Knows.exists_bit {r : Reference} {p : Place} (h : r.Knows p) {j : Nat}
    (hj : j < p.width) : ∃ a, r.bit? (p.spot j) = some a := by
  cases p with
  | terminal gate lane =>
    obtain ⟨g, hg, hlane⟩ := h
    exact ⟨_, bit?_terminal_eq_some_iff.2 ⟨g, hg, hlane, rfl⟩⟩
  | bits word span =>
    obtain ⟨w, hw, hle⟩ := h
    have hj' : j < span.width := hj
    exact ⟨_, bit?_bit_eq_some_iff.2 ⟨w, hw, by omega, rfl⟩⟩

/-- What is read from a place, bit by bit. -/
theorem getLsbD_read {r : Reference} {p : Place} (h : r.Knows p) (j : Nat) :
    (r.read p).getLsbD j = if j < p.width then (r.bit? (p.spot j)).getD false else false := by
  cases p with
  | terminal gate lane =>
    obtain ⟨g, hg, hlane⟩ := h
    rw [Place.spot, bit?_terminal_eq_some_iff.2 ⟨g, hg, hlane, rfl⟩, read, hg]
    rcases Nat.eq_zero_or_pos j with rfl | hj
    · cases hbit : g.terminals lane <;> simp [Place.width, hbit]
    · have hzero : j ≠ 0 := Nat.ne_of_gt hj
      cases hbit : g.terminals lane <;> simp [Place.width, hbit, hzero]
  | bits word span =>
    obtain ⟨w, hw, hle⟩ := h
    rw [read, hw, Option.elim_some, Span.getLsbD_extract, Place.width]
    by_cases hj : j < span.width
    · rw [Place.spot, bit?_bit_eq_some_iff.2 ⟨w, hw, by omega, rfl⟩, if_pos hj,
        decide_eq_true hj]
      rfl
    · rw [if_neg hj, decide_eq_false hj]
      rfl

/-- An edit changes the bits of its place one by one. -/
theorem bit?_edit_spot {r : Reference} {p : Place} (h : r.Knows p) (e : Edit) {j : Nat}
    (hj : j < p.width) : (r.edit e p).bit? (p.spot j) = (r.bit? (p.spot j)).map (e.bit j) := by
  cases p with
  | terminal gate lane =>
    obtain ⟨g, hg, hlane⟩ := h
    obtain rfl : j = 0 := by
      have hlt : j < 1 := hj
      omega
    rw [Place.spot, bit?_terminal_eq_some_iff.2 ⟨g, hg, hlane, rfl⟩]
    refine bit?_terminal_eq_some_iff.2 ⟨g.edit e lane, ?_, hlane, Function.update_self ..⟩
    simp [edit, List.getElem?_modify_eq, hg]
  | bits word span =>
    obtain ⟨w, hw, hle⟩ := h
    have hj' : j < span.width := hj
    rw [Place.spot, bit?_bit_eq_some_iff.2 ⟨w, hw, by omega, rfl⟩]
    refine bit?_bit_eq_some_iff.2
      ⟨{ w with value := e.apply span w.value }, ?_, show _ < w.width by omega, ?_⟩
    · simp [edit, List.getElem?_modify_eq, hw]
    · have hmem : span.offset + j ∈ span := ⟨by omega, by omega⟩
      rw [Edit.getLsbD_apply, if_pos hmem, Nat.add_sub_cancel_left]

/-- An edit leaves all bits outside its place alone. -/
theorem bit?_edit_of_ne {r : Reference} {p : Place} (e : Edit) {x : Spot}
    (h : ∀ j < p.width, x ≠ p.spot j) : (r.edit e p).bit? x = r.bit? x := by
  cases p with
  | terminal gate lane =>
    cases x with
    | terminal gate' lane' =>
      have hne : ¬ (gate' = gate ∧ lane' = lane) := by
        rintro ⟨rfl, rfl⟩
        exact h 0 Nat.one_pos rfl
      by_cases heq : gate' = gate
      · subst heq
        have hlane : lane' ≠ lane := fun hl => hne ⟨rfl, hl⟩
        rw [edit, bit?, bit?, List.getElem?_modify_eq]
        cases r.gates[gate']? with
        | none => rfl
        | some g => simp [GateRecord.edit, Function.update_of_ne hlane]
      · rw [edit, bit?, bit?, List.getElem?_modify_ne _ _ (Ne.symm heq)]
    | bit word' index' => rfl
  | bits word span =>
    cases x with
    | terminal gate' lane' => rfl
    | bit word' index' =>
      by_cases heq : word' = word
      · subst heq
        have hmem : index' ∉ span := by
          rintro ⟨hlo, hhi⟩
          refine h (index' - span.offset) ?_ ?_
          · show index' - span.offset < span.width
            omega
          · rw [Place.spot, Nat.add_sub_cancel' hlo]
        rw [edit, bit?, bit?, List.getElem?_modify_eq]
        cases r.words[word']? with
        | none => rfl
        | some w => simp [Edit.getLsbD_apply, hmem]
      · rw [edit, bit?, bit?, List.getElem?_modify_ne _ _ (Ne.symm heq)]

/-! ## Records up to their values -/

/-- Both machines have the same records, places and sockets, up to the values in the records. -/
structure SameShape (r r' : Reference) : Prop where
  gates : r'.gates.map GateRecord.kind = r.gates.map GateRecord.kind
  words : r'.words.map WordRecord.width = r.words.map WordRecord.width
  places : r'.places = r.places
  sockets : r'.sockets = r.sockets

namespace SameShape

variable {r r' r'' : Reference}

theorem symm (h : r.SameShape r') : r'.SameShape r :=
  ⟨h.gates.symm, h.words.symm, h.places.symm, h.sockets.symm⟩

theorem trans (h : r.SameShape r') (h' : r'.SameShape r'') : r.SameShape r'' :=
  ⟨h'.gates.trans h.gates, h'.words.trans h.words, h'.places.trans h.places,
    h'.sockets.trans h.sockets⟩

theorem length_gates (h : r.SameShape r') : r'.gates.length = r.gates.length := by
  rw [← List.length_map GateRecord.kind, h.gates, List.length_map]

theorem exists_gate (h : r.SameShape r') {n : Nat} {g : GateRecord} (hg : r.gates[n]? = some g) :
    ∃ g', r'.gates[n]? = some g' ∧ g'.kind = g.kind := by
  have hkind : (r'.gates[n]?).map GateRecord.kind = some g.kind := by
    rw [← List.getElem?_map, h.gates, List.getElem?_map, hg, Option.map_some]
  exact Option.map_eq_some_iff.1 hkind

theorem exists_word (h : r.SameShape r') {n : Nat} {w : WordRecord} (hw : r.words[n]? = some w) :
    ∃ w', r'.words[n]? = some w' ∧ w'.width = w.width := by
  have hwidth : (r'.words[n]?).map WordRecord.width = some w.width := by
    rw [← List.getElem?_map, h.words, List.getElem?_map, hw, Option.map_some]
  exact Option.map_eq_some_iff.1 hwidth

/-- Both machines have the same bits in use. -/
theorem exists_bit (h : r.SameShape r') {x : Spot} {a : Bool} (hx : r.bit? x = some a) :
    ∃ a', r'.bit? x = some a' := by
  cases x with
  | terminal gate lane =>
    obtain ⟨g, hg, hlane, -⟩ := bit?_terminal_eq_some_iff.1 hx
    obtain ⟨g', hg', hkind⟩ := h.exists_gate hg
    exact ⟨_, bit?_terminal_eq_some_iff.2 ⟨g', hg', hkind ▸ hlane, rfl⟩⟩
  | bit word index =>
    obtain ⟨w, hw, hindex, -⟩ := bit?_bit_eq_some_iff.1 hx
    obtain ⟨w', hw', hwidth⟩ := h.exists_word hw
    exact ⟨_, bit?_bit_eq_some_iff.2 ⟨w', hw', hwidth ▸ hindex, rfl⟩⟩

theorem knows (h : r.SameShape r') {p : Place} (hp : r.Knows p) : r'.Knows p := by
  cases p with
  | terminal gate lane =>
    obtain ⟨g, hg, hlane⟩ := hp
    obtain ⟨g', hg', hkind⟩ := h.exists_gate hg
    exact ⟨g', hg', hkind ▸ hlane⟩
  | bits word span =>
    obtain ⟨w, hw, hle⟩ := hp
    obtain ⟨w', hw', hwidth⟩ := h.exists_word hw
    exact ⟨w', hw', hwidth ▸ hle⟩

end SameShape

theorem map_modify_of_eq {α β : Type} {f : α → β} {g : α → α} (h : ∀ a, f (g a) = f a)
    (l : List α) (n : Nat) : (l.modify n g).map f = l.map f := by
  apply List.ext_getElem?
  intro i
  simp only [List.getElem?_map, List.getElem?_modify]
  cases l[i]? with
  | none => split <;> rfl
  | some a =>
    split
    · exact congrArg some (h a)
    · rfl

theorem sameShape_edit (r : Reference) (e : Edit) (p : Place) : r.SameShape (r.edit e p) := by
  cases p with
  | terminal gate lane =>
    have hkind : ∀ g : GateRecord, (g.edit e lane).kind = g.kind := fun _ => rfl
    exact ⟨map_modify_of_eq hkind r.gates gate, rfl, rfl, rfl⟩
  | bits word span =>
    have hwidth : ∀ w : WordRecord,
        WordRecord.width { w with value := e.apply span w.value } = w.width := fun _ => rfl
    exact ⟨rfl, map_modify_of_eq hwidth r.words word, rfl, rfl⟩

theorem settled_edit (r : Reference) (e : Edit) (p : Place) :
    (r.edit e p).settled = r.settled := by
  cases p <;> rfl

theorem sameShape_evaluate (r : Reference) : r.SameShape r.evaluate := by
  refine ⟨?_, rfl, rfl, rfl⟩
  rw [evaluate, List.map_map]
  exact List.map_congr_left fun _ _ => rfl

theorem exists_of_evaluate {r : Reference} {n : Nat} {g' : GateRecord}
    (h : r.evaluate.gates[n]? = some g') : ∃ g, r.gates[n]? = some g ∧ g' = g.evaluate := by
  rw [evaluate, List.getElem?_map] at h
  obtain ⟨g, hg, heq⟩ := Option.map_eq_some_iff.1 h
  exact ⟨g, hg, heq.symm⟩

theorem sameShape_clear (r : Reference) : r.SameShape r.clear := by
  refine ⟨?_, ?_, rfl, rfl⟩
  · rw [clear, List.map_map]
    exact List.map_congr_left fun _ _ => rfl
  · rw [clear, List.map_map]
    exact List.map_congr_left fun _ _ => rfl

theorem sameShape_tick (r : Reference) : r.SameShape r.tick := by
  have hcopy : ∀ (wires : List (Place × Place)) (r : Reference),
      r.SameShape (wires.foldl copy r) := by
    intro wires
    induction wires with
    | nil => exact fun _ => ⟨rfl, rfl, rfl, rfl⟩
    | cons wire wires ih => exact fun r => (sameShape_edit r _ _).trans (ih (r.copy wire))
  exact (sameShape_evaluate r).trans (hcopy r.sockets r.evaluate)

theorem eq_false_of_clear {r : Reference} {x : Spot} {a : Bool} (h : r.clear.bit? x = some a) :
    a = false := by
  cases x with
  | terminal gate lane =>
    obtain ⟨g', hg', -, rfl⟩ := bit?_terminal_eq_some_iff.1 h
    rw [clear, List.getElem?_map] at hg'
    obtain ⟨g, -, rfl⟩ := Option.map_eq_some_iff.1 hg'
    rfl
  | bit word index =>
    obtain ⟨w', hw', -, rfl⟩ := bit?_bit_eq_some_iff.1 h
    rw [clear, List.getElem?_map] at hw'
    obtain ⟨w, -, rfl⟩ := Option.map_eq_some_iff.1 hw'
    exact BitVec.getLsbD_zero

end Reference

end PackedLogic
