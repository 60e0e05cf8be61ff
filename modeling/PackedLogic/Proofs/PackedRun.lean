import PackedLogic.Proofs.Packing
import Mathlib.Data.List.FinRange
import Mathlib.Data.List.Forall2
set_option autoImplicit false

/-!
# Runs of both machines

Lending adds a record to the reference machine and claims a row of the packed one (`Extends`), and
`Packs` is kept by it.  With the other actions, both machines stay in step for ever
(`Bench.matches_run`), refuse the same actions and read the same from every field.
-/

namespace PackedLogic

/-- The reference machine has one more record, all of zeros, which stands in the given row. -/
structure Extends (L L' : Layout) (r r' : Reference) (row : Row) : Prop where
  settled : r'.settled = r.settled
  length : r.gates.length ≤ r'.gates.length
  sockets : r'.sockets = r.sockets
  keptGates : ∀ {n : Nat} {g : GateRecord}, r.gates[n]? = some g →
    r'.gates[n]? = some g ∧ L'.gate n = L.gate n
  keptWords : ∀ {n : Nat} {w : WordRecord}, r.words[n]? = some w →
    r'.words[n]? = some w ∧ L'.word n = L.word n
  gates : ∀ {n : Nat} {g : GateRecord}, r'.gates[n]? = some g → r.gates[n]? = some g ∨
    (n = r.gates.length ∧ row.part = .gates g.kind ∧ row.width = 1 ∧
      L'.gate n = ⟨row.base, row.index⟩ ∧ ∀ lane, g.terminals lane = false)
  words : ∀ {n : Nat} {w : WordRecord}, r'.words[n]? = some w → r.words[n]? = some w ∨
    (n = r.words.length ∧ row.part = .bus ∧ row.width = w.width ∧
      L'.word n = ⟨row.base, row.index⟩ ∧ w.value = 0)

namespace Extends

variable {L L' : Layout} {r r' : Reference} {row : Row}

theorem kept (h : Extends L L' r r' row) {x : Spot} {a : Bool} (hx : r.bit? x = some a) :
    r'.bit? x = some a ∧ L'.bit x = L.bit x := by
  cases x with
  | terminal gate lane =>
    obtain ⟨g, hg, hlane, ha⟩ := Reference.bit?_terminal_eq_some_iff.1 hx
    obtain ⟨hg', hgate⟩ := h.keptGates hg
    refine ⟨Reference.bit?_terminal_eq_some_iff.2 ⟨g, hg', hlane, ha⟩, ?_⟩
    rw [Layout.bit, hgate, Layout.bit]
  | bit word index =>
    obtain ⟨w, hw, hindex, ha⟩ := Reference.bit?_bit_eq_some_iff.1 hx
    obtain ⟨hw', hword⟩ := h.keptWords hw
    refine ⟨Reference.bit?_bit_eq_some_iff.2 ⟨w, hw', hindex, ha⟩, ?_⟩
    rw [Layout.bit, hword, Layout.bit]

/-- A terminal that is new belongs to the gate that was added. -/
theorem gate_of_new (h : Extends L L' r r' row) {gate lane : Nat} {a : Bool}
    (hx : r'.bit? (.terminal gate lane) = some a) (hold : r.bit? (.terminal gate lane) = none) :
    gate = r.gates.length ∧ a = false ∧ L'.gate gate = ⟨row.base, row.index⟩ ∧
      row.width = 1 ∧ ∃ g, r'.gates[gate]? = some g ∧ lane < g.kind.arity ∧
        row.part = .gates g.kind := by
  obtain ⟨g, hg, hlane, rfl⟩ := Reference.bit?_terminal_eq_some_iff.1 hx
  rcases h.gates hg with hg | ⟨hn, hpart, hwidth, hgate, hzero⟩
  · rw [Reference.bit?_terminal_eq_some_iff.2 ⟨g, hg, hlane, rfl⟩] at hold
    cases hold
  · exact ⟨hn, hzero lane, hgate, hwidth, g, hg, hlane, hpart⟩

/-- A bit of a word that is new belongs to the word that was added. -/
theorem word_of_new (h : Extends L L' r r' row) {word index : Nat} {a : Bool}
    (hx : r'.bit? (.bit word index) = some a) (hold : r.bit? (.bit word index) = none) :
    word = r.words.length ∧ a = false ∧ L'.word word = ⟨row.base, row.index⟩ ∧
      index < row.width ∧ row.part = .bus := by
  obtain ⟨w, hw, hindex, rfl⟩ := Reference.bit?_bit_eq_some_iff.1 hx
  rcases h.words hw with hw | ⟨hn, hpart, hwidth, hword, hzero⟩
  · rw [Reference.bit?_bit_eq_some_iff.2 ⟨w, hw, hindex, rfl⟩] at hold
    cases hold
  · exact ⟨hn, by rw [hzero]; exact BitVec.getLsbD_zero, hword, hwidth ▸ hindex, hpart⟩

/-- What is new lies in the row, and is zero. -/
theorem contains_of_new (h : Extends L L' r r' row) {x : Spot} {a : Bool}
    (hx : r'.bit? x = some a) (hold : r.bit? x = none) :
    row.Contains (L'.bit x) ∧ a = false := by
  cases x with
  | terminal gate lane =>
    obtain ⟨-, hzero, hgate, hwidth, g, -, hlane, hpart⟩ := h.gate_of_new hx hold
    refine ⟨⟨lane, by rw [hpart]; exact hlane, ?_, ?_, ?_⟩, hzero⟩
    · rw [Layout.bit, hgate]
    · rw [Layout.bit, hgate]
    · rw [Layout.bit, hgate, hwidth]
      exact Nat.lt_succ_self _
  | bit word index =>
    obtain ⟨-, hzero, hword, hindex, hpart⟩ := h.word_of_new hx hold
    refine ⟨⟨0, by rw [hpart]; exact Nat.one_pos, ?_, ?_, ?_⟩, hzero⟩
    · rw [Layout.bit, hword]
      rfl
    · rw [Layout.bit, hword]
      exact Nat.le_add_right _ _
    · rw [Layout.bit, hword]
      exact Nat.add_lt_add_left hindex _

/-- Bits of the new record stand apart. -/
theorem inj_new (h : Extends L L' r r' row) {x y : Spot} {a a' : Bool} (hx : r'.bit? x = some a)
    (hy : r'.bit? y = some a') (hxold : r.bit? x = none) (hyold : r.bit? y = none)
    (heq : L'.bit x = L'.bit y) : x = y := by
  cases x with
  | terminal gate lane =>
    obtain ⟨rfl, -, -, -, g, -, -, hpart⟩ := h.gate_of_new hx hxold
    cases y with
    | terminal gate' lane' =>
      obtain ⟨rfl, -⟩ := h.gate_of_new hy hyold
      have hcell := congrArg Bit.cell heq
      obtain rfl : lane = lane' := Nat.add_left_cancel hcell
      rfl
    | bit word' index' =>
      obtain ⟨-, -, -, -, hbus⟩ := h.word_of_new hy hyold
      rw [hbus] at hpart
      cases hpart
  | bit word index =>
    obtain ⟨rfl, -, -, -, hpart⟩ := h.word_of_new hx hxold
    cases y with
    | terminal gate' lane' =>
      obtain ⟨-, -, -, -, g, -, -, hgates⟩ := h.gate_of_new hy hyold
      rw [hpart] at hgates
      cases hgates
    | bit word' index' =>
      obtain ⟨rfl, -⟩ := h.word_of_new hy hyold
      have hindex := congrArg Bit.index heq
      obtain rfl : index = index' := Nat.add_left_cancel hindex
      rfl

theorem shows (h : Extends L L' r r' row) {p : Place} {f : Field} (hf : L.Shows r p f) :
    L'.Shows r' p f := by
  cases p with
  | terminal gate lane =>
    obtain ⟨g, hg, hlane⟩ := hf.knows
    obtain ⟨hg', hgate⟩ := h.keptGates hg
    have hstart : L'.start (.terminal gate lane) = L.start (.terminal gate lane) := by
      simp only [Layout.start, Layout.bit, hgate]
    exact ⟨⟨g, hg', hlane⟩, hstart ▸ hf.ref, hstart ▸ hf.offset, hf.width⟩
  | bits word span =>
    obtain ⟨w, hw, hle⟩ := hf.knows
    obtain ⟨hw', hword⟩ := h.keptWords hw
    have hstart : L'.start (.bits word span) = L.start (.bits word span) := by
      simp only [Layout.start, Layout.bit, hword]
    exact ⟨⟨w, hw', hle⟩, hstart ▸ hf.ref, hstart ▸ hf.offset, hf.width⟩

theorem stale (h : Extends L L' r r' row) {x : Spot} (hx : r.Stale x) : r'.Stale x := by
  cases x with
  | terminal gate lane =>
    obtain ⟨hle, hlane, g, hg, hnot⟩ := hx
    exact ⟨h.settled ▸ hle, hlane, g, (h.keptGates hg).1, hnot⟩
  | bit word index => exact hx

end Extends

namespace Packs

variable {L L' : Layout} {r r' : Reference} {m m' : Machine} {row : Row}

/-- After lending, no two bits in use stand at the same place: old ones were lent before, and
those of the row were not. -/
theorem inj_lend (h : Packs L r m.sim m.store) (hlends : m.Lends m' row)
    (hext : Extends L L' r r' row) {x y : Spot} {a a' : Bool} (hx : r'.bit? x = some a)
    (hy : r'.bit? y = some a') (heq : L'.bit x = L'.bit y) : x = y := by
  have hapart : ∀ {x y : Spot} {a a' : Bool}, r.bit? x = some a → r'.bit? y = some a' →
      r.bit? y = none → L'.bit x ≠ L'.bit y := by
    intro x y a a' hx hy hyold heq
    refine hlends.not_lent h.owns (hext.contains_of_new hy hyold).1 ?_
    rw [← heq, (hext.kept hx).2]
    exact h.lent hx
  cases hxold : r.bit? x with
  | some c =>
    cases hyold : r.bit? y with
    | some c' =>
      rw [(hext.kept hxold).2, (hext.kept hyold).2] at heq
      exact h.inj hxold hyold heq
    | none => exact absurd heq (hapart hxold hy hyold)
  | none =>
    cases hyold : r.bit? y with
    | some c' => exact absurd heq.symm (hapart hyold hx hxold)
    | none => exact hext.inj_new hx hy hxold hyold heq

theorem inverterOutput_lend (hlends : m.Lends m' row) {b : Bit} (hb : m.sim.InverterOutput b) :
    m'.sim.InverterOutput b := by
  obtain ⟨block, hblock, hcell⟩ := hb
  obtain ⟨block', hblock', hbase, -⟩ := hlends.grows _ block hblock
  exact ⟨block', hblock', by rw [hbase, hcell]⟩

/-- A new bit that is set already is the output of an inverter. -/
theorem stale_lend (h : Packs L r m.sim m.store) (hlends : m.Lends m' row)
    (hext : Extends L L' r r' row) {x : Spot} {a : Bool} (hx : r'.bit? x = some a)
    (hold : r.bit? x = none) (hset : m'.store.bit (L'.bit x) = true) : r'.Stale x := by
  have howns := hlends.owns h.owns
  obtain ⟨claimed, hclaimed, hbase, -⟩ := hlends.exists_block
  have hresidue :=
    hlends.residue_of_contains h.owns (hext.contains_of_new hx hold).1 hset
  obtain ⟨block, hblock, hcell⟩ := inverterOutput_lend hlends (h.residue hresidue)
  cases x with
  | terminal gate lane =>
    obtain ⟨rfl, -, hgate, -, g, hg, hlane, hpart⟩ := hext.gate_of_new hx hold
    rw [hpart] at hclaimed
    have hcells : claimed.base + lane = block.base + 1 := by
      rw [← hcell, hbase, Layout.bit, hgate]
    obtain ⟨hkind, -, rfl⟩ := howns.unique hclaimed hlane hblock (by decide : 1 < 2) hcells
    exact ⟨hext.settled ▸ h.settled, rfl, g, hg, Part.gates.inj hkind⟩
  | bit word index =>
    obtain ⟨rfl, -, hword, -, hpart⟩ := hext.word_of_new hx hold
    rw [hpart] at hclaimed
    have hcells : claimed.base + 0 = block.base + 1 := by
      rw [← hcell, hbase, Layout.bit, hword]
      rfl
    obtain ⟨hkind, -⟩ := howns.unique hclaimed Nat.one_pos hblock (by decide : 1 < 2) hcells
    cases hkind

/-- Lending keeps the machines in step. -/
theorem lend (h : Packs L r m.sim m.store) (hlends : m.Lends m' row)
    (hext : Extends L L' r r' row) : Packs L' r' m'.sim m'.store := by
  obtain ⟨claimed, hclaimed, hbase, hcursor⟩ := hlends.exists_block
  refine ⟨hlends.owns h.owns, hext.settled ▸ Nat.le_trans h.settled hext.length, ?_, ?_,
    h.inj_lend hlends hext, ?_, ?_, ?_⟩
  · intro n g hg
    rcases hext.gates hg with hold | ⟨-, hpart, hwidth, hgate, -⟩
    · obtain ⟨block, hblock, hb, hc⟩ := h.gates hold
      obtain ⟨block', hblock', hb', hc'⟩ := hlends.grows _ block hblock
      rw [(hext.keptGates hold).2]
      exact ⟨block', hblock', hb'.trans hb, Nat.lt_of_lt_of_le hc hc'⟩
    · refine ⟨claimed, hpart ▸ hclaimed, by rw [hgate, hbase], ?_⟩
      rw [hgate, hcursor, hwidth]
      exact Nat.lt_succ_self _
  · intro n w hw
    rcases hext.words hw with hold | ⟨-, hpart, hwidth, hword, -⟩
    · obtain ⟨block, hblock, hb, hc⟩ := h.words hold
      obtain ⟨block', hblock', hb', hc'⟩ := hlends.grows _ block hblock
      rw [(hext.keptWords hold).2]
      exact ⟨block', hblock', hb'.trans hb, Nat.le_trans hc hc'⟩
    · refine ⟨claimed, hpart ▸ hclaimed, by rw [hword, hbase], ?_⟩
      rw [hword, hcursor, hwidth]
  · intro x a hx
    cases hold : r.bit? x with
    | some c =>
      obtain ⟨hx', hbit⟩ := hext.kept hold
      obtain rfl : a = c := Option.some.inj (hx.symm.trans hx')
      rw [hlends.bit_eq, hbit]
      rcases h.agree hold with heq | ⟨hstale, hset, hfalse⟩
      · exact Or.inl heq
      · exact Or.inr ⟨hext.stale hstale, hset, hfalse⟩
    | none =>
      obtain ⟨-, rfl⟩ := hext.contains_of_new hx hold
      cases hset : m'.store.bit (L'.bit x) with
      | false => exact Or.inl rfl
      | true => exact Or.inr ⟨h.stale_lend hlends hext hx hold hset, rfl, rfl⟩
  · intro b hb
    exact inverterOutput_lend hlends (h.residue (hlends.residue_of_residue hb))
  · rw [hext.sockets, hlends.sockets]
    exact h.sockets.imp fun _ _ hshows => ⟨hext.shows hshows.1, hext.shows hshows.2⟩

end Packs

/-! ## The records that lending adds -/

/-- The layout with one more gate. -/
def Layout.withGate (L : Layout) (n : Nat) (b : Bit) : Layout :=
  { L with gate := Function.update L.gate n b }

/-- The layout with one more word. -/
def Layout.withWord (L : Layout) (n : Nat) (b : Bit) : Layout :=
  { L with word := Function.update L.word n b }

theorem extends_lendGate (L : Layout) (r : Reference) {row : Row} {k : GateKind}
    (hpart : row.part = .gates k) (hwidth : row.width = 1) :
    Extends L (L.withGate r.gates.length ⟨row.base, row.index⟩) r (r.lendGate k) row := by
  refine ⟨rfl, ?_, rfl, ?_, fun hw => ⟨hw, rfl⟩, ?_, fun hw => Or.inl hw⟩
  · rw [Reference.lendGate, List.length_append]
    exact Nat.le_add_right _ _
  · intro n g hg
    obtain ⟨hlt, -⟩ := List.getElem?_eq_some_iff.1 hg
    exact ⟨getElem?_concat_eq_some_iff.2 (Or.inl hg), Function.update_of_ne (Nat.ne_of_lt hlt) ..⟩
  · intro n g hg
    rcases getElem?_concat_eq_some_iff.1 hg with hold | ⟨rfl, rfl⟩
    · exact Or.inl hold
    · exact Or.inr ⟨rfl, hpart, hwidth, Function.update_self .., fun _ => rfl⟩

theorem extends_lendWord (L : Layout) (r : Reference) {row : Row} (spans : List Span)
    (hpart : row.part = .bus) :
    Extends L (L.withWord r.words.length ⟨row.base, row.index⟩) r (r.lendWord row.width spans)
      row := by
  refine ⟨rfl, Nat.le_refl _, rfl, fun hg => ⟨hg, rfl⟩, ?_, fun hg => Or.inl hg, ?_⟩
  · intro n w hw
    obtain ⟨hlt, -⟩ := List.getElem?_eq_some_iff.1 hw
    exact ⟨getElem?_concat_eq_some_iff.2 (Or.inl hw), Function.update_of_ne (Nat.ne_of_lt hlt) ..⟩
  · intro n w hw
    rcases getElem?_concat_eq_some_iff.1 hw with hold | ⟨rfl, rfl⟩
    · exact Or.inl hold
    · exact Or.inr ⟨rfl, hpart, rfl, Function.update_self .., rfl⟩

/-- The terminals of a gate that was lent address the terminals of its record. -/
theorem shows_lendGate (L : Layout) (r : Reference) {row : Row} {k : GateKind}
    {terminals : Fin k.arity → Field}
    (hcut : ∀ lane : Fin k.arity, row.Cut lane 0 1 (terminals lane)) :
    List.Forall₂ ((L.withGate r.gates.length ⟨row.base, row.index⟩).Shows (r.lendGate k))
      ((List.range k.arity).map (.terminal r.gates.length)) (List.ofFn terminals) := by
  rw [← List.map_coe_finRange_eq_range, List.map_map, List.ofFn_eq_map,
    List.forall₂_map_left_iff, List.forall₂_map_right_iff, List.forall₂_same]
  intro lane _
  have hnew : (r.lendGate k).gates[r.gates.length]? = some { kind := k } :=
    getElem?_concat_eq_some_iff.2 (Or.inr ⟨rfl, rfl⟩)
  refine ⟨⟨_, hnew, lane.isLt⟩, ?_, ?_, ?_⟩
  · rw [(hcut lane).ref]
    simp [Layout.start, Layout.bit, Layout.withGate]
  · rw [(hcut lane).offset_eq]
    simp [Layout.start, Layout.bit, Layout.withGate]
  · exact (hcut lane).width_eq

/-- A field of a word that was lent addresses a span of its record. -/
theorem shows_lendWord (L : Layout) (r : Reference) {row : Row} (spans : List Span) {span : Span}
    {f : Field} (hcut : row.Cut 0 span.offset span.width f) :
    (L.withWord r.words.length ⟨row.base, row.index⟩).Shows (r.lendWord row.width spans)
      (.bits r.words.length span) f := by
  have hnew : (r.lendWord row.width spans).words[r.words.length]? = some { width := row.width } :=
    getElem?_concat_eq_some_iff.2 (Or.inr ⟨rfl, rfl⟩)
  refine ⟨⟨_, hnew, hcut.fits⟩, ?_, ?_, hcut.width_eq⟩
  · rw [hcut.ref]
    simp [Layout.start, Layout.bit, Layout.withWord]
  · rw [hcut.offset_eq]
    simp [Layout.start, Layout.bit, Layout.withWord]

/-! ## Actions -/

namespace Bench

/-- The packed machine and the reference machine are in step: the fields lent from one address the
places lent from the other. -/
structure Matches (L : Layout) (b : Bench) (r : Reference) : Prop where
  packs : Packs L r b.machine.sim b.machine.store
  shows : List.Forall₂ (L.Shows r) r.places b.fields

namespace Matches

variable {L : Layout} {b : Bench} {r : Reference}

theorem lend {L' : Layout} {r' : Reference} {m' : Machine} {row : Row} (h : Matches L b r)
    (hlends : b.machine.Lends m' row) (hext : Extends L L' r r' row) {places : List Place}
    {fields : List Field} (hplaces : r'.places = r.places ++ places)
    (hshows : List.Forall₂ (L'.Shows r') places fields) :
    Matches L' ⟨m', b.fields ++ fields⟩ r' := by
  refine ⟨h.packs.lend hlends hext, ?_⟩
  rw [hplaces]
  exact List.rel_append (h.shows.imp fun _ _ => hext.shows) hshows

/-- A number names a field of both machines or of none. -/
theorem lookup (h : Matches L b r) (n : Nat) :
    (∃ f p, b.fields[n]? = some f ∧ r.places[n]? = some p ∧ L.Shows r p f) ∨
      (b.fields[n]? = none ∧ r.places[n]? = none) := by
  have hlength := h.shows.length_eq
  rcases Nat.lt_or_ge n r.places.length with hlt | hge
  · have hlt' : n < b.fields.length := hlength ▸ hlt
    exact Or.inl ⟨_, _, List.getElem?_eq_getElem hlt', List.getElem?_eq_getElem hlt,
      h.shows.get hlt hlt'⟩
  · exact Or.inr ⟨List.getElem?_eq_none (hlength ▸ hge), List.getElem?_eq_none hge⟩

theorem of_sameShape (h : Matches L b r) {r' : Reference} {m' : Machine}
    (hshape : r.SameShape r') (hpacks : Packs L r' m'.sim m'.store) :
    Matches L { b with machine := m' } r' := by
  refine ⟨hpacks, ?_⟩
  rw [hshape.places]
  exact h.shows.imp fun _ _ hf => hf.of_sameShape hshape

end Matches

/-- Both machines refuse an action or both carry it out, and they are in step afterwards. -/
def Agree (a : Attempt Bench) (a' : Attempt Reference) : Prop :=
  a.fault? = a'.fault? ∧ ∃ L, Matches L a.state a'.state

variable {L : Layout} {b : Bench} {r : Reference}

theorem agree_lendGate (h : Matches L b r) (k : GateKind) :
    Agree (b.act (.lendGate k)) (r.act (.lendGate k)) := by
  obtain ⟨row, hpart, hwidth, hlends, hcut⟩ := b.machine.lends_lendGate k
  exact ⟨rfl, _, h.lend hlends (extends_lendGate L r hpart hwidth) rfl
    (shows_lendGate L r hcut)⟩

theorem agree_lendBus (h : Matches L b r) (width : Nat) :
    Agree (b.act (.lendBus width)) (r.act (.lendBus width)) := by
  by_cases fits : width ≤ cellBits
  · obtain ⟨m', f, hok, row, hpart, rfl, hlends, hcut⟩ := b.machine.lends_lendBus? fits
    rw [act, hok, Reference.act, dif_pos fits]
    exact ⟨rfl, _, h.lend hlends (extends_lendWord L r _ hpart) rfl
      (.cons (shows_lendWord L r _ hcut) .nil)⟩
  · rw [act, b.machine.lendBus?_of_wide fits, Reference.act, dif_neg fits]
    exact ⟨rfl, L, h⟩

theorem agree_lendBridge (h : Matches L b r) (views : List (List Nat)) :
    Agree (b.act (.lendBridge views)) (r.act (.lendBridge views)) := by
  by_cases fits : ∀ widths ∈ views, total widths ≤ cellBits
  · obtain ⟨m', fields, hok, row, hpart, hwidth, hlends, hcut, rfl⟩ :=
      b.machine.lends_lendBridge? fits
    rw [act, hok, Reference.act, if_pos fits]
    have hext := extends_lendWord L r (views.flatMap Span.tiles) hpart
    rw [hwidth] at hext
    refine ⟨rfl, _, h.lend hlends hext rfl ?_⟩
    rw [← List.flatMap_def, ← List.map_flatMap, List.forall₂_map_left_iff,
      List.forall₂_map_right_iff, List.forall₂_same]
    intro span _
    have hshows := shows_lendWord L r (views.flatMap Span.tiles) (hcut span)
    rw [hwidth] at hshows
    exact hshows
  · rw [act, b.machine.lendBridge?_of_wide fits, Reference.act, if_neg fits]
    exact ⟨rfl, L, h⟩

theorem agree_connect (h : Matches L b r) (source target : Nat) :
    Agree (b.act (.connect source target)) (r.act (.connect source target)) := by
  rw [act, Reference.act]
  rcases h.lookup source with ⟨f, p, hf, hp, hsource⟩ | ⟨hf, hp⟩
  · rcases h.lookup target with ⟨g, q, hg, hq, htarget⟩ | ⟨hg, hq⟩
    · rw [hf, hp, hg, hq]
      by_cases heq : f.width = g.width
      · have heq' : p.width = q.width := by rw [← hsource.width, ← htarget.width, heq]
        dsimp only
        rw [b.machine.connect?_of_eq heq, if_pos heq']
        refine ⟨rfl, L, ?_, h.shows.imp fun _ _ hf => hf.withSockets⟩
        exact h.packs.withSockets (b.machine.sim.blocks_withSockets _)
          (List.rel_append h.packs.sockets (.cons ⟨hsource, htarget⟩ .nil))
      · have heq' : p.width ≠ q.width := by rwa [← hsource.width, ← htarget.width]
        dsimp only
        rw [b.machine.connect?_of_ne heq, if_neg heq', hsource.width, htarget.width]
        exact ⟨rfl, L, h⟩
    · rw [hf, hp, hg, hq]
      exact ⟨rfl, L, h⟩
  · rw [hf, hp]
    exact ⟨rfl, L, h⟩

theorem agree_edit (h : Matches L b r) (field : Nat) (e : Edit) :
    Agree (b.act (.edit field e)) (r.act (.edit field e)) := by
  rw [act, Reference.act]
  rcases h.lookup field with ⟨f, p, hf, hp, hshows⟩ | ⟨hf, hp⟩
  · obtain ⟨s', hedit, hs'⟩ :=
      Field.edit_of_isLive e (h.packs.owns.isLive (h.packs.holds hshows))
    rw [hf, hp]
    dsimp only
    rw [hedit]
    exact ⟨rfl, L, h.of_sameShape (r.sameShape_edit e p) (h.packs.edit hshows hs')⟩
  · rw [hf, hp]
    exact ⟨rfl, L, h⟩

theorem agree_tick (h : Matches L b r) : Agree (b.act .tick) (r.act .tick) := by
  obtain ⟨m', htick, hpacks⟩ := h.packs.tick
  rw [act, htick]
  exact ⟨rfl, L, h.of_sameShape r.sameShape_tick hpacks⟩

theorem agree_clear (h : Matches L b r) : Agree (b.act .clear) (r.act .clear) :=
  ⟨rfl, L, h.of_sameShape r.sameShape_clear h.packs.clear⟩

/-- Every action keeps the machines in step. -/
theorem agree_act (h : Matches L b r) (a : Action) : Agree (b.act a) (r.act a) := by
  cases a with
  | lendGate k => exact agree_lendGate h k
  | lendBus width => exact agree_lendBus h width
  | lendBridge views => exact agree_lendBridge h views
  | connect source target => exact agree_connect h source target
  | edit field e => exact agree_edit h field e
  | tick => exact agree_tick h
  | clear => exact agree_clear h

theorem matches_run (actions : List Action) (h : Matches L b r) :
    ∃ L', Matches L' (b.run actions) (r.run actions) := by
  induction actions generalizing L b r with
  | nil => exact ⟨L, h⟩
  | cons a actions ih =>
    obtain ⟨-, L', h'⟩ := agree_act h a
    exact ih h'

/-- A bench with a new simulator, on a store where others may have cells. -/
def new (config : Config) (s : Store) : Bench := ⟨{ sim := { config }, store := s }, []⟩

theorem matches_new (config : Config) (s : Store) :
    Matches ⟨fun _ => ⟨0, 0⟩, fun _ => ⟨0, 0⟩⟩ (new config s) {} := by
  have hcells : (new config s).machine.sim.cells = [] := rfl
  refine ⟨⟨⟨?_, ?_⟩, Nat.le_refl 0, nofun, nofun, ?_, ?_, ?_, .nil⟩, .nil⟩
  · rw [hcells]
    exact nofun
  · rw [hcells]
    exact List.nodup_nil
  · intro x y a a' hx
    cases x <;> cases hx
  · intro x a hx
    cases x <;> cases hx
  · intro b hb
    have hcell := hb.cell
    rw [hcells] at hcell
    cases hcell

/-- A new packed machine and a new reference machine that carry out the same actions refuse the
same ones, have lent equally many fields, and read the same from each of them.  Only the output of
an inverter lent after the latest step or clearing may read one instead of zero. -/
theorem reads_as_reference (config : Config) (s : Store) (actions : List Action) :
    let b := (new config s).run actions
    let r := Reference.run actions {}
    (∀ a, (b.act a).fault? = (r.act a).fault?) ∧ b.fields.length = r.places.length ∧
      ∀ n (hn : n < b.fields.length) (hn' : n < r.places.length),
        b.fields[n].get b.machine.store = .ok (r.read r.places[n]) ∨
          (∃ gate, r.places[n] = .terminal gate 1 ∧ r.Stale (.terminal gate 1)) ∧
            b.fields[n].get b.machine.store = .ok 1 ∧ r.read r.places[n] = 0 := by
  intro b r
  obtain ⟨L, h⟩ := matches_run actions (matches_new config s)
  refine ⟨fun a => (agree_act h a).1, h.shows.length_eq.symm, ?_⟩
  intro n hn hn'
  exact h.packs.read (h.shows.get hn' hn)

/-- An inverter that is lent after a step takes a bit that the step has already set. -/
theorem reads_as_reference_lateInverter :
    let actions : List Action := [.lendGate .not, .tick, .lendGate .not]
    let b := (new {} {}).run actions
    let r := Reference.run actions {}
    ∃ (_ : 3 < b.fields.length) (_ : 3 < r.places.length),
      (∃ gate, r.places[3] = .terminal gate 1 ∧ r.Stale (.terminal gate 1)) ∧
        b.fields[3].get b.machine.store = .ok 1 ∧ r.read r.places[3] = 0 := by
  intro actions b r
  have hn : 3 < b.fields.length := by decide
  have hn' : 3 < r.places.length := by decide
  refine ⟨hn, hn', ?_⟩
  rcases (reads_as_reference {} {} actions).2.2 3 hn hn' with hsame | hstale
  · have hone : (b.fields[3]?.map fun f => f.get b.machine.store) = some (.ok 1) := rfl
    have hzero : r.read r.places[3] = 0 := rfl
    rw [List.getElem?_eq_getElem hn, Option.map_some] at hone
    have hdiffer := hsame.symm.trans (Option.some.inj hone)
    have hnever := hzero.symm.trans (Except.ok.inj hdiffer)
    exact absurd hnever (by decide)
  · exact hstale
end Bench

end PackedLogic
