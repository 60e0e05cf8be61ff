import PackedLogic.Proofs.World
set_option autoImplicit false

/-!
# Lifetimes

A cell exists from the moment its owner creates it until the owner is dropped
(`World.Orderly`).  So a reference fails exactly when its owner has been dropped, it fails for good,
and no later cell takes its place (`World.dangling_is_final`).  A simulator that nobody drops, with
sockets that come from schematics only, never fails (`World.never_dangles`).
-/

namespace PackedLogic

theorem Store.word?_releaseAll (s : Store) (ids : List Nat) (c : Nat) :
    (s.releaseAll ids).word? c = if c ∈ ids then none else s.word? c := by
  induction ids generalizing s with
  | nil => simp [releaseAll]
  | cons i ids ih =>
    have hstep : s.releaseAll (i :: ids) = (s.release i).releaseAll ids := rfl
    rw [hstep, ih, word?_release]
    by_cases hi : c = i
    · simp [hi]
    · simp [hi]

@[simp] theorem Store.size_releaseAll (s : Store) (ids : List Nat) :
    (s.releaseAll ids).size = s.size := by
  induction ids generalizing s with
  | nil => rfl
  | cons i ids ih => exact (ih (s.release i)).trans (size_release s i)

/-! ## Order in the world -/

namespace World

variable {w w' : World} {n : Nat} {o : Owner} {r : CellRef}

/-- Every cell ever created has one owner, and exists as long as that owner has not been dropped.  No
other cells are known. -/
structure Orderly (w : World) : Prop where
  cells : w.cells.Perm (List.range w.store.size)
  live : ∀ {n : Nat} {o : Owner}, w.owners[n]? = some o → ∀ c ∈ o.cells,
    (w.store.isLive c = true ↔ n ∉ w.dropped)
  dropped : ∀ n ∈ w.dropped, n < w.owners.length
  known : ∀ {r : CellRef} {c : Nat}, w.Mentions r → r.cell? = some c → c < w.store.size
  built : ∀ p ∈ w.circuits, ∀ r, p.2.Mentions r → p.1 < w.owners.length

theorem Orderly.mem_cells_iff (h : w.Orderly) {c : Nat} : c ∈ w.cells ↔ c < w.store.size := by
  rw [h.cells.mem_iff, List.mem_range]

theorem Orderly.lt_size (h : w.Orderly) (ho : w.owners[n]? = some o) {c : Nat}
    (hc : c ∈ o.cells) : c < w.store.size :=
  h.mem_cells_iff.1 (mem_cells.2 ⟨o, List.mem_of_getElem? ho, hc⟩)

/-- No cell has two owners. -/
theorem Orderly.owner_unique (h : w.Orderly) {n m : Nat} {o p : Owner}
    (ho : w.owners[n]? = some o) (hp : w.owners[m]? = some p) {c : Nat} (hc : c ∈ o.cells)
    (hc' : c ∈ p.cells) : n = m := by
  have hnodup : w.cells.Nodup := h.cells.nodup_iff.2 List.nodup_range
  exact index_eq_of_nodup_flatMap hnodup ho hp hc hc'

/-- The owners of cells own them alone. -/
theorem Orderly.nodup_cells (h : w.Orderly) (ho : w.owners[n]? = some o) : o.cells.Nodup :=
  (List.nodup_flatMap.1 (h.cells.nodup_iff.2 List.nodup_range)).1 o (List.mem_of_getElem? ho)

theorem orderly_empty : ({} : World).Orderly := by
  refine ⟨.refl _, nofun, nofun, ?_, nofun⟩
  intro r c hr
  cases hr with
  | ref h => cases h
  | field f h => cases h
  | circuit p h => cases h
  | socket o h => cases h

theorem Develops.orderly {act : Act} (h : w.Develops act w') (hw : w.Orderly) : w'.Orderly := by
  have hrange : List.range w'.store.size =
      List.range w.store.size ++ List.range' w.store.size (w'.store.size - w.store.size) := by
    rw [List.range_eq_range', List.range_eq_range', ← Nat.add_sub_cancel' h.enlarges.size,
      ← List.range'_append_1, Nat.zero_add, Nat.add_sub_cancel_left]
  have hcells : w'.cells.Perm (List.range w'.store.size) := by
    rw [hrange]
    exact h.enlarges.cells.trans (hw.cells.append_right _)
  have hlength : ∀ n < w.owners.length, n < w'.owners.length := by
    intro n hn
    obtain ⟨o', ho', -⟩ := h.kept (List.getElem?_eq_getElem hn)
    exact (List.getElem?_eq_some_iff.1 ho').1
  refine ⟨hcells, ?_, ?_, ?_, ?_⟩
  · intro n o' ho' c hc
    rcases h.fresh ho' c hc with ⟨o, ho, hold⟩ | ⟨hnew, hn⟩
    · rw [h.enlarges.old c (hw.lt_size ho hold), h.dropped]
      exact hw.live ho c hold
    · have hlt : c < w'.store.size := by
        rw [← List.mem_range, ← hcells.mem_iff]
        exact mem_cells.2 ⟨o', List.mem_of_getElem? ho', hc⟩
      have hn' : n ∉ w.dropped :=
        hn.elim id fun hge hdropped => absurd (hw.dropped n hdropped) (Nat.not_lt.2 hge)
      rw [h.enlarges.new c hnew hlt, h.dropped]
      exact iff_of_true rfl hn'
  · intro n hn
    rw [h.dropped] at hn
    exact hlength n (hw.dropped n hn)
  · intro r c hr hcell
    rcases h.mentions hr hcell with hold | hnew
    · exact Nat.lt_of_lt_of_le (hw.known hold hcell) h.enlarges.size
    · rwa [hcells.mem_iff, List.mem_range] at hnew
  · intro p hp r hr
    rcases h.circuits p hp r hr with ⟨q, hq, hqp, hqr⟩ | ⟨o', ho', -⟩
    · exact hlength _ (hqp ▸ hw.built q hq r hqr)
    · exact (List.getElem?_eq_some_iff.1 ho').1

theorem isLive_release {c : Nat} :
    (w.release n o).store.isLive c = true ↔ c ∉ o.cells ∧ w.store.isLive c = true := by
  have hword : (w.release n o).store.word? c = if c ∈ o.cells then none else w.store.word? c :=
    w.store.word?_releaseAll o.cells c
  rw [Store.isLive, hword, Store.isLive]
  split <;> simp_all

theorem Orderly.release (hw : w.Orderly) (ho : w.owner? n = some o) : (w.release n o).Orderly := by
  obtain ⟨hn, ho⟩ := owner?_eq_some_iff.1 ho
  have hsize : (w.release n o).store.size = w.store.size := w.store.size_releaseAll o.cells
  refine ⟨?_, ?_, ?_, ?_, hw.built⟩
  · rw [hsize]
    exact hw.cells
  · intro m p hp c hc
    rw [isLive_release, hw.live hp c hc, World.release, List.mem_cons, not_or]
    refine and_congr_left fun _ => ?_
    constructor
    · rintro hnot rfl
      obtain rfl : p = o := Option.some.inj (hp.symm.trans ho)
      exact hnot hc
    · intro hne hmem
      exact hne (hw.owner_unique hp ho hc hmem)
  · intro m hm
    rcases List.mem_cons.1 hm with rfl | hm
    · exact (List.getElem?_eq_some_iff.1 ho).1
    · exact hw.dropped m hm
  · intro r c hr hcell
    rw [hsize]
    refine hw.known ?_ hcell
    cases hr with
    | ref h => exact .ref h
    | field f h href => exact .field f h href
    | circuit p h href => exact .circuit p h href
    | socket p h v hv href => exact .socket p h v hv href

theorem Moves.orderly {act : Act} (h : w.Moves act w') (hw : w.Orderly) : w'.Orderly := by
  cases h with
  | drop n o _ ho hw' =>
    subst hw'
    exact hw.release ho
  | develop h => exact h.orderly hw

/-- What every act keeps, a whole run keeps. -/
theorem run_keeps {P : World → Prop} {acts : List Act}
    (h : ∀ act ∈ acts, ∀ w, P w → P (w.step act).state) (hw : P w) : P (w.run acts) := by
  induction acts generalizing w with
  | nil => exact hw
  | cons act acts ih =>
    exact ih (fun a ha => h a (List.mem_cons_of_mem act ha)) (h act List.mem_cons_self w hw)

theorem Orderly.run (hw : w.Orderly) (acts : List Act) : (w.run acts).Orderly :=
  run_keeps (fun act _ w hw => (w.moves_step act).orderly hw) hw

/-- The world after some acts, from nothing. -/
def after (acts : List Act) : World := run acts {}

theorem orderly_after (acts : List Act) : (after acts).Orderly := orderly_empty.run acts

end World

/-! ## References that fail -/

namespace CellRef

/-- Every operation through the reference is refused in the same way, and changes no cell. -/
structure Refused (r : CellRef) (s : Store) : Prop where
  load : r.load s = .error .danglingReference
  update : ∀ f, r.update f s = .failed s .danglingReference
  get : ∀ span : Span, (⟨span, r⟩ : Field).get s = .error .danglingReference
  edit : ∀ (span : Span) (e : Edit), (⟨span, r⟩ : Field).edit e s = .failed s .danglingReference

/-- Every operation through the reference is carried out. -/
structure Granted (r : CellRef) (s : Store) : Prop where
  load : ∃ v, r.load s = .ok v
  update : ∀ f, ∃ s', r.update f s = .done s'
  get : ∀ span : Span, ∃ v, (⟨span, r⟩ : Field).get s = .ok v
  edit : ∀ (span : Span) (e : Edit), ∃ s', (⟨span, r⟩ : Field).edit e s = .done s'

variable {r : CellRef} {s : Store}

theorem refused_of_not_isLive (h : r.isLive s = false) : r.Refused s := by
  have hnone : r.word? s = none := by simpa [isLive] using h
  have hload : r.load s = .error .danglingReference := by simp [load, hnone]
  refine ⟨hload, fun f => update_of_not_isLive f h, ?_, ?_⟩
  · intro span
    simp [Field.get, hload, Except.map]
  · intro span e
    exact Field.edit_of_not_isLive e h

theorem granted_of_isLive (h : r.isLive s = true) : r.Granted s := by
  obtain ⟨v, hv⟩ : ∃ v, r.word? s = some v := Option.isSome_iff_exists.1 h
  have hload : r.load s = .ok v := by simp [load, hv]
  refine ⟨⟨v, hload⟩, ?_, ?_, ?_⟩
  · intro f
    obtain ⟨_ | i⟩ := r
    · cases h
    · exact ⟨_, update_ofCell_of_isLive f h⟩
  · intro span
    exact ⟨span.extract v, by simp [Field.get, hload, Except.map]⟩
  · intro span e
    obtain ⟨s', hedit, -⟩ := Field.edit_of_isLive (f := ⟨span, r⟩) e h
    exact ⟨s', hedit⟩

end CellRef

namespace World

variable {w w' : World} {act : Act} {n : Nat} {o : Owner} {r : CellRef}

/-- The reference is the one that points nowhere, or the owner of its cell has been dropped. -/
def Lost (w : World) (r : CellRef) : Prop :=
  r = {} ∨ ∃ n ∈ w.dropped, ∃ o, w.owners[n]? = some o ∧ o.Holds r

/-- A reference is live exactly if its cell has an owner that has not been dropped. -/
theorem Orderly.isLive_iff (h : w.Orderly) (hr : w.Mentions r) :
    r.isLive w.store = true ↔ ¬ w.Lost r := by
  obtain ⟨_ | c⟩ := r
  · exact iff_of_false (by simp [CellRef.isLive, CellRef.word?]) fun hlost => hlost (.inl rfl)
  · obtain ⟨o, ho, hc⟩ := mem_cells.1 (h.mem_cells_iff.2 (h.known hr rfl))
    obtain ⟨n, hn⟩ := List.getElem?_of_mem ho
    have hlive : (CellRef.ofCell c).isLive w.store = true ↔ n ∉ w.dropped := h.live hn c hc
    refine hlive.trans (not_congr ?_)
    constructor
    · intro hdropped
      exact .inr ⟨n, hdropped, o, hn, c, hc, rfl⟩
    · rintro (hnowhere | ⟨m, hm, p, hp, c', hc', heq⟩)
      · cases hnowhere
      · obtain rfl : c = c' := Option.some.inj (congrArg CellRef.cell? heq)
        rwa [h.owner_unique hn hp hc hc']

/-- Operations on whatever the program has at hand are refused if the owner of the cell has been
dropped, and carried out otherwise. -/
structure Exact (w : World) : Prop where
  refused : ∀ r, w.Held r → w.Lost r → r.Refused w.store
  granted : ∀ r, w.Held r → ¬ w.Lost r → r.Granted w.store

theorem Orderly.exact (h : w.Orderly) : w.Exact := by
  refine ⟨fun r hr hlost => ?_, fun r hr hkept => ?_⟩
  · refine CellRef.refused_of_not_isLive (Bool.eq_false_iff.2 fun hlive => ?_)
    exact (h.isLive_iff (mentions_of_held hr)).1 hlive hlost
  · exact CellRef.granted_of_isLive ((h.isLive_iff (mentions_of_held hr)).2 hkept)

/-- Dropping the owner of this number ends the existence of its own cells, leaves every other word as
it is, and takes nothing from the program. -/
structure DropsOnly (w : World) (n : Nat) (o : Owner) (w' : World) : Prop where
  own : ∀ r, o.Holds r → r.isLive w.store = true ∧ r.isLive w'.store = false
  others : ∀ r, ¬ o.Holds r → r.word? w'.store = r.word? w.store
  keeps : w'.refs = w.refs ∧ w'.fields = w.fields ∧ w'.circuits = w.circuits ∧
    ∀ m, m ≠ n → w'.owner? m = w.owner? m

theorem Orderly.dropsOnly (h : w.Orderly) (ho : w.owner? n = some o) :
    w.DropsOnly n o (w.step (.drop n)).state := by
  have hstep : (w.step (.drop n)).state = w.release n o := by
    simp only [step, ho]
    rfl
  obtain ⟨hn, hmem⟩ := owner?_eq_some_iff.1 ho
  rw [hstep]
  refine ⟨?_, ?_, rfl, rfl, rfl, ?_⟩
  · rintro r ⟨c, hc, rfl⟩
    refine ⟨(h.live hmem c hc).2 hn, Bool.eq_false_iff.2 fun hlive => ?_⟩
    exact (isLive_release.1 hlive).1 hc
  · intro r hr
    obtain ⟨_ | c⟩ := r
    · rfl
    · exact (w.store.word?_releaseAll o.cells c).trans (if_neg fun hc => hr ⟨c, hc, rfl⟩)
  · intro m hm
    simp [owner?, World.release, hm]

/-! ## Nothing comes back -/

/-- Later on there are no fewer cells, and none that had been released. -/
structure Follows (w w' : World) : Prop where
  size : w.store.size ≤ w'.store.size
  dead : ∀ c < w.store.size, w'.store.isLive c = true → w.store.isLive c = true

theorem Follows.refl (w : World) : w.Follows w := ⟨Nat.le_refl _, fun _ _ h => h⟩

theorem Follows.trans {w'' : World} (h : w.Follows w') (h' : w'.Follows w'') : w.Follows w'' :=
  ⟨Nat.le_trans h.size h'.size, fun c hc hlive =>
    h.dead c hc (h'.dead c (Nat.lt_of_lt_of_le hc h.size) hlive)⟩

theorem Moves.follows (h : w.Moves act w') : w.Follows w' := by
  cases h with
  | drop n o _ _ hw' =>
    subst hw'
    exact ⟨Nat.le_of_eq (w.store.size_releaseAll o.cells).symm,
      fun c _ hlive => (isLive_release.1 hlive).2⟩
  | develop h => exact ⟨h.enlarges.size, fun c hc hlive => h.enlarges.old c hc ▸ hlive⟩

theorem follows_run (w : World) (acts : List Act) : w.Follows (w.run acts) :=
  run_keeps (fun act _ _ h => h.trans (moves_step _ act).follows) (.refl w)

theorem Follows.not_isLive (h : w.Follows w') (hw : w.Orderly) (hr : w.Mentions r)
    (hdead : r.isLive w.store = false) : r.isLive w'.store = false := by
  obtain ⟨_ | c⟩ := r
  · rfl
  · refine Bool.eq_false_iff.2 fun hlive => ?_
    have hbefore := h.dead c (hw.known hr rfl) hlive
    exact Bool.false_ne_true (hdead.symm.trans hbefore)

/-- What was lost is refused later on, and is not the cell of anything that exists or that has been
created since. -/
structure StaysLost (w w' : World) : Prop where
  refused : ∀ r, w.Held r → w.Lost r → r.Refused w'.store
  unlike : ∀ r, w.Held r → w.Lost r → ∀ r', r'.isLive w'.store = true → r.sameCell r' = false
  fresh : ∀ r, w.Held r → w.Lost r → ∀ c ∈ w'.cells, c ∉ w.cells →
    r.sameCell (.ofCell c) = false

theorem Follows.staysLost (h : w.Follows w') (hw : w.Orderly) : w.StaysLost w' := by
  have hdead : ∀ r, w.Held r → w.Lost r → r.isLive w'.store = false := by
    intro r hr hlost
    refine h.not_isLive hw (mentions_of_held hr) (Bool.eq_false_iff.2 fun hlive => ?_)
    exact (hw.isLive_iff (mentions_of_held hr)).1 hlive hlost
  have hne : ∀ {r r' : CellRef}, r.sameCell r' = true → r = r' := by
    rintro ⟨c⟩ ⟨c'⟩ hsame
    rw [show c = c' by simpa [CellRef.sameCell] using hsame]
  refine ⟨fun r hr hlost => CellRef.refused_of_not_isLive (hdead r hr hlost), ?_, ?_⟩
  · intro r hr hlost r' hlive
    refine Bool.eq_false_iff.2 fun hsame => ?_
    rw [← hne hsame, hdead r hr hlost] at hlive
    cases hlive
  · intro r hr hlost c _ hnew
    refine Bool.eq_false_iff.2 fun hsame => hnew ?_
    rw [hw.mem_cells_iff]
    exact hw.known (mentions_of_held hr) (by rw [hne hsame]; rfl)

/-! ## Steps that fail for good -/

/-- A socket of the owner dangles, and it has counted at most `k` steps. -/
def Stuck (n k : Nat) (w : World) : Prop :=
  ∃ o, w.owners[n]? = some o ∧ o.steps ≤ k ∧ ∃ v ∈ o.sockets, v.Dangles w.store

theorem Follows.dangles (h : w.Follows w') (hw : w.Orderly) (ho : w.owners[n]? = some o)
    {v : Socket} (hv : v ∈ o.sockets) (hdangles : v.Dangles w.store) : v.Dangles w'.store := by
  have hmem := List.mem_of_getElem? ho
  exact hdangles.imp (h.not_isLive hw (.socket o hmem v hv (.inl rfl)))
    (h.not_isLive hw (.socket o hmem v hv (.inr rfl)))

theorem Moves.stuck {k : Nat} (h : w.Moves act w') (hw : w.Orderly) (hstuck : w.Stuck n k) :
    w'.Stuck n k := by
  obtain ⟨o, ho, hsteps, v, hv, hdangles⟩ := hstuck
  have hdangles' := h.follows.dangles hw ho hv hdangles
  cases h with
  | drop m p _ _ hw' =>
    subst hw'
    exact ⟨o, ho, hsteps, v, hv, hdangles'⟩
  | develop h =>
    obtain ⟨o', ho', hcontinues⟩ := h.kept ho
    exact ⟨o', ho', Nat.le_trans (hcontinues.steps ⟨v, hv, hdangles⟩) hsteps, v,
      hcontinues.sockets.subset hv, hdangles'⟩

theorem Stuck.run {k : Nat} (hstuck : w.Stuck n k) (hw : w.Orderly) (acts : List Act) :
    (w.run acts).Stuck n k :=
  (run_keeps (P := fun w => w.Orderly ∧ w.Stuck n k)
    (fun act _ w hw => ⟨(w.moves_step act).orderly hw.1, (w.moves_step act).stuck hw.1 hw.2⟩)
    ⟨hw, hstuck⟩).2

/-- The fault of a step, if it is told to a simulator that has not been dropped. -/
theorem fault?_tick {sim : Simulator} (ho : w.owner? n = some (.simulator sim)) :
    (w.step (.work n .tick)).fault? = (⟨sim, w.store, w.log⟩ : Machine).tick.fault? := by
  simp only [step, ho, Owner.serve, Simulator.serve]
  rfl

theorem dangles_of_fault?_tick (h : (w.step (.work n .tick)).fault? ≠ none) :
    ∃ sim, w.owner? n = some (.simulator sim) ∧ ∃ v ∈ sim.sockets.sockets, v.Dangles w.store := by
  cases ho : w.owner? n with
  | none =>
    simp only [step, ho] at h
    exact absurd rfl h
  | some o =>
    cases o with
    | simulator sim =>
      refine ⟨sim, rfl, ?_⟩
      by_contra hlive
      rw [fault?_tick ho] at h
      obtain ⟨m', htick, -⟩ := Machine.tick_of_live (m := ⟨sim, w.store, w.log⟩)
        fun v hv hdangles => hlive ⟨v, hv, hdangles⟩
      rw [htick] at h
      exact h rfl
    | cell | bank | pool | registry =>
      simp only [step, ho] at h
      exact absurd rfl h

theorem simulator?_eq_some_iff {sim : Simulator} :
    w.simulator? n = some sim ↔ w.owner? n = some (.simulator sim) := by
  unfold simulator?
  cases w.owner? n with
  | none => simp
  | some o => cases o <;> simp [Owner.simulator?]

/-- A simulator that is stuck has a socket that dangles. -/
theorem Stuck.of_simulator? {k : Nat} {sim : Simulator} (h : w.Stuck n k)
    (hsim : w.simulator? n = some sim) :
    sim.stats.steps ≤ k ∧ ∃ v ∈ sim.sockets.sockets, v.Dangles w.store := by
  obtain ⟨o, ho, hsteps, hdangles⟩ := h
  obtain ⟨-, ho'⟩ := owner?_eq_some_iff.1 (simulator?_eq_some_iff.1 hsim)
  obtain rfl : o = .simulator sim := Option.some.inj (ho.symm.trans ho')
  exact ⟨hsteps, hdangles⟩

theorem Stuck.fault?_tick {k : Nat} {sim : Simulator} (h : w.Stuck n k)
    (hsim : w.simulator? n = some sim) :
    (w.step (.work n .tick)).fault? = some .danglingReference := by
  obtain ⟨-, hdangles⟩ := h.of_simulator? hsim
  obtain ⟨m', htick, -⟩ := Machine.tick_of_dangles (m := ⟨sim, w.store, w.log⟩) hdangles
  rw [World.fault?_tick (simulator?_eq_some_iff.1 hsim), htick]
  rfl

/-- The steps of the simulator fail, and it counts none any more, whatever else is done. -/
structure StaysStuck (n : Nat) (w : World) : Prop where
  fails : ∀ sim, w.simulator? n = some sim →
    (w.step (.work n .tick)).fault? = some .danglingReference
  steps : ∀ more sim sim', w.simulator? n = some sim → (w.run more).simulator? n = some sim' →
    sim'.stats.steps ≤ sim.stats.steps

theorem Orderly.staysStuck (hw : w.Orderly) {k : Nat} (h : w.Stuck n k) : w.StaysStuck n := by
  refine ⟨fun sim hsim => h.fault?_tick hsim, ?_⟩
  intro more sim sim' hsim hsim'
  obtain ⟨-, hdangles⟩ := h.of_simulator? hsim
  have ho := (owner?_eq_some_iff.1 (simulator?_eq_some_iff.1 hsim)).2
  have hstuck : w.Stuck n sim.stats.steps := ⟨_, ho, Nat.le_refl _, hdangles⟩
  exact ((hstuck.run hw more).of_simulator? hsim').1

/-- Whatever has been done so far: an operation on a cell fails exactly when the owner of the cell has
been dropped or there never was one.  Dropping an owner makes the references to its own cells
dangle and has no other effect on what is read.  What dangles does so for good and is no later cell,
so that a simulator one of whose steps has failed never completes a step again. -/
theorem dangling_is_final (acts later : List Act) :
    (after acts).Exact ∧
      (∀ n o, (after acts).owner? n = some o →
        (after acts).DropsOnly n o ((after acts).step (.drop n)).state) ∧
      (after acts).StaysLost ((after acts).run later) ∧
      ∀ n, ((after acts).step (.work n .tick)).fault? ≠ none →
        ((after acts).step (.work n .tick)).fault? = some .danglingReference ∧
          ((after acts).run later).StaysStuck n := by
  have hw := orderly_after acts
  refine ⟨hw.exact, fun n o ho => hw.dropsOnly ho, (follows_run _ later).staysLost hw, ?_⟩
  intro n hfault
  obtain ⟨sim, ho, hdangles⟩ := dangles_of_fault?_tick hfault
  have hstuck : (after acts).Stuck n sim.stats.steps :=
    ⟨_, (owner?_eq_some_iff.1 ho).2, Nat.le_refl _, hdangles⟩
  exact ⟨hstuck.fault?_tick (simulator?_eq_some_iff.2 ho),
    (hw.run later).staysStuck (hstuck.run hw later)⟩

/-- A socket of which one end has been dropped stops the steps of its simulator. -/
example : ((after [.newCell 0, .newSimulator {}, .refer 0 0, .makeField 0 0 1,
    .work 1 (.connect (.kept 0) (.kept 0)), .drop 0]).step (.work 1 .tick)).fault? =
      some .danglingReference := rfl

/-! ## Simulators that never fail -/

/-- The simulator of this number is there, and its sockets and the circuits that have been built into
it stay within its cells. -/
structure Closed (n : Nat) (w : World) : Prop where
  simulator : ∃ sim, w.simulator? n = some sim ∧ sim.Wired
  circuits : ∀ p ∈ w.circuits, p.1 = n → ∀ r, p.2.Mentions r →
    ∃ o, w.owners[n]? = some o ∧ o.Holds r

theorem Closed.moves (h : w.Closed n) (hmoves : w.Moves act w') (hdrop : act ≠ .drop n)
    (hconnects : ¬ act.Connects n) : w'.Closed n := by
  obtain ⟨sim, hsim, hwired⟩ := h.simulator
  obtain ⟨hn, ho⟩ := owner?_eq_some_iff.1 (simulator?_eq_some_iff.1 hsim)
  cases hmoves with
  | drop m o hact hm hw' =>
    subst hw' hact
    have hne : n ≠ m := fun heq => hdrop (by rw [heq])
    refine ⟨⟨sim, simulator?_eq_some_iff.2 (owner?_eq_some_iff.2 ⟨?_, ho⟩), hwired⟩, h.circuits⟩
    simpa [World.release, hne] using hn
  | develop hdevelops =>
    obtain ⟨o', ho', hcontinues⟩ := hdevelops.kept ho
    have hgrown : ∀ r, (Owner.simulator sim).Holds r → o'.Holds r := by
      rintro r ⟨c, hc, rfl⟩
      exact ⟨c, hcontinues.cells c hc, rfl⟩
    obtain ⟨sim', hsim'⟩ : ∃ sim', o'.simulator? = some sim' :=
      Option.isSome_iff_exists.1 (hcontinues.kind.trans rfl)
    obtain rfl : o' = .simulator sim' := by
      cases o' with
      | simulator _ => rw [Option.some.inj hsim']
      | cell | bank | pool | registry => cases hsim'
    refine ⟨⟨sim', ?_, ?_⟩, ?_⟩
    · exact simulator?_eq_some_iff.2 (owner?_eq_some_iff.2 ⟨hdevelops.dropped ▸ hn, ho'⟩)
    · intro v hv
      rcases hcontinues.joins v hv with hold | hown | hconnect
      · exact ⟨hgrown _ (hwired v hold).1, hgrown _ (hwired v hold).2⟩
      · exact hown
      · exact absurd hconnect hconnects
    · intro p hp hpn r hr
      rcases hdevelops.circuits p hp r hr with ⟨q, hq, hqp, hqr⟩ | ⟨o', hp', hown⟩
      · obtain ⟨o, ho₁, hold⟩ := h.circuits q hq (hqp.trans hpn) r hqr
        obtain rfl : o = .simulator sim := Option.some.inj (ho₁.symm.trans ho)
        exact ⟨_, ho', hgrown r hold⟩
      · exact ⟨o', hpn ▸ hp', hown⟩

/-- Whatever is done with the simulator succeeds. -/
structure Sturdy (n : Nat) (w : World) : Prop where
  tick : (w.step (.work n .tick)).isDone = true
  run : ∀ k, (w.step (.work n (.run k))).isDone = true
  settle : (w.step (.work n .settle)).isDone = true
  /-- Every port of every circuit built into the simulator, shown or not, at every level. -/
  ports : ∀ p ∈ w.circuits, p.1 = n → ∀ r, p.2.Mentions r → r.Granted w.store
  ends : ∃ sim, w.simulator? n = some sim ∧ ∀ v ∈ sim.sockets.sockets,
    v.source.ref.Granted w.store ∧ v.target.ref.Granted w.store

theorem Orderly.owns (h : w.Orderly) {sim : Simulator} (ho : w.owner? n = some (.simulator sim)) :
    sim.Owns w.store := by
  obtain ⟨hn, ho⟩ := owner?_eq_some_iff.1 ho
  exact ⟨fun c hc => (h.live ho c hc).2 hn, h.nodup_cells ho⟩

theorem Closed.sturdy (h : w.Closed n) (hw : w.Orderly) : w.Sturdy n := by
  obtain ⟨sim, hsim, hwired⟩ := h.simulator
  have ho := simulator?_eq_some_iff.1 hsim
  have howns := hw.owns ho
  have hgranted : ∀ r, (Owner.simulator sim).Holds r → r.Granted w.store := by
    rintro r ⟨c, hc, rfl⟩
    exact CellRef.granted_of_isLive (howns.live c hc)
  have hrun : ∀ k, ((⟨sim, w.store, w.log⟩ : Machine).run k).isDone = true := by
    intro k
    obtain ⟨hdone, -⟩ := Machine.run_of_wired (m := ⟨sim, w.store, w.log⟩) howns hwired k
    rw [hdone]
    rfl
  refine ⟨?_, ?_, ?_, ?_, sim, hsim, ?_⟩
  · obtain ⟨m', htick, -⟩ := Machine.tick_of_wired (m := ⟨sim, w.store, w.log⟩) howns hwired
    rw [Attempt.isDone, fault?_tick ho, htick]
    rfl
  · intro k
    simp only [step, ho, Owner.serve, Simulator.serve]
    exact hrun k
  · simp only [step, ho, Owner.serve, Simulator.serve]
    exact hrun _
  · intro p hp hpn r hr
    obtain ⟨o, ho', hown⟩ := h.circuits p hp hpn r hr
    obtain rfl : o = .simulator sim := Option.some.inj (ho'.symm.trans (owner?_eq_some_iff.1 ho).2)
    exact hgranted r hown
  · intro v hv
    exact ⟨hgranted _ (hwired v hv).1, hgranted _ (hwired v hv).2⟩

/-- A simulator is created at some time, and from then on it is not dropped, and no sockets are
registered with it but those of schematics that are built into it.  Then nothing that is done with
it ever fails, whatever becomes of all others. -/
theorem never_dangles (before : List Act) (config : Config) (acts : List Act)
    (hspares : ∀ act ∈ acts, act ≠ .drop (after before).owners.length ∧
      ¬ act.Connects (after before).owners.length) :
    ((after before).run (.newSimulator config :: acts)).Sturdy (after before).owners.length := by
  have hw := orderly_after before
  have hn : (after before).owners.length ∉ (after before).dropped :=
    fun hmem => Nat.lt_irrefl _ (hw.dropped _ hmem)
  have hcreated : ((after before).addOwner (.simulator { config })).Closed
      (after before).owners.length := by
    refine ⟨⟨{ config }, ?_, nofun⟩, ?_⟩
    · refine simulator?_eq_some_iff.2 (owner?_eq_some_iff.2 ⟨hn, ?_⟩)
      simp [addOwner]
    · intro p hp hpn r hr
      exact absurd (hw.built p hp r hr) (by omega)
  have horderly := (moves_step (after before) (.newSimulator config)).orderly hw
  obtain ⟨horderly', hclosed⟩ := run_keeps (P := fun w => w.Orderly ∧ w.Closed _)
    (fun act hact w hw => ⟨(w.moves_step act).orderly hw.1,
      hw.2.moves (w.moves_step act) (hspares act hact).1 (hspares act hact).2⟩)
    ⟨horderly, hcreated⟩
  exact hclosed.sturdy horderly'

/-- A cell is created and dropped while a circuit is built into a simulator and runs. -/
theorem never_dangles_repeater :
    (after [.newCell 0]).owners.length = 1 ∧
      ((after [.newCell 0]).run (.newSimulator {} ::
        [.work 1 (.build repeater), .work 1 .tick, .drop 0, .newBank 2])).Sturdy 1 := by
  refine ⟨rfl, never_dangles [.newCell 0] {}
    [.work 1 (.build repeater), .work 1 .tick, .drop 0, .newBank 2] ?_⟩
  simp only [show (after [.newCell 0]).owners.length = 1 from rfl, Act.Connects]
  simp

end World

end PackedLogic
