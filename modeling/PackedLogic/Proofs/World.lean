import PackedLogic.Proofs.Owners
set_option autoImplicit false

/-!
# A world of owners

All owners keep their cells in one store.  A `World` has the owners, the references, fields and
circuits that a program keeps, and a record of the owners that have been dropped.  An `Act` does one
thing to it.  An act either drops an owner, which releases the owner's cells and nothing else, or
`Develops` the world, which releases no cell (`World.moves_step`).
-/

namespace PackedLogic

/-- Owners with their cells in one store, and what a program keeps of what they have handed out.
An owner that has been dropped stays on record, so that its number is not given out again. -/
structure World where
  store : Store := {}
  log : Array Event := #[]
  owners : List Owner := []
  /-- The numbers of the owners that have been dropped. -/
  dropped : List Nat := []
  refs : List CellRef := []
  fields : List Field := []
  /-- Circuits, with the numbers of the simulators into which they have been built. -/
  circuits : List (Nat × Circuit) := []

/-- What a program can do. -/
inductive Act
  | newCell (w : Word)
  | newBank (lanes : Nat)
  | newPool (k : GateKind)
  | newSimulator (config : Config)
  | newRegistry
  /-- Drops an owner. -/
  | drop (n : Nat)
  /-- Lets an owner do a job. -/
  | work (n : Nat) (job : Job)
  /-- Keeps a reference to a cell of an owner. -/
  | refer (n position : Nat)
  /-- Keeps the reference of a field. -/
  | referTo (a : Access)
  | emptyRef
  | keep (a : Access)
  | emptyField
  /-- Makes a field of a reference that is kept. -/
  | makeField (ref offset width : Nat)
  | copyCircuit (circuit : Nat) (path : List Nat)
  | dropCircuit (circuit : Nat)
  | edit (a : Access) (e : Edit)
  | update (ref : Nat) (f : Word → Word)

namespace World

/-- The owner of a number, unless it has been dropped. -/
def owner? (w : World) (n : Nat) : Option Owner := if n ∈ w.dropped then none else w.owners[n]?

/-- The simulator of a number, unless it has been dropped. -/
def simulator? (w : World) (n : Nat) : Option Simulator := (w.owner? n).bind Owner.simulator?

/-- A socket of an owner that has not been dropped. -/
def socket? (w : World) (n k : Nat) : Option Socket := (w.owner? n).bind fun o => o.sockets[k]?

/-- A field that the program has at hand. -/
def field? (w : World) : Access → Option Field
  | .kept n => w.fields[n]?
  | .port n path name => (w.circuits[n]?).bind fun p => p.2.field? path name
  | .exposed n path name => (w.circuits[n]?).bind fun p => p.2.exposedField? path name
  | .source n k => (w.socket? n k).map Socket.source
  | .target n k => (w.socket? n k).map Socket.target

/-- The world with one more owner. -/
def addOwner (w : World) (o : Owner) : World := { w with owners := w.owners ++ [o] }

/-- The world after an owner has done a job. -/
def absorb (w : World) (n : Nat) (v : Service) : World :=
  { w with
    store := v.store
    log := v.log
    owners := w.owners.set n v.owner
    fields := w.fields ++ v.fields
    refs := w.refs ++ v.refs
    circuits := w.circuits ++ v.circuit?.toList.map fun c => (n, c) }

/-- The world after an owner has been dropped. -/
def release (w : World) (n : Nat) (o : Owner) : World :=
  { w with store := w.store.releaseAll o.cells, dropped := n :: w.dropped }

/-- Does one thing.  Where something is to be done with what is not there, nothing is done. -/
def step (w : World) : Act → Attempt World
  | .newCell v => .done { w.addOwner (.cell w.store.size) with store := w.store.push v }
  | .newBank lanes => .done (w.addOwner (.bank lanes {}))
  | .newPool k => .done (w.addOwner (.pool k {}))
  | .newSimulator config => .done (w.addOwner (.simulator { config }))
  | .newRegistry => .done (w.addOwner (.registry {}))
  | .drop n =>
    match w.owner? n with
    | some o => .done (w.release n o)
    | none => .done w
  | .work n job =>
    match w.owner? n with
    | some o => (o.serve w.field? job w.store w.log).map (w.absorb n)
    | none => .done w
  | .refer n position =>
    match (w.owner? n).bind fun o => o.cells[position]? with
    | some c => .done { w with refs := w.refs ++ [.ofCell c] }
    | none => .done w
  | .referTo a =>
    match w.field? a with
    | some f => .done { w with refs := w.refs ++ [f.ref] }
    | none => .done w
  | .emptyRef => .done { w with refs := w.refs ++ [{}] }
  | .keep a =>
    match w.field? a with
    | some f => .done { w with fields := w.fields ++ [f] }
    | none => .done w
  | .emptyField => .done { w with fields := w.fields ++ [default] }
  | .makeField ref offset width =>
    match w.refs[ref]? with
    | some r => .ofExcept w ((Field.make? offset width r).map fun f =>
        { w with fields := w.fields ++ [f] })
    | none => .done w
  | .copyCircuit n path =>
    match w.circuits[n]?, (w.circuits[n]?).bind fun p => p.2.at? path with
    | some p, some c => .done { w with circuits := w.circuits ++ [(p.1, c)] }
    | _, _ => .done w
  | .dropCircuit n => .done { w with circuits := w.circuits.eraseIdx n }
  | .edit a e =>
    match w.field? a with
    | some f => (f.edit e w.store).map fun store => { w with store }
    | none => .done w
  | .update ref f =>
    match w.refs[ref]? with
    | some r => (r.update f w.store).map fun store => { w with store }
    | none => .done w

/-- Does one thing after the other.  What is refused does not keep the program from going on. -/
def run (acts : List Act) (w : World) : World := acts.foldl (fun w act => (w.step act).state) w

/-- The cells of all owners, also of those that have been dropped. -/
def cells (w : World) : List Nat := w.owners.flatMap Owner.cells

/-- The reference belongs to something in the world. -/
inductive Mentions (w : World) (r : CellRef) : Prop
  | ref (h : r ∈ w.refs)
  | field (f : Field) (h : f ∈ w.fields) (href : f.ref = r)
  | circuit (p : Nat × Circuit) (h : p ∈ w.circuits) (href : p.2.Mentions r)
  | socket (o : Owner) (h : o ∈ w.owners) (v : Socket) (hv : v ∈ o.sockets)
      (href : v.source.ref = r ∨ v.target.ref = r)

/-- The program has the reference at hand, or a field with it. -/
def Held (w : World) (r : CellRef) : Prop := r ∈ w.refs ∨ ∃ a f, w.field? a = some f ∧ f.ref = r

variable {w w' : World} {n : Nat} {o : Owner}

theorem owner?_eq_some_iff : w.owner? n = some o ↔ n ∉ w.dropped ∧ w.owners[n]? = some o := by
  unfold owner?
  split <;> simp_all

theorem exists_of_socket?_eq_some {k : Nat} {v : Socket} (h : w.socket? n k = some v) :
    ∃ o ∈ w.owners, v ∈ o.sockets := by
  obtain ⟨o, ho, hv⟩ := Option.bind_eq_some_iff.1 h
  exact ⟨o, List.mem_of_getElem? (owner?_eq_some_iff.1 ho).2, List.mem_of_getElem? hv⟩

theorem mentions_of_field? {a : Access} {f : Field} (h : w.field? a = some f) :
    w.Mentions f.ref := by
  cases a with
  | kept n => exact .field f (List.mem_of_getElem? h) rfl
  | port n path name =>
    obtain ⟨p, hp, hf⟩ := Option.bind_eq_some_iff.1 h
    exact .circuit p (List.mem_of_getElem? hp) ⟨path, name, f, .inl hf, rfl⟩
  | exposed n path name =>
    obtain ⟨p, hp, hf⟩ := Option.bind_eq_some_iff.1 h
    exact .circuit p (List.mem_of_getElem? hp) ⟨path, name, f, .inr hf, rfl⟩
  | source n k =>
    obtain ⟨v, hv, rfl⟩ := Option.map_eq_some_iff.1 h
    obtain ⟨o, ho, hmem⟩ := exists_of_socket?_eq_some hv
    exact .socket o ho v hmem (.inl rfl)
  | target n k =>
    obtain ⟨v, hv, rfl⟩ := Option.map_eq_some_iff.1 h
    obtain ⟨o, ho, hmem⟩ := exists_of_socket?_eq_some hv
    exact .socket o ho v hmem (.inr rfl)

theorem mentions_of_held {r : CellRef} (h : w.Held r) : w.Mentions r := by
  rcases h with hr | ⟨a, f, hf, rfl⟩
  · exact .ref hr
  · exact mentions_of_field? hf

theorem mem_cells {c : Nat} : c ∈ w.cells ↔ ∃ o ∈ w.owners, c ∈ o.cells := List.mem_flatMap

end World

/-- What the circuit at a path mentions, the whole circuit mentions. -/
theorem Circuit.Mentions.of_at? {c d : Circuit} {path : List Nat} (hd : c.at? path = some d)
    {r : CellRef} (h : d.Mentions r) : c.Mentions r := by
  obtain ⟨q, name, f, hf, href⟩ := h
  have hat : c.at? (path ++ q) = d.at? q := by
    rw [Circuit.at?_append, hd]
    rfl
  refine ⟨path ++ q, name, f, ?_, href⟩
  unfold Circuit.field? Circuit.exposedField? at hf ⊢
  rwa [hat]

/-! ## What an act can do -/

/-- The program connects two fields of its choice in the registry of an owner. -/
def Act.Connects (act : Act) (n : Nat) : Prop := ∃ source target, act = .work n (.connect source target)

/-- An owner later on: it keeps its cells and its sockets, and while one of these dangles it counts no
step.  New sockets join cells of its own, unless it has been told to connect other fields. -/
structure Owner.Continues (connects : Prop) (o o' : Owner) (s : Store) : Prop where
  cells : ∀ c ∈ o.cells, c ∈ o'.cells
  sockets : o.sockets <+: o'.sockets
  joins : ∀ v ∈ o'.sockets,
    v ∈ o.sockets ∨ (o'.Holds v.source.ref ∧ o'.Holds v.target.ref) ∨ connects
  kind : o'.simulator?.isSome = o.simulator?.isSome
  steps : (∃ v ∈ o.sockets, v.Dangles s) → o'.steps ≤ o.steps

theorem Owner.Continues.refl (connects : Prop) (o : Owner) (s : Store) :
    o.Continues connects o s :=
  ⟨fun _ hc => hc, List.prefix_rfl, fun _ hv => .inl hv, rfl, fun _ => Nat.le_refl _⟩

theorem Served.continues {field? : Access → Option Field} {job : Job} {o : Owner} {s : Store}
    {v : Service} (h : Served field? job o s v) (n : Nat) :
    o.Continues ((Act.work n job).Connects n) v.owner s := by
  obtain ⟨added, hsockets, hadded⟩ := h.sockets
  refine ⟨fun c hc => ?_, ⟨added, hsockets.symm⟩, ?_, h.kind, h.steps⟩
  · exact h.enlarges.cells.mem_iff.2 (List.mem_append_left _ hc)
  · intro u hu
    rw [hsockets] at hu
    rcases List.mem_append.1 hu with hu | hu
    · exact .inl hu
    · rcases hadded u hu with hown | ⟨source, target, rfl, -, -⟩
      · exact .inr (.inl hown)
      · exact .inr (.inr ⟨source, target, rfl⟩)

namespace World

/-- A world after an act that drops no owner. -/
structure Develops (w : World) (act : Act) (w' : World) : Prop where
  enlarges : Enlarges w.cells w'.cells w.store w'.store
  dropped : w'.dropped = w.dropped
  kept : ∀ {n : Nat} {o : Owner}, w.owners[n]? = some o →
    ∃ o', w'.owners[n]? = some o' ∧ o.Continues (act.Connects n) o' w.store
  /-- New cells go to owners that there are. -/
  fresh : ∀ {n : Nat} {o' : Owner}, w'.owners[n]? = some o' → ∀ c ∈ o'.cells,
    (∃ o, w.owners[n]? = some o ∧ c ∈ o.cells) ∨
      (w.store.size ≤ c ∧ (n ∉ w.dropped ∨ w.owners.length ≤ n))
  mentions : ∀ {r : CellRef} {c : Nat}, w'.Mentions r → r.cell? = some c →
    w.Mentions r ∨ c ∈ w'.cells
  /-- A new circuit lies in cells of its simulator. -/
  circuits : ∀ p ∈ w'.circuits, ∀ r, p.2.Mentions r →
    (∃ q ∈ w.circuits, q.1 = p.1 ∧ q.2.Mentions r) ∨
      ∃ o', w'.owners[p.1]? = some o' ∧ o'.Holds r

section

variable {w w' : World} {act : Act}

/-- The owners are the same, and no more is known of cells than before. -/
theorem Develops.of_owners (howners : w'.owners = w.owners) (hdropped : w'.dropped = w.dropped)
    (hstore : w'.store.SameCells w.store)
    (hrefs : ∀ r ∈ w'.refs, ∀ c, r.cell? = some c → w.Mentions r ∨ c ∈ w.cells)
    (hfields : ∀ f ∈ w'.fields, ∀ c, f.ref.cell? = some c → w.Mentions f.ref)
    (hcircuits : ∀ p ∈ w'.circuits, ∀ r, p.2.Mentions r →
      ∃ q ∈ w.circuits, q.1 = p.1 ∧ q.2.Mentions r) : w.Develops act w' := by
  have hcells : w'.cells = w.cells := by rw [cells, howners, cells]
  refine ⟨?_, hdropped, ?_, ?_, ?_, fun p hp r hr => .inl (hcircuits p hp r hr)⟩
  · rw [hcells]
    exact .of_sameCells hstore
  · intro n o ho
    exact ⟨o, by rw [howners, ho], .refl _ o _⟩
  · intro n o' ho' c hc
    exact .inl ⟨o', by rw [← howners, ho'], hc⟩
  · rw [hcells]
    intro r c hr hcell
    cases hr with
    | ref hr => exact hrefs r hr c hcell
    | field f hf href =>
      subst href
      exact .inl (hfields f hf c hcell)
    | circuit p hp href =>
      obtain ⟨q, hq, -, href⟩ := hcircuits p hp r href
      exact .inl (.circuit q hq href)
    | socket o ho v hv href => exact .inl (.socket o (howners ▸ ho) v hv href)

theorem develops_of_store {s : Store} (h : s.SameCells w.store) :
    w.Develops act { w with store := s } :=
  .of_owners rfl rfl h (fun _ hr _ _ => .inl (.ref hr)) (fun f hf _ _ => .field f hf rfl)
    fun p hp _ hr => ⟨p, hp, rfl, hr⟩

theorem Develops.refl (w : World) (act : Act) : w.Develops act w := develops_of_store (.refl w.store)

theorem develops_addOwner {o : Owner} {s : Store} (h : Enlarges [] o.cells w.store s)
    (hsockets : o.sockets = []) : w.Develops act { w.addOwner o with store := s } := by
  have hcells : ({ w.addOwner o with store := s } : World).cells = w.cells ++ o.cells := by
    simp [cells, addOwner]
  refine ⟨?_, rfl, ?_, ?_, ?_, fun p hp r hr => .inl ⟨p, hp, rfl, hr⟩⟩
  · rw [hcells]
    exact ⟨h.size, h.cells.append_left w.cells, h.old, h.new⟩
  · intro n o' ho'
    refine ⟨o', ?_, .refl _ o' _⟩
    rw [addOwner, List.getElem?_append_left (List.getElem?_eq_some_iff.1 ho').1, ho']
  · intro n o' ho' c hc
    rcases Nat.lt_or_ge n w.owners.length with hlt | hge
    · rw [addOwner, List.getElem?_append_left hlt] at ho'
      exact .inl ⟨o', ho', hc⟩
    · rw [addOwner, List.getElem?_append_right hge] at ho'
      obtain rfl : o = o' := List.mem_singleton.1 (List.mem_of_getElem? ho') |>.symm
      have hnew := h.cells.mem_iff.1 hc
      rw [List.nil_append, List.mem_range'_1] at hnew
      exact .inr ⟨hnew.1, .inr hge⟩
  · intro r c hr _
    refine .inl ?_
    cases hr with
    | ref h => exact .ref h
    | field f h href => exact .field f h href
    | circuit p h href => exact .circuit p h href
    | socket o' h v hv href =>
      rcases List.mem_append.1 h with h | h
      · exact .socket o' h v hv href
      · obtain rfl := List.mem_singleton.1 h
        rw [hsockets] at hv
        cases hv

end

end World

/-- If the image of one member grows at its end, so do all images together, up to their order. -/
theorem perm_flatMap_set {α β : Type} {l : List α} {n : Nat} {a a' : α} (h : l[n]? = some a)
    {f : α → List β} {new : List β} (hgrown : (f a').Perm (f a ++ new)) :
    ((l.set n a').flatMap f).Perm (l.flatMap f ++ new) := by
  induction l generalizing n with
  | nil => cases h
  | cons b l ih =>
    cases n with
    | zero =>
      obtain rfl := Option.some.inj h
      rw [List.set_cons_zero, List.flatMap_cons, List.flatMap_cons, List.append_assoc]
      refine (hgrown.append_right _).trans ?_
      rw [List.append_assoc]
      exact List.perm_append_comm.append_left _
    | succ n =>
      rw [List.set_cons_succ, List.flatMap_cons, List.flatMap_cons, List.append_assoc]
      exact (ih h).append_left _

namespace World

variable {w w' : World} {act : Act} {n : Nat} {o : Owner}

theorem cells_absorb (ho : w.owners[n]? = some o) {new : List Nat} {v : Service}
    (h : v.owner.cells.Perm (o.cells ++ new)) :
    (w.absorb n v).cells.Perm (w.cells ++ new) :=
  perm_flatMap_set ho h

theorem getElem?_absorb (ho : w.owners[n]? = some o) (v : Service) (m : Nat) :
    (w.absorb n v).owners[m]? = if m = n then some v.owner else w.owners[m]? := by
  have hlt := (List.getElem?_eq_some_iff.1 ho).1
  rw [absorb, List.getElem?_set]
  by_cases hm : n = m
  · simp [hm, hm ▸ hlt]
  · simp [hm, Ne.symm hm]

theorem mem_cells_absorb (ho : w.owners[n]? = some o) {v : Service} {c : Nat}
    (hc : c ∈ v.owner.cells) : c ∈ (w.absorb n v).cells :=
  mem_cells.2 ⟨v.owner, List.mem_of_getElem? (by rw [getElem?_absorb ho, if_pos rfl]), hc⟩

/-- What is mentioned after a job was mentioned before, or is what the owner has handed out. -/
theorem mentions_absorb {job : Job} {v : Service} (ho : w.owners[n]? = some o)
    (h : Served w.field? job o w.store v) {r : CellRef} {c : Nat}
    (hr : (w.absorb n v).Mentions r) (hcell : r.cell? = some c) :
    w.Mentions r ∨ c ∈ (w.absorb n v).cells := by
  have hheld : ∀ {r}, v.owner.Holds r → r.cell? = some c → c ∈ (w.absorb n v).cells := by
    rintro r ⟨c', hc', rfl⟩ hcell
    obtain rfl := Option.some.inj hcell
    exact mem_cells_absorb ho hc'
  cases hr with
  | ref hr =>
    rcases List.mem_append.1 hr with hr | hr
    · exact .inl (.ref hr)
    · exact .inr (hheld (h.refs r hr) hcell)
  | field f hf href =>
    rcases List.mem_append.1 hf with hf | hf
    · exact .inl (.field f hf href)
    · exact .inr (hheld (href ▸ h.fields f hf) hcell)
  | circuit p hp href =>
    rcases List.mem_append.1 hp with hp | hp
    · exact .inl (.circuit p hp href)
    · obtain ⟨circuit, hcircuit, rfl⟩ := List.mem_map.1 hp
      exact .inr (hheld (h.circuit circuit (Option.mem_toList.1 hcircuit) r href) hcell)
  | socket o' ho' u hu href =>
    rcases List.mem_or_eq_of_mem_set ho' with ho' | rfl
    · exact .inl (.socket o' ho' u hu href)
    · obtain ⟨added, hsockets, hadded⟩ := h.sockets
      rw [hsockets] at hu
      rcases List.mem_append.1 hu with hu | hu
      · exact .inl (.socket o (List.mem_of_getElem? ho) u hu href)
      · rcases hadded u hu with ⟨hsource, htarget⟩ | ⟨a, b, -, hsource, htarget⟩
        · rcases href with rfl | rfl
          · exact .inr (hheld hsource hcell)
          · exact .inr (hheld htarget hcell)
        · rcases href with rfl | rfl
          · exact .inl (mentions_of_field? hsource)
          · exact .inl (mentions_of_field? htarget)

theorem develops_absorb {job : Job} {v : Service} (ho : w.owner? n = some o)
    (h : Served w.field? job o w.store v) : w.Develops (.work n job) (w.absorb n v) := by
  obtain ⟨hdropped, ho⟩ := owner?_eq_some_iff.1 ho
  refine ⟨⟨h.enlarges.size, cells_absorb ho h.enlarges.cells, h.enlarges.old, h.enlarges.new⟩,
    rfl, ?_, ?_, mentions_absorb ho h, ?_⟩
  · intro m o' ho'
    rw [getElem?_absorb ho]
    split
    · rename_i hm
      obtain rfl : o = o' := Option.some.inj (ho.symm.trans (hm ▸ ho'))
      exact ⟨v.owner, rfl, hm ▸ h.continues n⟩
    · exact ⟨o', ho', .refl _ o' _⟩
  · intro m o' ho' c hc
    rw [getElem?_absorb ho] at ho'
    split at ho'
    · rename_i hm
      obtain rfl := Option.some.inj ho'
      rcases List.mem_append.1 (h.enlarges.cells.mem_iff.1 hc) with hold | hnew
      · exact .inl ⟨o, hm ▸ ho, hold⟩
      · exact .inr ⟨(List.mem_range'_1.1 hnew).1, .inl (hm ▸ hdropped)⟩
    · exact .inl ⟨o', ho', hc⟩
  · intro p hp r hr
    rcases List.mem_append.1 hp with hp | hp
    · exact .inl ⟨p, hp, rfl, hr⟩
    · obtain ⟨circuit, hcircuit, rfl⟩ := List.mem_map.1 hp
      refine .inr ⟨v.owner, by rw [getElem?_absorb ho, if_pos rfl], ?_⟩
      exact h.circuit circuit (Option.mem_toList.1 hcircuit) r hr

/-- A further reference is kept, to a cell that is known already or that has an owner. -/
theorem develops_addRef {r : CellRef}
    (h : ∀ c, r.cell? = some c → w.Mentions r ∨ c ∈ w.cells) :
    w.Develops act { w with refs := w.refs ++ [r] } := by
  refine .of_owners rfl rfl (.refl _) ?_ (fun f hf _ _ => .field f hf rfl)
    fun p hp _ hr => ⟨p, hp, rfl, hr⟩
  exact List.forall_mem_append.2 ⟨fun _ hr _ _ => .inl (.ref hr), List.forall_mem_singleton.2 h⟩

/-- A further field is kept, of a cell that is known already. -/
theorem develops_addField {f : Field} (h : ∀ c, f.ref.cell? = some c → w.Mentions f.ref) :
    w.Develops act { w with fields := w.fields ++ [f] } := by
  refine .of_owners rfl rfl (.refl _) (fun _ hr _ _ => .inl (.ref hr)) ?_
    fun p hp _ hr => ⟨p, hp, rfl, hr⟩
  exact List.forall_mem_append.2 ⟨fun g hg _ _ => .field g hg rfl, List.forall_mem_singleton.2 h⟩

/-- Other circuits are kept, each of them one that there was or a part of it. -/
theorem develops_circuits {circuits : List (Nat × Circuit)}
    (h : ∀ p ∈ circuits, ∀ r, p.2.Mentions r → ∃ q ∈ w.circuits, q.1 = p.1 ∧ q.2.Mentions r) :
    w.Develops act { w with circuits } :=
  .of_owners rfl rfl (.refl _) (fun _ hr _ _ => .inl (.ref hr)) (fun f hf _ _ => .field f hf rfl) h

/-- An act drops an owner, or the world goes on with all that it has. -/
inductive Moves (w : World) (act : Act) (w' : World) : Prop
  | drop (n : Nat) (o : Owner) (hact : act = .drop n) (ho : w.owner? n = some o)
      (hw' : w' = w.release n o)
  | develop (h : w.Develops act w')

/-- A new owner has a new cell or none. -/
theorem moves_addOwner {o : Owner} (hcells : o.cells = []) (hsockets : o.sockets = []) :
    w.Moves act (w.addOwner o) :=
  .develop (develops_addOwner (by rw [hcells]; exact .refl [] w.store) hsockets)

/-- Whatever is done, and whether it is refused or not. -/
theorem moves_step (w : World) (act : Act) : w.Moves act (w.step act).state := by
  cases act with
  | newCell v => exact .develop (develops_addOwner (.of_push w.store v) rfl)
  | newBank lanes => exact moves_addOwner rfl rfl
  | newPool k => exact moves_addOwner rfl rfl
  | newSimulator config => exact moves_addOwner rfl rfl
  | newRegistry => exact moves_addOwner rfl rfl
  | drop n =>
    simp only [step]
    split
    · rename_i o ho
      exact .drop n o rfl ho rfl
    · exact .develop (.refl w _)
  | work n job =>
    simp only [step]
    split
    · rename_i o ho
      exact .develop (develops_absorb ho (o.served_serve w.field? job))
    · exact .develop (.refl w _)
  | refer n position =>
    simp only [step]
    split
    · rename_i c hc
      obtain ⟨o, ho, hc⟩ := Option.bind_eq_some_iff.1 hc
      refine .develop (develops_addRef fun c' hcell => .inr ?_)
      obtain rfl := Option.some.inj hcell
      exact mem_cells.2
        ⟨o, List.mem_of_getElem? (owner?_eq_some_iff.1 ho).2, List.mem_of_getElem? hc⟩
    · exact .develop (.refl w _)
  | referTo a =>
    simp only [step]
    split
    · rename_i f hf
      exact .develop (develops_addRef fun _ _ => .inl (mentions_of_field? hf))
    · exact .develop (.refl w _)
  | emptyRef => exact .develop (develops_addRef nofun)
  | keep a =>
    simp only [step]
    split
    · rename_i f hf
      exact .develop (develops_addField fun _ _ => mentions_of_field? hf)
    · exact .develop (.refl w _)
  | emptyField => exact .develop (develops_addField nofun)
  | makeField ref offset width =>
    simp only [step]
    split
    · rename_i r hr
      cases hmake : Field.make? offset width r with
      | error fault => exact .develop (.refl w _)
      | ok f =>
        obtain ⟨-, -, rfl⟩ := Field.make?_eq_ok_iff.1 hmake
        exact .develop (develops_addField fun _ _ => .ref (List.mem_of_getElem? hr))
    · exact .develop (.refl w _)
  | copyCircuit n path =>
    simp only [step]
    split
    · rename_i p c hp hc
      rw [hp, Option.bind_some] at hc
      refine .develop (develops_circuits ?_)
      intro q hq r hr
      rcases List.mem_append.1 hq with hq | hq
      · exact ⟨q, hq, rfl, hr⟩
      · obtain rfl := List.mem_singleton.1 hq
        exact ⟨p, List.mem_of_getElem? hp, rfl, hr.of_at? hc⟩
    · exact .develop (.refl w _)
  | dropCircuit n =>
    exact .develop (develops_circuits fun p hp _ hr => ⟨p, List.mem_of_mem_eraseIdx hp, rfl, hr⟩)
  | edit a e =>
    simp only [step]
    split
    · rename_i f hf
      exact .develop (develops_of_store (f.sameCells_edit e w.store))
    · exact .develop (.refl w _)
  | update ref f =>
    simp only [step]
    split
    · rename_i r hr
      exact .develop (develops_of_store (r.sameCells_update f w.store))
    · exact .develop (.refl w _)

end World

end PackedLogic
