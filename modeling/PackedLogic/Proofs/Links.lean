import PackedLogic.Proofs.Lending
import PackedLogic.Proofs.Step
set_option autoImplicit false

/-!
# Links between two machines

Two machines may run the same circuit in different places, and one of them other circuits
besides.  A link is a pair of rows, one in each machine, that serve the same purpose.  `Twins`
says that linked bits have the same values, that the sockets of the left machine are among those
of the right one, and that all other sockets and fields of the right machine stay away from linked
bits (`Foreign`).  Steps, edits and lendings keep this.
-/

namespace PackedLogic

/-- The bits have the same position in two rows that are linked. -/
def Linked (links : List (Row × Row)) (a b : Bit) : Prop :=
  ∃ link ∈ links, ∃ lane < link.1.part.lanes, ∃ j < link.1.width,
    a = link.1.bit lane j ∧ b = link.2.bit lane j

theorem Linked.cons {links : List (Row × Row)} {a b : Bit} (h : Linked links a b)
    (link : Row × Row) : Linked (link :: links) a b := by
  obtain ⟨link', hlink, hbits⟩ := h
  exact ⟨link', List.mem_cons_of_mem _ hlink, hbits⟩

/-- Equal bits are linked to equal bits. -/
def OneToOne (links : List (Row × Row)) : Prop :=
  ∀ {a b a' b' : Bit}, Linked links a b → Linked links a' b' → (a = a' ↔ b = b')

/-- Linked bits have the same values in both stores. -/
def SameBits (links : List (Row × Row)) (s t : Store) : Prop :=
  ∀ {a b : Bit}, Linked links a b → s.bit a = t.bit b

/-- The bits of the row have been lent from one block. -/
def Simulator.HasRow (sim : Simulator) (row : Row) : Prop :=
  ∃ block ∈ sim.blocks row.part, block.base = row.base ∧ row.index + row.width ≤ block.cursor

/-- The bits of the row are bits of one block, lent or not. -/
def Simulator.HasBits (sim : Simulator) (row : Row) : Prop :=
  ∃ block ∈ sim.blocks row.part, block.base = row.base ∧ row.index + row.width ≤ cellBits

namespace Simulator

variable {sim sim' : Simulator} {row : Row}

theorem HasRow.hasBits (h : sim.HasRow row) : sim.HasBits row := by
  obtain ⟨block, hblock, hbase, hcursor⟩ := h
  exact ⟨block, hblock, hbase, Nat.le_trans hcursor block.cursor_le⟩

theorem HasRow.of_grows (h : sim.HasRow row) (hgrows : sim.Grows sim') : sim'.HasRow row := by
  obtain ⟨block, hblock, hbase, hcursor⟩ := h
  obtain ⟨block', hblock', hbase', hcursor'⟩ := hgrows _ block hblock
  exact ⟨block', hblock', hbase'.trans hbase, Nat.le_trans hcursor hcursor'⟩

theorem HasRow.lent (h : sim.HasRow row) {lane j : Nat} (hlane : lane < row.part.lanes)
    (hj : j < row.width) : sim.Lent (row.bit lane j) := by
  obtain ⟨block, hblock, hbase, hcursor⟩ := h
  refine ⟨_, block, hblock, lane, hlane, by rw [hbase]; rfl, ?_⟩
  exact Nat.lt_of_lt_of_le (Nat.add_lt_add_left hj _) hcursor

end Simulator

theorem Machine.Lends.hasRow {m m' : Machine} {row : Row} (h : m.Lends m' row) :
    m'.sim.HasRow row := by
  obtain ⟨block, hblock, hbase, hcursor⟩ := h.exists_block
  exact ⟨block, hblock, hbase, Nat.le_of_eq hcursor.symm⟩

/-- The fields are equally wide, and their bits are linked one by one. -/
structure Alike (links : List (Row × Row)) (sim sim' : Simulator) (f g : Field) : Prop where
  left : sim.Holds f
  right : sim'.Holds g
  width : f.width = g.width
  linked : ∀ {j : Nat} {a b : Bit}, f.bit? j = some a → g.bit? j = some b → Linked links a b

/-- The field has no linked bit, nor one that may still be lent. -/
structure Foreign (links : List (Row × Row)) (sim : Simulator) (f : Field) : Prop where
  holds : sim.Holds f
  lent : ∀ {b : Bit}, f.Covers b → sim.Lent b
  avoids : ∀ {a b : Bit}, Linked links a b → ¬ f.Covers b

/-- The sockets of the left machine are among those of the right one, in the same order; the others
have foreign targets. -/
inductive Interleaved (links : List (Row × Row)) (sim sim' : Simulator) :
    List Socket → List Socket → Prop
  | nil : Interleaved links sim sim' [] []
  | both {w w' : Socket} {ws ws' : List Socket} (hsource : Alike links sim sim' w.source w'.source)
      (htarget : Alike links sim sim' w.target w'.target)
      (hrest : Interleaved links sim sim' ws ws') : Interleaved links sim sim' (w :: ws) (w' :: ws')
  | skip {w' : Socket} {ws ws' : List Socket} (hsource : sim'.Holds w'.source)
      (htarget : Foreign links sim' w'.target) (hrest : Interleaved links sim sim' ws ws') :
      Interleaved links sim sim' ws (w' :: ws')

/-- The left machine does what the right one does in part: linked bits have the same values, and the
fields of others in the right machine have none of them. -/
structure Twins (links : List (Row × Row)) (others : Field → Prop) (m n : Machine) : Prop where
  left : m.sim.Owns m.store
  right : n.sim.Owns n.store
  shape : ∀ link ∈ links, link.2.part = link.1.part ∧ link.2.width = link.1.width
  rows : ∀ link ∈ links, m.sim.HasRow link.1 ∧ n.sim.HasRow link.2
  oneToOne : OneToOne links
  agree : SameBits links m.store n.store
  sockets : Interleaved links m.sim n.sim m.sim.sockets.sockets n.sim.sockets.sockets
  foreign : ∀ {f : Field}, others f → Foreign links n.sim f

/-! ## Growing machines and growing links -/

section

variable {links links' : List (Row × Row)} {sim sim' simGrown simGrown' : Simulator}

theorem Alike.mono {f g : Field} (h : Alike links sim sim' f g) (hleft : sim.Grows simGrown)
    (hright : sim'.Grows simGrown')
    (hlinks : ∀ {a b : Bit}, Linked links a b → Linked links' a b) :
    Alike links' simGrown simGrown' f g :=
  ⟨hleft.holds h.left, hright.holds h.right, h.width, fun ha hb => hlinks (h.linked ha hb)⟩

/-- New links are made of bits that were not lent before. -/
theorem Foreign.mono {f : Field} (h : Foreign links sim f) (hgrows : sim.Grows simGrown)
    (hlinks : ∀ {a b : Bit}, Linked links' a b → sim.Lent b → Linked links a b) :
    Foreign links' simGrown f := by
  refine ⟨hgrows.holds h.holds, fun hb => hgrows.lent (h.lent hb), ?_⟩
  intro a b hab hcovers
  exact h.avoids (hlinks hab (h.lent hcovers)) hcovers

theorem Interleaved.mono {ws ws' : List Socket} (h : Interleaved links sim sim' ws ws')
    (hleft : sim.Grows simGrown) (hright : sim'.Grows simGrown')
    (hold : ∀ {a b : Bit}, Linked links a b → Linked links' a b)
    (hnew : ∀ {a b : Bit}, Linked links' a b → sim'.Lent b → Linked links a b) :
    Interleaved links' simGrown simGrown' ws ws' := by
  induction h with
  | nil => exact .nil
  | both hsource htarget _ ih =>
    exact .both (hsource.mono hleft hright hold) (htarget.mono hleft hright hold) ih
  | skip hsource htarget _ ih =>
    exact .skip (hright.holds hsource) (htarget.mono hright hnew) ih

theorem Interleaved.append_both {ws ws' : List Socket} {w w' : Socket}
    (h : Interleaved links sim sim' ws ws') (hsource : Alike links sim sim' w.source w'.source)
    (htarget : Alike links sim sim' w.target w'.target) :
    Interleaved links sim sim' (ws ++ [w]) (ws' ++ [w']) := by
  induction h with
  | nil => exact .both hsource htarget .nil
  | both hsource' htarget' _ ih => exact .both hsource' htarget' ih
  | skip hsource' htarget' _ ih => exact .skip hsource' htarget' ih

theorem Interleaved.append_skip {ws ws' : List Socket} {w' : Socket}
    (h : Interleaved links sim sim' ws ws') (hsource : sim'.Holds w'.source)
    (htarget : Foreign links sim' w'.target) :
    Interleaved links sim sim' ws (ws' ++ [w']) := by
  induction h with
  | nil => exact .skip hsource htarget .nil
  | both hsource' htarget' _ ih => exact .both hsource' htarget' ih
  | skip hsource' htarget' _ ih => exact .skip hsource' htarget' ih

theorem Interleaved.wired_left {ws ws' : List Socket} (h : Interleaved links sim sim' ws ws') :
    ∀ w ∈ ws, sim.Holds w.source ∧ sim.Holds w.target := by
  induction h with
  | nil => exact fun w hw => nomatch hw
  | both hsource htarget _ ih =>
    exact List.forall_mem_cons.2 ⟨⟨hsource.left, htarget.left⟩, ih⟩
  | skip _ _ _ ih => exact ih

theorem Interleaved.wired_right {ws ws' : List Socket} (h : Interleaved links sim sim' ws ws') :
    ∀ w ∈ ws', sim'.Holds w.source ∧ sim'.Holds w.target := by
  induction h with
  | nil => exact fun w hw => nomatch hw
  | both hsource htarget _ ih =>
    exact List.forall_mem_cons.2 ⟨⟨hsource.right, htarget.right⟩, ih⟩
  | skip hsource htarget _ ih =>
    exact List.forall_mem_cons.2 ⟨⟨hsource, htarget.holds⟩, ih⟩

/-! ## Fields that are alike -/

/-- Linked bits have the same number in fields that are alike. -/
theorem Alike.bit?_iff {f g : Field} (h : Alike links sim sim' f g) (honce : OneToOne links)
    {a b : Bit} (hab : Linked links a b) (j : Nat) : f.bit? j = some a ↔ g.bit? j = some b := by
  constructor
  · intro ha
    have hj := (Field.bit?_eq_some_iff.1 ha).1
    obtain ⟨b', hb'⟩ := h.right.exists_bit (h.width ▸ hj)
    rw [hb', (honce (h.linked ha hb') hab).1 rfl]
  · intro hb
    have hj := (Field.bit?_eq_some_iff.1 hb).1
    obtain ⟨a', ha'⟩ := h.left.exists_bit (h.width ▸ hj)
    rw [ha', (honce (h.linked ha' hb) hab).2 rfl]

theorem Alike.covers_iff {f g : Field} (h : Alike links sim sim' f g) (honce : OneToOne links)
    {a b : Bit} (hab : Linked links a b) : f.Covers a ↔ g.Covers b :=
  exists_congr (h.bit?_iff honce hab)

variable {s s' t t' : Store}

/-- Fields that are alike read the same. -/
theorem Alike.get_eq {f g : Field} (h : Alike links sim sim' f g) (hs : sim.Owns s)
    (ht : sim'.Owns t) (hagree : SameBits links s t) : f.get s = g.get t := by
  rw [Field.get_eq, Field.get_eq, Field.value?_congr (hs.isLive h.left) (ht.isLive h.right) h.width]
  exact fun j a b ha hb => hagree (h.linked ha hb)

/-- The same edit of fields that are alike. -/
theorem Alike.sameBits_edit {f g : Field} (h : Alike links sim sim' f g) (honce : OneToOne links)
    {e : Edit} (hagree : SameBits links s t) (hs : f.Edited e s s') (ht : g.Edited e t t') :
    SameBits links s' t' := by
  intro a b hab
  by_cases hcovers : f.Covers a
  · obtain ⟨j, ha⟩ := hcovers
    rw [hs.inside ha, ht.inside ((h.bit?_iff honce hab j).1 ha), hagree hab]
  · rw [hs.outside hcovers, ht.outside ((h.covers_iff honce hab).not.1 hcovers), hagree hab]

/-- The same copy between fields that are alike. -/
theorem Alike.sameBits_copy {w w' : Socket} (hsource : Alike links sim sim' w.source w'.source)
    (htarget : Alike links sim sim' w.target w'.target) (honce : OneToOne links)
    (hagree : SameBits links s t) (hs : w.Copied s s') (ht : w'.Copied t t') :
    SameBits links s' t' := by
  intro a b hab
  by_cases hcovers : w.target.Covers a
  · obtain ⟨j, ha⟩ := hcovers
    have hj : j < w.source.width := w.width_eq ▸ (Field.bit?_eq_some_iff.1 ha).1
    obtain ⟨a', ha'⟩ := hsource.left.exists_bit hj
    obtain ⟨b', hb'⟩ := hsource.right.exists_bit (hsource.width ▸ hj)
    rw [hs.inside ha' ha, ht.inside hb' ((htarget.bit?_iff honce hab j).1 ha),
      hagree (hsource.linked ha' hb')]
  · rw [hs.outside hcovers, ht.outside ((htarget.covers_iff honce hab).not.1 hcovers), hagree hab]

/-! ## Steps -/

/-- The gate phases of both machines compute the same at linked bits. -/
theorem sameBits_tickGates (hs : sim.Owns s) (ht : sim'.Owns t)
    (hshape : ∀ link ∈ links, link.2.part = link.1.part ∧ link.2.width = link.1.width)
    (hrows : ∀ link ∈ links, sim.HasBits link.1 ∧ sim'.HasBits link.2)
    (hagree : SameBits links s t) : SameBits links (sim.tickGates s) (sim'.tickGates t) := by
  rintro _ _ ⟨⟨row, row'⟩, hlink, lane, hlane, j, hj, rfl, rfl⟩
  obtain ⟨hpart, hwidth⟩ := hshape _ hlink
  obtain ⟨⟨block, hblock, hbase, hfits⟩, block', hblock', hbase', hfits'⟩ := hrows _ hlink
  dsimp only at *
  have hlinked : ∀ l < row.part.lanes, Linked links (row.bit l j) (row'.bit l j) :=
    fun l hl => ⟨_, hlink, l, hl, j, hj, rfl, rfl⟩
  have hbit : ∀ l, row.bit l j = ⟨block.base + l, row.index + j⟩ := fun l => by rw [hbase]; rfl
  have hbit' : ∀ l, row'.bit l j = ⟨block'.base + l, row'.index + j⟩ :=
    fun l => by rw [hbase']; rfl
  have hlt : row.index + j < 64 := by
    rw [cellBits_eq] at hfits
    omega
  have hlt' : row'.index + j < 64 := by
    rw [cellBits_eq] at hfits'
    omega
  rw [hpart] at hblock'
  cases hkind : row.part with
  | gates k =>
    rw [hkind] at hblock hblock' hlane hlinked
    by_cases hout : lane = k.inputs
    · subst hout
      rw [hbit, hbit', Simulator.bit_tickGates_output hs hblock hlt,
        Simulator.bit_tickGates_output ht hblock' hlt']
      refine congrArg k.bit (funext fun l => ?_)
      rw [← hbit, ← hbit']
      exact hagree (hlinked l (Nat.lt_succ_of_lt l.isLt))
    · rw [hbit, hbit', Simulator.bit_tickGates_of_not_output
          (hs.not_gateOutput_of_ne hblock hlane hout _),
        Simulator.bit_tickGates_of_not_output (ht.not_gateOutput_of_ne hblock' hlane hout _),
        ← hbit, ← hbit']
      exact hagree (hlinked lane hlane)
  | bus =>
    rw [hkind] at hblock hblock' hlane hlinked
    obtain rfl : lane = 0 := Nat.lt_one_iff.1 hlane
    rw [hbit, hbit', Nat.add_zero, Nat.add_zero,
      Simulator.bit_tickGates_of_not_output (hs.not_gateOutput_bus hblock _),
      Simulator.bit_tickGates_of_not_output (ht.not_gateOutput_bus hblock' _)]
    have h := hagree (hlinked 0 hlane)
    rwa [hbit, hbit'] at h

/-- The socket phases of both machines do the same to linked bits. -/
theorem Interleaved.sameBits_each {ws ws' : List Socket} (h : Interleaved links sim sim' ws ws')
    (honce : OneToOne links) (hs : sim.Owns s) (ht : sim'.Owns t) (hagree : SameBits links s t) :
    ∃ s' t', Attempt.each Socket.tick ws s = .done s' ∧ Attempt.each Socket.tick ws' t = .done t' ∧
      SameBits links s' t' := by
  induction h generalizing s t with
  | nil => exact ⟨s, t, rfl, rfl, hagree⟩
  | @both w w' ws ws' hsource htarget _ ih =>
    obtain ⟨s₁, htick, hs₁⟩ :=
      Socket.tick_of_isLive (hs.isLive hsource.left) (hs.isLive htarget.left)
    obtain ⟨t₁, htick', ht₁⟩ :=
      Socket.tick_of_isLive (ht.isLive hsource.right) (ht.isLive htarget.right)
    obtain ⟨s', t', heach, heach', hagree'⟩ := ih (hs.of_sameCells hs₁.cells)
      (ht.of_sameCells ht₁.cells) (hsource.sameBits_copy htarget honce hagree hs₁ ht₁)
    refine ⟨s', t', ?_, ?_, hagree'⟩
    · rw [Attempt.each_cons, htick, Attempt.done_andThen, heach]
    · rw [Attempt.each_cons, htick', Attempt.done_andThen, heach']
  | @skip w' ws ws' hsource htarget _ ih =>
    obtain ⟨t₁, htick', ht₁⟩ :=
      Socket.tick_of_isLive (ht.isLive hsource) (ht.isLive htarget.holds)
    have hagree₁ : SameBits links s t₁ := by
      intro a b hab
      rw [ht₁.outside (htarget.avoids hab), hagree hab]
    obtain ⟨s', t', heach, heach', hagree'⟩ := ih hs (ht.of_sameCells ht₁.cells) hagree₁
    refine ⟨s', t', heach, ?_, hagree'⟩
    rw [Attempt.each_cons, htick', Attempt.done_andThen, heach']

end

namespace Twins

variable {links : List (Row × Row)} {others : Field → Prop} {m m' n n' : Machine}

/-- Other contents of the same cells, further cells without links, and further sockets. -/
theorem of_grows (h : Twins links others m n) (hleft : m.sim.Grows m'.sim)
    (hright : n.sim.Grows n'.sim) (hm' : m'.sim.Owns m'.store) (hn' : n'.sim.Owns n'.store)
    (hsockets : Interleaved links m.sim n.sim m'.sim.sockets.sockets n'.sim.sockets.sockets)
    (hagree : SameBits links m'.store n'.store) : Twins links others m' n' := by
  refine ⟨hm', hn', h.shape, ?_, h.oneToOne, hagree, ?_, ?_⟩
  · intro link hlink
    exact ⟨(h.rows link hlink).1.of_grows hleft, (h.rows link hlink).2.of_grows hright⟩
  · exact hsockets.mono hleft hright id fun hab _ => hab
  · intro f hf
    exact (h.foreign hf).mono hright fun hab _ => hab

/-- Both machines take a step. -/
theorem tick (h : Twins links others m n) :
    ∃ m' n', m.tick = .done m' ∧ n.tick = .done n' ∧ m.sim.Grows m'.sim ∧ n.sim.Grows n'.sim ∧
      Twins links others m' n' := by
  obtain ⟨m', htick, hticked⟩ := Machine.tick_of_wired h.left h.sockets.wired_left
  obtain ⟨n', htick', hticked'⟩ := Machine.tick_of_wired h.right h.sockets.wired_right
  obtain ⟨s', t', heach, heach', hagree⟩ := h.sockets.sameBits_each h.oneToOne
    (h.left.of_sameCells (m.sim.sameCells_tickGates m.store))
    (h.right.of_sameCells (n.sim.sameCells_tickGates n.store))
    (sameBits_tickGates h.left h.right h.shape
      (fun link hlink => ⟨(h.rows link hlink).1.hasBits, (h.rows link hlink).2.hasBits⟩) h.agree)
  obtain rfl : m'.store = s' := congrArg Attempt.state (hticked.phases.symm.trans heach)
  obtain rfl : n'.store = t' := congrArg Attempt.state (hticked'.phases.symm.trans heach')
  refine ⟨m', n', htick, htick', hticked.grows, hticked'.grows, h.of_grows hticked.grows
    hticked'.grows (hticked.owns h.left) (hticked'.owns h.right) ?_ hagree⟩
  rw [hticked.sockets, hticked'.sockets]
  exact h.sockets

theorem lent_left (h : Twins links others m n) {a b : Bit} (hab : Linked links a b) :
    m.sim.Lent a := by
  obtain ⟨link, hlink, lane, hlane, j, hj, rfl, -⟩ := hab
  exact (h.rows link hlink).1.lent hlane hj

theorem lent_right (h : Twins links others m n) {a b : Bit} (hab : Linked links a b) :
    n.sim.Lent b := by
  obtain ⟨link, hlink, lane, hlane, j, hj, -, rfl⟩ := hab
  obtain ⟨hpart, hwidth⟩ := h.shape link hlink
  exact (h.rows link hlink).2.lent (hpart ▸ hlane) (hwidth ▸ hj)

/-- Both machines are cleared. -/
theorem clear (h : Twins links others m n) : Twins links others m.clear n.clear := by
  have hleft : m.clear.sim.Owns m.clear.store :=
    h.left.of_sameCells (Store.sameCells_zero m.store m.sim.cells)
  have hright : n.clear.sim.Owns n.clear.store :=
    h.right.of_sameCells (Store.sameCells_zero n.store n.sim.cells)
  refine h.of_grows (.refl _) (.refl _) hleft hright h.sockets ?_
  intro a b hab
  have hzero : m.clear.store.bit a = false := by
    rw [Machine.clear, Simulator.clear, Store.bit_zero, if_pos (h.lent_left hab).mem_cells]
  have hzero' : n.clear.store.bit b = false := by
    rw [Machine.clear, Simulator.clear, Store.bit_zero, if_pos (h.lent_right hab).mem_cells]
  rw [hzero, hzero']

/-- Fields that are alike are edited in the same way. -/
theorem edit (h : Twins links others m n) {f g : Field} (hfg : Alike links m.sim n.sim f g)
    (e : Edit) :
    ∃ s t, f.edit e m.store = .done s ∧ g.edit e n.store = .done t ∧
      Twins links others { m with store := s } { n with store := t } := by
  obtain ⟨s, hedit, hs⟩ := Field.edit_of_isLive e (h.left.isLive hfg.left)
  obtain ⟨t, hedit', ht⟩ := Field.edit_of_isLive e (h.right.isLive hfg.right)
  exact ⟨s, t, hedit, hedit', h.of_grows (.refl _) (.refl _) (h.left.of_sameCells hs.cells)
    (h.right.of_sameCells ht.cells) h.sockets
    (hfg.sameBits_edit h.oneToOne h.agree hs ht)⟩

/-- A field of another circuit is edited in the right machine. -/
theorem editForeign (h : Twins links others m n) {f : Field} (hf : Foreign links n.sim f)
    (e : Edit) :
    ∃ t, f.edit e n.store = .done t ∧ Twins links others m { n with store := t } := by
  obtain ⟨t, hedit, ht⟩ := Field.edit_of_isLive e (h.right.isLive hf.holds)
  refine ⟨t, hedit, h.of_grows (.refl _) (.refl _) h.left (h.right.of_sameCells ht.cells)
    h.sockets ?_⟩
  intro a b hab
  rw [ht.outside (hf.avoids hab), h.agree hab]

/-- A row is lent to another circuit in the right machine. -/
theorem lendForeign (h : Twins links others m n) {row : Row} (hlends : n.Lends n' row) :
    Twins links others m n' := by
  refine h.of_grows (.refl _) hlends.grows h.left (hlends.owns h.right) ?_ ?_
  · rw [hlends.sockets]
    exact h.sockets
  · intro a b hab
    rw [hlends.bit_eq, h.agree hab]

end Twins

/-- Nothing is set that nobody has been lent. -/
def Simulator.Clean (sim : Simulator) (s : Store) : Prop := ∀ b, ¬ sim.Residue s b

theorem Machine.Lends.clean {m m' : Machine} {row : Row} (h : m.Lends m' row)
    (hclean : m.sim.Clean m.store) : m'.sim.Clean m'.store :=
  fun b hb => hclean b (h.residue_of_residue hb)

/-! ## Lending on both sides -/

/-- The bits of the rows are different ones. -/
def Row.Apart (row row' : Row) : Prop := ∀ b, row.Contains b → ¬ row'.Contains b

theorem Row.Apart.symm {row row' : Row} (h : row.Apart row') : row'.Apart row :=
  fun b hb hb' => h b hb' hb

/-- The machine has lent several rows, of bits that were not lent before and were zero. -/
structure Machine.LendsAll (m m' : Machine) (rows : List Row) : Prop where
  grows : m.sim.Grows m'.sim
  owns : m'.sim.Owns m'.store
  clean : m'.sim.Clean m'.store
  sockets : m'.sim.sockets = m.sim.sockets
  bit_eq : ∀ b, m'.store.bit b = m.store.bit b
  hasRow : ∀ row ∈ rows, m'.sim.HasRow row
  not_lent : ∀ row ∈ rows, ∀ b, row.Contains b → ¬ m.sim.Lent b
  unset : ∀ row ∈ rows, ∀ b, row.Contains b → m.store.bit b = false
  apart : rows.Pairwise Row.Apart

namespace Machine.LendsAll

variable {m m₁ m' : Machine} {row : Row} {rows rows' : List Row}

theorem nil (howns : m.sim.Owns m.store) (hclean : m.sim.Clean m.store) : m.LendsAll m [] :=
  ⟨.refl _, howns, hclean, rfl, fun _ => rfl, nofun, nofun, nofun, .nil⟩

/-- One more row is lent ahead of the others. -/
theorem cons (howns : m.sim.Owns m.store) (hclean : m.sim.Clean m.store) (h : m.Lends m₁ row)
    (hrest : m₁.LendsAll m' rows) : m.LendsAll m' (row :: rows) := by
  refine ⟨h.grows.trans hrest.grows, hrest.owns, hrest.clean, hrest.sockets.trans h.sockets,
    fun b => (hrest.bit_eq b).trans (h.bit_eq b), ?_, ?_, ?_, ?_⟩
  · exact List.forall_mem_cons.2 ⟨h.hasRow.of_grows hrest.grows, hrest.hasRow⟩
  · refine List.forall_mem_cons.2 ⟨fun b hb => h.not_lent howns hb, ?_⟩
    intro row' hrow' b hb hlent
    exact hrest.not_lent row' hrow' b hb (h.grows.lent hlent)
  · refine List.forall_mem_cons.2 ⟨?_, ?_⟩
    · intro b hb
      rw [← h.bit_eq, Bool.eq_false_iff]
      intro hset
      exact hclean b (h.residue_of_contains howns hb hset)
    · intro row' hrow' b hb
      rw [← h.bit_eq]
      exact hrest.unset row' hrow' b hb
  · refine List.pairwise_cons.2 ⟨?_, hrest.apart⟩
    intro row' hrow' b hb hb'
    exact hrest.not_lent row' hrow' b hb' (h.lent_of_contains hb)

/-- It does not matter in which order they are told. -/
theorem perm (h : m.LendsAll m' rows) (hperm : rows.Perm rows') : m.LendsAll m' rows' :=
  { h with
    hasRow := fun row hrow => h.hasRow row (hperm.mem_iff.2 hrow)
    not_lent := fun row hrow => h.not_lent row (hperm.mem_iff.2 hrow)
    unset := fun row hrow => h.unset row (hperm.mem_iff.2 hrow)
    apart := h.apart.perm hperm fun hapart => hapart.symm }

end Machine.LendsAll

/-- The rows have as many bits in as many lanes of banks of the same kind. -/
def Row.SameShape (row row' : Row) : Prop := row'.part = row.part ∧ row'.width = row.width

theorem linked_append {links links' : List (Row × Row)} {a b : Bit} :
    Linked (links ++ links') a b ↔ Linked links a b ∨ Linked links' a b := by
  simp only [Linked, List.mem_append, or_and_right, exists_or]

/-- Linked bits lie in the rows that are linked. -/
theorem exists_contains_of_linked {rows rows' : List Row} (h : List.Forall₂ Row.SameShape rows rows')
    {a b : Bit} (hab : Linked (rows.zip rows') a b) :
    (∃ row ∈ rows, row.Contains a) ∧ ∃ row' ∈ rows', row'.Contains b := by
  obtain ⟨⟨row, row'⟩, hlink, lane, hlane, j, hj, rfl, rfl⟩ := hab
  obtain ⟨hpart, hwidth⟩ := (List.forall₂_iff_zip.1 h).2 hlink
  have hmem := List.of_mem_zip hlink
  exact ⟨⟨row, hmem.1, row.contains_bit hlane hj⟩,
    row', hmem.2, row'.contains_bit (hpart ▸ hlane) (hwidth ▸ hj)⟩

/-- New links between bits that are not linked already. -/
theorem OneToOne.cons {links : List (Row × Row)} (h : OneToOne links) {row row' : Row}
    (hshape : row.SameShape row') (hfresh : ∀ {a b : Bit}, Linked links a b →
      ¬ row.Contains a ∧ ¬ row'.Contains b) : OneToOne ((row, row') :: links) := by
  obtain ⟨hpart, hwidth⟩ := hshape
  have hne : ∀ {lane j : Nat}, lane < row.part.lanes → j < row.width → ∀ {a b : Bit},
      Linked links a b → row.bit lane j ≠ a ∧ row'.bit lane j ≠ b := by
    intro lane j hlane hj a b hab
    constructor
    · rintro rfl
      exact (hfresh hab).1 (row.contains_bit hlane hj)
    · rintro rfl
      exact (hfresh hab).2 (row'.contains_bit (hpart ▸ hlane) (hwidth ▸ hj))
  rintro a b a' b' ⟨link, hlink, lane, hlane, j, hj, ha, hb⟩
    ⟨link', hlink', lane', hlane', j', hj', ha', hb'⟩
  rcases List.mem_cons.1 hlink with rfl | hold
  · rcases List.mem_cons.1 hlink' with rfl | hold'
    · subst ha hb ha' hb'
      constructor
      · intro heq
        obtain ⟨rfl, rfl⟩ := Row.bit_inj heq
        rfl
      · intro heq
        obtain ⟨rfl, rfl⟩ := Row.bit_inj heq
        rfl
    · obtain ⟨hleft, hright⟩ := hne hlane hj ⟨link', hold', lane', hlane', j', hj', ha', hb'⟩
      subst ha hb
      exact ⟨fun heq => absurd heq hleft, fun heq => absurd heq hright⟩
  · rcases List.mem_cons.1 hlink' with rfl | hold'
    · obtain ⟨hleft, hright⟩ := hne hlane' hj' ⟨link, hold, lane, hlane, j, hj, ha, hb⟩
      subst ha' hb'
      exact ⟨fun heq => absurd heq.symm hleft, fun heq => absurd heq.symm hright⟩
    · exact h ⟨link, hold, lane, hlane, j, hj, ha, hb⟩
        ⟨link', hold', lane', hlane', j', hj', ha', hb'⟩

/-- Links between rows that are apart from each other and from all links so far. -/
theorem OneToOne.zip_append {links : List (Row × Row)} (h : OneToOne links) {rows rows' : List Row}
    (hshape : List.Forall₂ Row.SameShape rows rows') (hrows : rows.Pairwise Row.Apart)
    (hrows' : rows'.Pairwise Row.Apart) (hleft : ∀ {a b : Bit}, Linked links a b →
      ∀ row ∈ rows, ¬ row.Contains a) (hright : ∀ {a b : Bit}, Linked links a b →
      ∀ row' ∈ rows', ¬ row'.Contains b) : OneToOne (rows.zip rows' ++ links) := by
  induction hshape with
  | nil => exact h
  | @cons row row' rows rows' hhead htail ih =>
    obtain ⟨hapart, hrows⟩ := List.pairwise_cons.1 hrows
    obtain ⟨hapart', hrows'⟩ := List.pairwise_cons.1 hrows'
    have hrest : OneToOne (rows.zip rows' ++ links) := ih hrows hrows' (fun hab r hr => hleft hab r (List.mem_cons_of_mem _ hr))
      (fun hab r hr => hright hab r (List.mem_cons_of_mem _ hr))
    apply OneToOne.cons hrest hhead
    intro a b hab
    rcases linked_append.1 hab with hnew | hold
    · obtain ⟨⟨r, hr, ha⟩, r', hr', hb⟩ := exists_contains_of_linked htail hnew
      exact ⟨fun hrow => hapart r hr _ hrow ha, fun hrow => hapart' r' hr' _ hrow hb⟩
    · exact ⟨hleft hold row List.mem_cons_self, hright hold row' List.mem_cons_self⟩

namespace Twins

variable {links : List (Row × Row)} {others : Field → Prop} {m m' n n' : Machine} {row row' : Row}
  {rows rows' : List Row}

/-- Rows of the same shapes are lent for the same purposes in both machines.  It does not matter in
which order each of them lends its own. -/
theorem lendAll (h : Twins links others m n) (hlends : m.LendsAll m' rows)
    (hlends' : n.LendsAll n' rows') (hshape : List.Forall₂ Row.SameShape rows rows') :
    Twins (rows.zip rows' ++ links) others m' n' := by
  have hnew : ∀ {a b : Bit}, Linked (rows.zip rows' ++ links) a b → n.sim.Lent b →
      Linked links a b := by
    intro a b hab hlent
    rcases linked_append.1 hab with hnew | hold
    · obtain ⟨-, row', hrow', hb⟩ := exists_contains_of_linked hshape hnew
      exact absurd hlent (hlends'.not_lent row' hrow' b hb)
    · exact hold
  have hold : ∀ {a b : Bit}, Linked links a b → Linked (rows.zip rows' ++ links) a b :=
    fun hab => linked_append.2 (Or.inr hab)
  refine ⟨hlends.owns, hlends'.owns, ?_, ?_, ?_, ?_, ?_, ?_⟩
  · intro link hlink
    rcases List.mem_append.1 hlink with hzip | hlink
    · exact (List.forall₂_iff_zip.1 hshape).2 hzip
    · exact h.shape link hlink
  · intro link hlink
    rcases List.mem_append.1 hlink with hzip | hlink
    · have hmem := List.of_mem_zip (a := link.1) (b := link.2) hzip
      exact ⟨hlends.hasRow _ hmem.1, hlends'.hasRow _ hmem.2⟩
    · exact ⟨(h.rows link hlink).1.of_grows hlends.grows,
        (h.rows link hlink).2.of_grows hlends'.grows⟩
  · apply OneToOne.zip_append h.oneToOne hshape hlends.apart hlends'.apart
    · intro a b hab row hrow ha
      exact hlends.not_lent row hrow a ha (h.lent_left hab)
    · intro a b hab row' hrow' hb
      exact hlends'.not_lent row' hrow' b hb (h.lent_right hab)
  · intro a b hab
    rw [hlends.bit_eq, hlends'.bit_eq]
    rcases linked_append.1 hab with hnew | hold
    · obtain ⟨⟨row, hrow, ha⟩, row', hrow', hb⟩ := exists_contains_of_linked hshape hnew
      rw [hlends.unset row hrow a ha, hlends'.unset row' hrow' b hb]
    · exact h.agree hold
  · rw [hlends.sockets, hlends'.sockets]
    exact h.sockets.mono hlends.grows hlends'.grows hold hnew
  · intro f hf
    exact (h.foreign hf).mono hlends'.grows hnew

/-- Rows of the same shape are lent for the same purpose in both machines. -/
theorem lend (h : Twins links others m n) (hlends : m.Lends m' row) (hlends' : n.Lends n' row')
    (hpart : row'.part = row.part) (hwidth : row'.width = row.width)
    (hclean : m.sim.Clean m.store) (hclean' : n.sim.Clean n.store) :
    Twins ((row, row') :: links) others m' n' :=
  h.lendAll (.cons h.left hclean hlends (.nil (hlends.owns h.left) (hlends.clean hclean)))
    (.cons h.right hclean' hlends' (.nil (hlends'.owns h.right) (hlends'.clean hclean')))
    (.cons ⟨hpart, hwidth⟩ .nil)

end Twins

end PackedLogic
