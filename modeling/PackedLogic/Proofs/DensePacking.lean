import PackedLogic.Proofs.FirstFit
import PackedLogic.Proofs.PoolHistory
import Mathlib.Algebra.Order.Floor.Div
set_option autoImplicit false

/-!
# Dense packing

If all fields of a bank have one width, first fit fills its blocks one after the other: no block has
room but the last one, and a block is appended when that is full too.  What is kept is how many fields
each block holds (`Bank.Stacks`, `Bank.Stacks.lend`); where the next field goes is then a matter of
division with remainder.  A gate pool lends single bits, so its gates fill the words of its lanes
without gaps, and the number of gates is the number of bits lent (`packs_densely`).
-/

namespace PackedLogic

/-! ## Filling rows one after the other -/

/-- If `n` things fill rows of `c` one after the other, how many of them are in row `i`. -/
def load (c n i : Nat) : Nat := min c (n - i * c)

section Load

variable {c n i : Nat}

/-- The rows before the one that is filled next are full, the others are not. -/
theorem load_lt_iff (hc : 0 < c) : load c n i < c ↔ n / c ≤ i := by
  have hrow : n / c ≤ i ↔ n < (i + 1) * c := by
    rw [← Nat.lt_succ_iff, Nat.div_lt_iff_lt_mul hc]
  rw [hrow, Nat.add_one_mul, load]
  omega

/-- What is in the row that is filled next. -/
theorem load_div (hc : 0 < c) : load c n (n / c) = n % c := by
  have hsplit := Nat.div_add_mod' n c
  have hlt := Nat.mod_lt n hc
  rw [load]
  omega

theorem load_succ_div (hc : 0 < c) : load c (n + 1) (n / c) = n % c + 1 := by
  have hsplit := Nat.div_add_mod' n c
  have hlt := Nat.mod_lt n hc
  rw [load]
  omega

/-- No other row gets anything. -/
theorem load_succ_of_ne (hc : 0 < c) (hi : i ≠ n / c) : load c (n + 1) i = load c n i := by
  rcases Nat.lt_or_gt_of_ne hi with hlt | hgt
  · have hfull : (i + 1) * c ≤ n := (Nat.le_div_iff_mul_le hc).1 hlt
    rw [Nat.add_one_mul] at hfull
    rw [load, load]
    omega
  · have hempty : n < i * c := (Nat.div_lt_iff_lt_mul hc).1 hgt
    rw [load, load]
    omega

/-- Each thing is in the row that its number says. -/
theorem mod_lt_load {j : Nat} (hc : 0 < c) (hj : j < n) : j % c < load c n (j / c) := by
  have hsplit := Nat.div_add_mod' j c
  have hlt := Nat.mod_lt j hc
  rw [load]
  omega

/-- The row that is filled next is the last one, or the one after that. -/
theorem div_le_ceilDiv (hc : 0 < c) : n / c ≤ n ⌈/⌉ c := by
  rw [Nat.ceilDiv_eq_add_pred_div]
  exact Nat.div_le_div_right (by omega)

theorem ceilDiv_le_div_succ (hc : 0 < c) : n ⌈/⌉ c ≤ n / c + 1 := by
  rw [ceilDiv_le_iff_le_mul hc]
  exact Nat.le_of_lt (Nat.lt_mul_div_succ n hc)

theorem succ_ceilDiv (hc : 0 < c) : (n + 1) ⌈/⌉ c = n / c + 1 := by
  rw [Nat.ceilDiv_eq_add_pred_div, Nat.add_right_comm, Nat.add_sub_cancel, Nat.add_div_right n hc]

/-- If the rows that have been begun are those before the one that is filled next, all are full. -/
theorem mod_eq_zero_of_ceilDiv_eq (hc : 0 < c) (h : n ⌈/⌉ c = n / c) : n % c = 0 := by
  have hle := (ceilDiv_le_iff_le_mul hc).1 (Nat.le_of_eq h)
  have hsplit := Nat.div_add_mod n c
  omega

end Load

/-- How many fields of this width a cell has room for. -/
def perCell (width : Nat) : Nat := cellBits / width

theorem perCell_pos {width : Nat} (hwidth : 0 < width) (fits : width ≤ cellBits) :
    0 < perCell width := Nat.div_pos fits hwidth

theorem perCell_one : perCell 1 = 64 := rfl

theorem hasRoom_iff {width m : Nat} (hwidth : 0 < width) :
    m * width + width ≤ cellBits ↔ m < perCell width := by
  rw [← Nat.add_one_mul, ← Nat.le_div_iff_mul_le hwidth]
  rfl

namespace Bank

variable {lanes width : Nat} {bank : Bank lanes} {lents : List (Fin lanes → Field)}

/-- The bank has lent these fields, all of one width, and put each of them behind the one before, in a
new block only if the last one was full. -/
structure Stacks (bank : Bank lanes) (width : Nat) (lents : List (Fin lanes → Field)) : Prop where
  blockCount : bank.blockCount = lents.length ⌈/⌉ perCell width
  cursor : ∀ (i : Nat) (block : Block), bank.blocks[i]? = some block →
    block.cursor = load (perCell width) lents.length i * width
  place : ∀ (k : Nat) (lent : Fin lanes → Field), lents[k]? = some lent → ∃ block,
    bank.blocks[k / perCell width]? = some block ∧
      HandsOut block (k % perCell width * width) width lent

theorem stacks_empty (lanes width : Nat) : ({} : Bank lanes).Stacks width [] :=
  ⟨(zero_ceilDiv _).symm, nofun, nofun⟩

theorem HandsOut.of_ref_eq {block block' : Block} {index : Nat} {lent : Fin lanes → Field}
    (h : HandsOut block index width lent) (href : block'.ref = block.ref) :
    HandsOut block' index width lent := by
  intro lane
  rw [href]
  exact h lane

namespace Stacks

/-- A block has room just when it is none of those before the one that is filled next. -/
theorem room_iff (h : bank.Stacks width lents) (hwidth : 0 < width) (fits : width ≤ cellBits)
    {i : Nat} {block : Block} (hblock : bank.blocks[i]? = some block) :
    block.cursor + width ≤ cellBits ↔ lents.length / perCell width ≤ i := by
  rw [h.cursor i block hblock, hasRoom_iff hwidth, load_lt_iff (perCell_pos hwidth fits)]

/-- First fit finds the block that is filled next, or appends it. -/
theorem firstFit (h : bank.Stacks width lents) (hwidth : 0 < width) (fits : width ≤ cellBits)
    {s : Store} {l : Lending lanes (Fin lanes → Field)} (hfirst : FirstFit bank s width l) :
    l.bank.blockCount = lents.length / perCell width + 1 ∧
      (∀ i, i ≠ lents.length / perCell width → l.bank.blocks[i]? = bank.blocks[i]?) ∧
      ∃ block, l.bank.blocks[lents.length / perCell width]? = some block ∧
        block.cursor = (lents.length % perCell width + 1) * width ∧
        HandsOut block (lents.length % perCell width * width) width l.lent := by
  have hc := perCell_pos hwidth fits
  cases hfirst with
  | reuse before rest block block' hblocks hfull hroom hblocks' hbase hcursor hlent =>
    have hblock : bank.blocks[before.length]? = some block := by simp [hblocks]
    have hblock' : l.bank.blocks[before.length]? = some block' := by simp [hblocks']
    have hlt : before.length < bank.blockCount := (List.getElem?_eq_some_iff.1 hblock).1
    have hcount : l.bank.blockCount = bank.blockCount := by
      simp [Bank.blockCount, hblocks, hblocks']
    have hceil := ceilDiv_le_div_succ (n := lents.length) hc
    rw [← h.blockCount] at hceil
    -- having room, the block is none of the full ones, and there is one block after these at most
    have hnext : lents.length / perCell width = before.length :=
      Nat.le_antisymm ((h.room_iff hwidth fits hblock).1 hroom) (by omega)
    have hold : block.cursor = lents.length % perCell width * width := by
      rw [h.cursor _ block hblock, ← hnext, load_div hc]
    refine ⟨by omega, ?_, block', hnext ▸ hblock', ?_, hold ▸ hlent⟩
    · intro i hi
      have hset : l.bank.blocks = bank.blocks.set before.length block' := by
        simp [hblocks, hblocks']
      rw [hset, List.getElem?_set_ne (hnext ▸ hi.symm)]
    · rw [hcursor, hold, Nat.add_one_mul]
  | append block' hfull hblocks' _ hcursor hlent =>
    have hnext : bank.blockCount = lents.length / perCell width := by
      refine Nat.le_antisymm ?_ (h.blockCount ▸ div_le_ceilDiv hc)
      by_contra hlt
      have hblock := List.getElem?_eq_getElem (Nat.lt_of_not_le hlt)
      have hroom := (h.room_iff hwidth fits hblock).2 (Nat.le_refl _)
      exact absurd hroom (Nat.not_le.2 (hfull _ (List.mem_of_getElem? hblock)))
    -- all blocks are full, so there is no remainder
    have hmod := mod_eq_zero_of_ceilDiv_eq hc (h.blockCount.symm.trans hnext)
    rw [hmod, ← hnext]
    refine ⟨by simp [Bank.blockCount, hblocks'], ?_, block', ?_, ?_, ?_⟩
    · intro i hi
      rcases Nat.lt_or_gt_of_ne hi with hlt | hgt
      · rw [hblocks', List.getElem?_append_left hlt]
      · have hlength : l.bank.blocks.length = bank.blockCount + 1 := by
          simp [Bank.blockCount, hblocks']
        rw [List.getElem?_eq_none (hlength ▸ hgt), List.getElem?_eq_none (Nat.le_of_lt hgt)]
    · rw [hblocks']
      exact List.getElem?_concat_length
    · rw [hcursor, Nat.zero_add, Nat.one_mul]
    · rwa [Nat.zero_mul]

/-- The next field of the same width goes behind the others. -/
theorem lend (h : bank.Stacks width lents) (hwidth : 0 < width) (fits : width ≤ cellBits)
    (s : Store) : (bank.lend width fits s).bank.Stacks width
      (lents ++ [(bank.lend width fits s).lent]) := by
  have hc := perCell_pos hwidth fits
  obtain ⟨hcount, hothers, block, hblock, hcursor, hlent⟩ :=
    h.firstFit hwidth fits (bank.firstFit_lend fits s)
  obtain ⟨base, index, hclaims, -⟩ := bank.claims_lend width fits s
  refine ⟨?_, ?_, ?_⟩
  · rw [hcount, List.length_append, List.length_singleton, succ_ceilDiv hc]
  · intro i other hother
    rw [List.length_append, List.length_singleton]
    by_cases hi : i = lents.length / perCell width
    · subst hi
      obtain rfl : block = other := Option.some.inj (hblock.symm.trans hother)
      rw [load_succ_div hc, hcursor]
    · rw [load_succ_of_ne hc hi]
      exact h.cursor i other ((hothers i hi).symm.trans hother)
  · intro k lent hk
    rcases getElem?_concat_eq_some_iff.1 hk with hold | ⟨rfl, rfl⟩
    · obtain ⟨old, hgot, hhands⟩ := h.place k lent hold
      obtain ⟨grown, hgrown, href, -⟩ := hclaims.grows.ref hgot
      exact ⟨grown, hgrown, hhands.of_ref_eq href⟩
    · exact ⟨block, hblock, hlent⟩

end Stacks

namespace Session

/-- What an empty bank makes of `n` requests for fields of one width. -/
structure FillsDensely (lanes width : Nat) (s : Store) (n : Nat) : Prop where
  /-- The bank has as many blocks as `n` fields fill. -/
  blockCount :
    (after s (List.replicate n (.fields width)) : Session lanes).bank.blockCount =
      n ⌈/⌉ (64 / width)
  answered : (after s (List.replicate n (.fields width)) : Session lanes).replies.length = n
  /-- Request `k` was granted, at the place where `k` fields end. -/
  served : ∀ k < n, ∃ (block : Block) (lent : Fin lanes → Field),
    (after s (List.replicate n (.fields width))).replies[k]? = some (.fields lent) ∧
      (after s (List.replicate n (.fields width)) : Session lanes).bank.blocks[k / (64 / width)]? =
        some block ∧
      HandsOut block (k % (64 / width) * width) width lent

theorem exists_serve_stacks {σ : Session lanes} (h : σ.bank.Stacks width lents)
    (hwidth : 0 < width) (fits : width ≤ cellBits) : ∃ lent,
      (σ.serve (.fields width)).replies = σ.replies ++ [.fields lent] ∧
        (σ.serve (.fields width)).bank.Stacks width (lents ++ [lent]) := by
  rw [serve_fields_of_fits σ fits]
  exact ⟨_, rfl, h.lend hwidth fits σ.store⟩

/-- All requests for fields of one width were granted, and the bank has stacked these fields. -/
theorem exists_stacks (lanes : Nat) (hwidth : 0 < width) (fits : width ≤ cellBits) (s : Store)
    (n : Nat) : ∃ lents : List (Fin lanes → Field), lents.length = n ∧
      (after s (List.replicate n (.fields width))).replies = lents.map .fields ∧
        (after s (List.replicate n (.fields width))).bank.Stacks width lents := by
  induction n with
  | zero => exact ⟨[], rfl, rfl, stacks_empty lanes width⟩
  | succ n ih =>
    obtain ⟨lents, hlength, hreplies, hstacks⟩ := ih
    obtain ⟨lent, hreply, hstacks⟩ := exists_serve_stacks hstacks hwidth fits
    rw [List.replicate_succ', after_concat]
    refine ⟨lents ++ [lent], ?_, ?_, hstacks⟩
    · rw [List.length_append, List.length_singleton, hlength]
    · rw [hreply, hreplies, List.map_append, List.map_singleton]

theorem fillsDensely (lanes : Nat) (hwidth : 0 < width) (fits : width ≤ cellBits) (s : Store)
    (n : Nat) : FillsDensely lanes width s n := by
  obtain ⟨lents, rfl, hreplies, hstacks⟩ := exists_stacks lanes hwidth fits s n
  refine ⟨hstacks.blockCount, by rw [hreplies, List.length_map], ?_⟩
  intro k hk
  have hlent := List.getElem?_eq_getElem hk
  obtain ⟨block, hblock, hhands⟩ := hstacks.place k _ hlent
  exact ⟨block, _, by rw [hreplies, List.getElem?_map, hlent]; rfl, hblock, hhands⟩

end Session

end Bank

namespace GatePool

variable {k : GateKind}

/-- The request asks for a gate. -/
def Request.isLend : Request k → Bool
  | .lend => true
  | .tick | .clear | .edit .. | .create _ => false

namespace Session

/-- What a new pool makes of any requests, among them some for gates. -/
structure FillsDensely (s : Store) (requests : List (Request k)) : Prop where
  /-- Whatever cells there are, one more gate is granted. -/
  granted : ∀ store, (after s requests).pool.bank.lend? 1 store =
    .ok ((after s requests).pool.lend store)
  gates : (after s requests).gates.length = requests.countP Request.isLend
  instances : (after s requests).pool.instances = requests.countP Request.isLend
  /-- Gate `j` sits at the bit where `j` gates end. -/
  seated : ∀ (j : Nat) (gate : Fin k.arity → Field), (after s requests).gates[j]? = some gate →
    ∃ block, (after s requests).pool.bank.blocks[j / 64]? = some block ∧ block.Seats (j % 64) gate
  /-- A tick evaluates as many blocks as the gates fill. -/
  evaluated : ((after s requests).pool.step (after s requests).store).2 =
    requests.countP Request.isLend ⌈/⌉ 64

/-- The pool has stacked its gates, and knows how many they are and were asked for. -/
structure Stacked (σ : Session k) (requests : List (Request k)) : Prop where
  gates : σ.pool.bank.Stacks 1 σ.gates
  instances : σ.pool.instances = σ.gates.length
  count : σ.gates.length = requests.countP Request.isLend

theorem serve_of_not_isLend (σ : Session k) {request : Request k} (h : request.isLend = false) :
    (σ.serve request).pool = σ.pool ∧ (σ.serve request).gates = σ.gates := by
  cases request with
  | lend => cases h
  | tick | clear | create => exact ⟨rfl, rfl⟩
  | edit gate lane e =>
    rw [serve]
    split <;> exact ⟨rfl, rfl⟩

/-- One more request is one more gate, or leaves pool and gates as they are. -/
theorem Stacked.serve {σ : Session k} {requests : List (Request k)} (h : σ.Stacked requests)
    (request : Request k) : (σ.serve request).Stacked (requests ++ [request]) := by
  cases hlend : request.isLend with
  | false =>
    obtain ⟨hpool, hgates⟩ := σ.serve_of_not_isLend hlend
    refine ⟨?_, ?_, ?_⟩
    · rw [hpool, hgates]
      exact h.gates
    · rw [hpool, hgates, h.instances]
    · rw [hgates, h.count]
      simp [hlend]
  | true =>
    obtain rfl : request = .lend := by
      cases request with
      | lend => rfl
      | _ => cases hlend
    refine ⟨h.gates.lend Nat.one_pos one_le_cellBits σ.store, ?_, ?_⟩
    · refine (Bank.lentBits_lend ..).trans ?_
      rw [Session.serve, List.length_append, ← h.instances]
      rfl
    · rw [Session.serve, List.length_append, h.count, List.countP_append]
      rfl

theorem stacked_after (s : Store) (requests : List (Request k)) :
    (after s requests).Stacked requests := by
  induction requests using List.reverseRecOn with
  | nil => exact ⟨Bank.stacks_empty k.arity 1, rfl, rfl⟩
  | append_singleton requests request ih =>
    rw [after_concat]
    exact ih.serve request

/-- A gate of a pool sits at the bit that its number says. -/
theorem Stacked.seats {σ : Session k} {requests : List (Request k)} (h : σ.Stacked requests)
    {j : Nat} {gate : Fin k.arity → Field} (hgate : σ.gates[j]? = some gate) :
    ∃ block, σ.pool.bank.blocks[j / 64]? = some block ∧ block.Seats (j % 64) gate := by
  have hj := (List.getElem?_eq_some_iff.1 hgate).1
  obtain ⟨block, hblock, hhands⟩ := h.gates.place j gate hgate
  have hcursor := h.gates.cursor _ block hblock
  rw [perCell_one] at hblock hhands hcursor
  rw [Nat.mul_one] at hhands hcursor
  refine ⟨block, hblock, ?_, ?_, ?_, ?_⟩
  · rw [hcursor]
    exact mod_lt_load (by decide) hj
  · exact fun lane => (hhands lane).1
  · exact fun lane => (hhands lane).2.1
  · exact fun lane => (hhands lane).2.2

theorem fillsDensely (s : Store) (requests : List (Request k)) : FillsDensely s requests := by
  have hstacked := stacked_after s requests
  refine ⟨fun store => ?_, hstacked.count, ?_, fun _ _ => hstacked.seats, ?_⟩
  · exact Bank.lend?_of_fits _ one_le_cellBits store
  · rw [hstacked.instances, hstacked.count]
  · rw [← hstacked.count]
    exact hstacked.gates.blockCount

end Session

end GatePool

/-- Fields of one width fill the blocks of a bank one after the other, and gates the blocks of their
pool, whatever happens in between. -/
theorem packs_densely (lanes : Nat) {width : Nat} (hwidth : 0 < width) (fits : width ≤ 64)
    (s : Store) (n : Nat) {k : GateKind} (requests : List (GatePool.Request k)) :
    Bank.Session.FillsDensely lanes width s n ∧ GatePool.Session.FillsDensely s requests :=
  ⟨Bank.Session.fillsDensely lanes hwidth fits s n, GatePool.Session.fillsDensely s requests⟩

/-- Twelve fields of five bits fill a block, so the thirteenth one begins another; and two gates share
a block, however often the pool is ticked and cleared before the second one. -/
theorem packs_densely_five : 0 < 5 ∧ 5 ≤ 64 ∧
    (Bank.Session.after {} (List.replicate 13 (.fields 5)) : Bank.Session 3).bank.blockCount = 2 ∧
    Bank.Session.FillsDensely 3 5 {} 13 ∧
    GatePool.Session.FillsDensely {}
      ([.lend, .tick, .clear, .lend] : List (GatePool.Request .not)) := by
  have hwidth : 0 < 5 := by decide
  have hfits : 5 ≤ 64 := by decide
  obtain ⟨hfields, hgates⟩ := packs_densely 3 hwidth hfits {} 13
    ([.lend, .tick, .clear, .lend] : List (GatePool.Request .not))
  exact ⟨hwidth, hfits, hfields.blockCount, hfields, hgates⟩

end PackedLogic
