import PackedLogic.Proofs.PoolHistory
set_option autoImplicit false

/-!
# What a new gate shows

A tick computes whole words, so it also writes bits that nobody has been lent.  Nobody can write such a
bit in an input lane, and so all of them stay zero there; in the output lane they are what the gate
makes of zeros once the block has been ticked, and zero before and after every clearing
(`GatePool.Session.unlent_after`).  Of zeros only the inverter makes a one.  A new gate takes over the
bits as they are, so this is all that it can ever show of what went on before
(`GatePool.Session.lend_shows`).
-/

namespace PackedLogic

namespace GatePool

variable {k : GateKind}

namespace Session

/-! ## When a block has been ticked -/

/-- The pool has been ticked since the block of this number came to be and since the pool was last
cleared. -/
def Ticked (s : Store) (requests : List (Request k)) (n : Nat) : Prop :=
  ∃ before later, requests = before ++ .tick :: later ∧
    n < (after s before).pool.bank.blockCount ∧ .clear ∉ later

variable {s : Store} {requests : List (Request k)} {request : Request k} {n : Nat}

/-- A block that has been ticked exists. -/
theorem Ticked.lt_blockCount (h : Ticked s requests n) :
    n < (after s requests).pool.bank.blockCount := by
  obtain ⟨before, later, rfl, hn, -⟩ := h
  exact Nat.lt_of_lt_of_le hn (blockCount_le_append s before (.tick :: later))

/-- A tick reaches all blocks that there are, and a clearing undoes all ticks before. -/
theorem ticked_concat : Ticked s (requests ++ [request]) n ↔
    request = .tick ∧ n < (after s requests).pool.bank.blockCount ∨
      request ≠ .clear ∧ Ticked s requests n := by
  constructor
  · rintro ⟨before, later, heq, hn, hclear⟩
    rcases later.eq_nil_or_concat' with rfl | ⟨later, last, rfl⟩
    · obtain ⟨rfl, hlast⟩ := List.append_inj' heq rfl
      exact .inl ⟨List.singleton_inj.1 hlast, hn⟩
    · rw [← List.cons_append, ← List.append_assoc] at heq
      obtain ⟨rfl, hlast⟩ := List.append_inj' heq rfl
      obtain rfl := List.singleton_inj.1 hlast
      rw [List.mem_append, List.mem_singleton, not_or] at hclear
      exact .inr ⟨Ne.symm hclear.2, before, later, rfl, hn, hclear.1⟩
  · rintro (⟨rfl, hn⟩ | ⟨hrequest, before, later, rfl, hn, hclear⟩)
    · exact ⟨requests, [], rfl, hn, nofun⟩
    · refine ⟨before, later ++ [request], by simp, hn, ?_⟩
      rw [List.mem_append, List.mem_singleton, not_or]
      exact ⟨hclear, Ne.symm hrequest⟩

/-- A request that neither ticks nor clears the pool makes no difference. -/
theorem ticked_concat_of_ne (htick : request ≠ .tick) (hclear : request ≠ .clear) :
    Ticked s (requests ++ [request]) n ↔ Ticked s requests n := by
  simp [ticked_concat, htick, hclear]

end Session

/-! ## Bits that nobody has been lent -/

/-- Bit `i` of a block as nobody has ever held it.  It is zero in the input lanes; in the output lane it
is what the gate makes of zeros, if the block counts as ticked, and zero otherwise. -/
structure Blank (k : GateKind) (s : Store) (base i : Nat) (P : Prop) : Prop where
  inputs : ∀ lane < k.inputs, s.bit ⟨base + lane, i⟩ = false
  ticked : P → s.bit ⟨base + k.inputs, i⟩ = k.bit fun _ => false
  unticked : ¬ P → s.bit ⟨base + k.inputs, i⟩ = false

namespace Blank

variable {s s' : Store} {base i : Nat} {P Q : Prop}

theorem of_bit_eq (h : Blank k s base i P)
    (hbit : ∀ lane < k.arity, s'.bit ⟨base + lane, i⟩ = s.bit ⟨base + lane, i⟩) (hiff : Q ↔ P) :
    Blank k s' base i Q := by
  have houtput := hbit k.inputs (Nat.lt_succ_self _)
  refine ⟨?_, fun hq => houtput.trans (h.ticked (hiff.1 hq)), fun hq => ?_⟩
  · intro lane hlane
    rw [hbit lane (Nat.lt_succ_of_lt hlane), h.inputs lane hlane]
  · exact houtput.trans (h.unticked fun hp => hq (hiff.2 hp))

/-- Zeros are blank where nothing has been ticked. -/
theorem of_bit_false (hbit : ∀ lane < k.arity, s.bit ⟨base + lane, i⟩ = false) (hp : ¬ P) :
    Blank k s base i P :=
  ⟨fun lane hlane => hbit lane (Nat.lt_succ_of_lt hlane), fun h => absurd h hp,
    fun _ => hbit k.inputs (Nat.lt_succ_self _)⟩

variable {block : Block} {gate : Fin k.arity → Field}

/-- A gate that is given a blank bit reads zero at its inputs. -/
theorem get_input (h : Blank k s block.base i P) (hseats : block.Seats i gate)
    (hlive : ∀ lane < k.arity, s.isLive (block.base + lane) = true) (lane : Fin k.inputs) :
    (gate lane.castSucc).get s = .ok 0 := by
  have hread := hseats.get_eq lane.castSucc (hlive lane (Nat.lt_succ_of_lt lane.isLt))
  rw [Fin.val_castSucc, h.inputs lane lane.isLt] at hread
  exact hread

/-- Its output reads zero too, unless it is an inverter that has been ticked. -/
theorem get_output_zero (h : Blank k s block.base i P) (hseats : block.Seats i gate)
    (hlive : ∀ lane < k.arity, s.isLive (block.base + lane) = true) (hnone : ¬ (k = .not ∧ P)) :
    (gate (Fin.last k.inputs)).get s = .ok 0 := by
  have hzero : s.bit ⟨block.base + k.inputs, i⟩ = false := by
    by_cases hp : P
    · rw [h.ticked hp, GateKind.bit_false fun hk => hnone ⟨hk, hp⟩]
    · exact h.unticked hp
  have hread := hseats.get_eq (Fin.last k.inputs) (hlive k.inputs (Nat.lt_succ_self _))
  rw [Fin.val_last, hzero] at hread
  exact hread

theorem get_output_one {gate : Fin GateKind.not.arity → Field} (h : Blank .not s block.base i P)
    (hseats : block.Seats i gate)
    (hlive : ∀ lane < GateKind.not.arity, s.isLive (block.base + lane) = true) (hp : P) :
    (gate (Fin.last GateKind.not.inputs)).get s = .ok 1 := by
  have hread := hseats.get_eq (Fin.last GateKind.not.inputs) (hlive _ (Nat.lt_succ_self _))
  rw [Fin.val_last, h.ticked hp] at hread
  exact hread

end Blank

namespace Session

/-- All bits above the cursors are as nobody has ever held them. -/
def Unlent (σ : Session k) (ticked : Nat → Prop) : Prop :=
  ∀ (n i : Nat) (block : Block), σ.pool.bank.blocks[n]? = some block → block.cursor ≤ i → i < 64 →
    Blank k σ.store block.base i (ticked n)

/-- What has been above the cursor of a block before a claim, or was not there yet, is blank. -/
theorem Unlent.of_claims {σ : Session k} {ticked : Nat → Prop} (h : σ.Unlent ticked)
    (hcount : ∀ n, ticked n → n < σ.pool.bank.blocks.length) {blocks : List Block} {s : Store}
    {base index : Nat}
    (hclaims : Claims k.arity 1 σ.pool.bank.blocks blocks σ.store s base index) {n i : Nat}
    {block : Block} (hblock : blocks[n]? = some block) (hi : i < 64)
    (hfree : ∀ old, σ.pool.bank.blocks[n]? = some old → old.cursor ≤ i) :
    Blank k s block.base i (ticked n) := by
  rcases hclaims.old_or_new hblock with ⟨old, hold, hbase, -⟩ | ⟨hn, hbase, -⟩
  · rw [hbase]
    exact (h n i old hold (hfree old hold) hi).of_bit_eq (fun _ _ => hclaims.bit_eq _) .rfl
  · refine .of_bit_false ?_ fun ht => absurd (hcount n ht) (hn ▸ Nat.lt_irrefl _)
    intro lane _
    have hdead : σ.store.isLive (block.base + lane) = false := by
      rw [Store.isLive, Store.word?_eq_none_of_size_le (by omega)]
      rfl
    rw [hclaims.bit_eq, Store.bit_of_not_isLive hdead]

/-- After a tick all bits above the cursors are what the gate makes of zeros. -/
theorem Unlent.tick {σ : Session k} (horderly : σ.Orderly) {ticked ticked' : Nat → Prop}
    (h : σ.Unlent ticked) (hall : ∀ n, n < σ.pool.bank.blockCount → ticked' n) :
    (σ.serve .tick).Unlent ticked' := by
  intro n i block hblock hcursor hi
  have hold := h n i block hblock hcursor hi
  have hmem := List.mem_of_getElem? hblock
  refine ⟨?_, fun _ => ?_, fun ht => absurd (hall n (List.getElem?_eq_some_iff.1 hblock).1) ht⟩
  · intro lane hlane
    exact (bit_tick_of_ne (ne_output horderly.tidy hmem hlane)).trans (hold.inputs lane hlane)
  · refine (bit_tick_output horderly.tidy horderly.live hmem hi).trans (congrArg k.bit ?_)
    funext lane
    exact hold.inputs lane lane.isLt

/-- The terminals of a gate do not reach above the cursor of any block. -/
theorem Unlent.edit {σ : Session k} (horderly : σ.Orderly) {ticked ticked' : Nat → Prop}
    (h : σ.Unlent ticked) (hticked : ∀ n, ticked' n ↔ ticked n) (gate : Nat) (lane : Fin k.arity)
    (e : Edit) : (σ.serve (.edit gate lane e)).Unlent ticked' := by
  rw [serve]
  split
  · rename_i terminals hgate
    have hmem := List.mem_of_getElem? hgate
    obtain ⟨s, hdone, hedited⟩ := horderly.exists_edit hmem lane e
    obtain ⟨m, j, seat, hseat, hseats⟩ := horderly.seated terminals hmem
    rw [hdone]
    intro n i block hblock hcursor hi
    refine (h n i block hblock hcursor hi).of_bit_eq ?_ (hticked n)
    intro lane' hlane'
    refine hedited.outside fun hcovers => ?_
    have heq := hseats.eq_of_covers hcovers
    obtain ⟨rfl, -⟩ := horderly.tidy.unique hblock hseat hlane' lane.isLt (congrArg Bit.cell heq)
    obtain rfl : block = seat := Option.some.inj (hblock.symm.trans hseat)
    obtain rfl : i = j := congrArg Bit.index heq
    exact absurd hseats.lent (Nat.not_lt.2 hcursor)
  · intro n i block hblock hcursor hi
    exact (h n i block hblock hcursor hi).of_bit_eq (fun _ _ => rfl) (hticked n)

/-- One more request leaves the bits above the cursors as nobody has ever held them. -/
theorem unlent_concat {s : Store} {requests : List (Request k)} (request : Request k)
    (h : (after s requests).Unlent (Ticked s requests)) :
    (after s (requests ++ [request])).Unlent (Ticked s (requests ++ [request])) := by
  have horderly := orderly_after s requests
  rw [after_concat]
  cases request with
  | lend =>
    obtain ⟨base, index, -, -, hclaims, -⟩ :=
      exists_lend (after s requests).pool (after s requests).store
    intro n i block hblock hcursor hi
    have hblank := h.of_claims (fun _ ht => ht.lt_blockCount) hclaims hblock hi fun old hold => by
      obtain ⟨block', hblock', -, hle⟩ := hclaims.getElem?_of_getElem? hold
      obtain rfl : block' = block := Option.some.inj (hblock'.symm.trans hblock)
      exact Nat.le_trans hle hcursor
    exact hblank.of_bit_eq (fun _ _ => rfl) (ticked_concat_of_ne nofun nofun)
  | tick => exact h.tick horderly fun n hn => ticked_concat.2 (.inl ⟨rfl, hn⟩)
  | clear =>
    intro n i block hblock hcursor hi
    refine .of_bit_false ?_ (by simp [ticked_concat])
    intro lane hlane
    refine (Store.bit_zero _ _ _).trans (if_pos (Bank.mem_cells.2 ⟨block, ?_, ?_, ?_⟩))
    · exact List.mem_of_getElem? hblock
    · exact Nat.le_add_right _ _
    · exact Nat.add_lt_add_left hlane _
  | edit gate lane e =>
    refine h.edit horderly ?_ gate lane e
    intro n
    exact ticked_concat_of_ne nofun nofun
  | create cells =>
    intro n i block hblock hcursor hi
    exact (h n i block hblock hcursor hi).of_bit_eq (fun _ _ => Store.bit_pushZeros _ _ _)
      (ticked_concat_of_ne nofun nofun)

/-- Whatever has been asked of a pool, the bits above the cursors are as nobody has ever held them. -/
theorem unlent_after (s : Store) (requests : List (Request k)) :
    (after s requests).Unlent (Ticked s requests) := by
  induction requests using List.reverseRecOn with
  | nil => exact fun _ _ _ hblock => nomatch hblock
  | append_singleton requests request ih => exact unlent_concat request ih

/-! ## The next gate -/

/-- The gate that is lent next gets a bit of block `n`.  Its inputs read zero, and so does its output,
unless it is an inverter in a block that has been ticked since it came to be and since the pool was
last cleared. -/
structure LendsNext (s : Store) (requests : List (Request k)) (n : Nat)
    (gate : Fin k.arity → Field) : Prop where
  lent : (after s (requests ++ [.lend])).gates = (after s requests).gates ++ [gate]
  seated : ∃ block i, (after s (requests ++ [.lend])).pool.bank.blocks[n]? = some block ∧
    block.Seats i gate
  inputs : ∀ lane : Fin k.inputs,
    (gate lane.castSucc).get (after s (requests ++ [.lend])).store = .ok 0
  output_one : k = .not → Ticked s requests n →
    (gate (Fin.last k.inputs)).get (after s (requests ++ [.lend])).store = .ok 1
  output_zero : ¬ (k = .not ∧ Ticked s requests n) →
    (gate (Fin.last k.inputs)).get (after s (requests ++ [.lend])).store = .ok 0

/-- Whatever has been asked of a pool, the next gate shows nothing of it but whether its block has been
ticked, and this only if it is an inverter. -/
theorem lend_shows (s : Store) (requests : List (Request k)) :
    ∃ n gate, LendsNext s requests n gate := by
  have horderly := orderly_after s requests
  obtain ⟨base, index, n, block, hclaims, hblock, rfl, hseats⟩ :=
    exists_lend (after s requests).pool (after s requests).store
  have hserve : (after s (requests ++ [.lend])) = (after s requests).serve .lend :=
    after_concat s requests .lend
  have hmem := List.mem_of_getElem? hblock
  have hlive := (horderly.serve .lend).live block hmem
  -- what is lent lay above the cursor of its block before
  have hnot := hclaims.not_lent (b := ⟨block.base, index⟩) horderly.tidy
    ⟨0, Nat.succ_pos _, rfl, Nat.le_refl _, Nat.lt_succ_self _⟩
  have hblank := (unlent_after s requests).of_claims (fun _ ht => ht.lt_blockCount) hclaims hblock
    hseats.index_lt fun old hold => by
      obtain ⟨grown, hgrown, hbase, -⟩ := hclaims.grows n old hold
      obtain rfl : grown = block := Option.some.inj (hgrown.symm.trans hblock)
      by_contra hlt
      exact hnot ⟨old, List.mem_of_getElem? hold, 0, Nat.succ_pos _, hbase, Nat.lt_of_not_le hlt⟩
  refine ⟨n, ((after s requests).pool.lend (after s requests).store).lent, ?_⟩
  refine ⟨?_, ?_, ?_, ?_, ?_⟩
  · rw [hserve]
    rfl
  · rw [hserve]
    exact ⟨block, index, hblock, hseats⟩
  · intro lane
    rw [hserve]
    exact hblank.get_input hseats hlive lane
  · rintro rfl hticked
    rw [hserve]
    exact hblank.get_output_one hseats hlive hticked
  · intro hnone
    rw [hserve]
    exact hblank.get_output_zero hseats hlive hnone

/-- An inverter that comes to a block after a tick shows the one that the tick has left there, and after
a clearing it shows nothing. -/
example :
    let σ : Session .not := after {} [.lend, .tick, .lend]
    let τ : Session .not := after {} [.lend, .tick, .clear, .lend]
    (σ.gates[1]?.map fun gate => (gate (1 : Fin 2)).get σ.store) = some (.ok 1) ∧
      (τ.gates[1]?.map fun gate => (gate (1 : Fin 2)).get τ.store) = some (.ok 0) :=
  ⟨rfl, rfl⟩

end Session

end GatePool

end PackedLogic
