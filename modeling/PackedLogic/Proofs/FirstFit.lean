import PackedLogic.Proofs.BankHistory
set_option autoImplicit false

/-!
# First fit

A request for a field is served at the cursor of the first block that has room for it, and a block is
appended only if none has (`Bank.firstFit_lend`).  So when a field makes the bank grow, every block
before the new one is too full for it; cursors never go back, so from then on any of these blocks and
the new one are more than full together (`Bank.Session.GrownFor.cellBits_lt`).  In a bank that lends
fields only, this holds of any two blocks, and so the blocks are more than half full on the average
(`Bank.Session.packs_first_fit`).
-/

namespace PackedLogic

/-- Numbers that are all above `h` have a mean of at least `h`. -/
theorem mul_length_le_total {h : Nat} {ns : List Nat} (hall : ∀ n ∈ ns, h < n) :
    h * ns.length ≤ total ns := by
  induction ns with
  | nil => exact Nat.zero_le _
  | cons n ns ih =>
    obtain ⟨hn, hns⟩ := List.forall_mem_cons.1 hall
    have hrest := ih hns
    rw [List.length_cons, Nat.mul_add_one, total_cons]
    omega

/-- Two or more numbers, any two of which have a mean above `h`, have a mean above `h` together. -/
theorem mul_length_lt_total {h : Nat} {ns : List Nat}
    (hpairs : ns.Pairwise fun m n => 2 * h < m + n) (hlength : 2 ≤ ns.length) :
    h * ns.length < total ns := by
  induction ns with
  | nil => cases hlength
  | cons m ns ih =>
    obtain ⟨hm, hns⟩ := List.pairwise_cons.1 hpairs
    rw [List.length_cons, Nat.mul_add_one, total_cons]
    rcases Nat.lt_or_ge h m with hlarge | hsmall
    · cases ns with
      | nil => simp at hlength
      | cons n ns =>
        cases ns with
        | nil =>
          have hpair := hm n List.mem_cons_self
          simp only [List.length_singleton, total_cons, total_nil]
          omega
        | cons n' ns =>
          have hrest := ih hns (by simp)
          omega
    · -- this number is below the mean, so all others are above it
      have habove : ∀ n ∈ ns, h < n := by
        intro n hn
        have hpair := hm n hn
        omega
      cases ns with
      | nil => simp at hlength
      | cons n ns =>
        have hpair := hm n List.mem_cons_self
        have hrest := mul_length_le_total (List.forall_mem_cons.1 habove).2
        rw [List.length_cons, Nat.mul_add_one, total_cons]
        omega

namespace Bank

variable {lanes width : Nat}

/-- In all lanes, the bits of the block from `index` on are lent. -/
def HandsOut (block : Block) (index width : Nat) (lent : Fin lanes → Field) : Prop :=
  ∀ lane, (lent lane).ref = block.ref lane ∧ (lent lane).offset = index ∧
    (lent lane).width = width

/-- The bits are lent by the first block with room for them, from its cursor on, or else by a new block
of cells that come to be at the end of the store. -/
inductive FirstFit (bank : Bank lanes) (s : Store) (width : Nat)
    (l : Lending lanes (Fin lanes → Field)) : Prop
  | reuse (before rest : List Block) (block block' : Block)
      (hblocks : bank.blocks = before ++ block :: rest)
      (hfull : ∀ b ∈ before, cellBits < b.cursor + width)
      (hroom : block.cursor + width ≤ cellBits)
      (hblocks' : l.bank.blocks = before ++ block' :: rest) (hbase : block'.base = block.base)
      (hcursor : block'.cursor = block.cursor + width)
      (hlent : HandsOut block' block.cursor width l.lent)
  | append (block' : Block) (hfull : ∀ b ∈ bank.blocks, cellBits < b.cursor + width)
      (hblocks' : l.bank.blocks = bank.blocks ++ [block']) (hbase : block'.base = s.size)
      (hcursor : block'.cursor = width) (hlent : HandsOut block' 0 width l.lent)

theorem firstFit_lend (b : Bank lanes) (fits : width ≤ cellBits) (s : Store) :
    FirstFit b s width (b.lend width fits s) := by
  have hfull : ∀ {block : Block}, ¬ block.HasRoom width → cellBits < block.cursor + width :=
    Nat.lt_of_not_le
  unfold lend
  split
  · rename_i slot blocks hfit
    obtain ⟨before, rest, hblocks, rfl, hbefore⟩ := firstFit_eq_some_iff.1 hfit
    exact .reuse before rest slot.block slot.claimed hblocks (fun b hb => hfull (hbefore b hb))
      slot.room rfl rfl rfl fun lane => ⟨rfl, rfl, rfl⟩
  · rename_i hnone
    exact .append _ (fun b hb => hfull (firstFit_eq_none_iff.1 hnone b hb)) rfl rfl
      (Nat.zero_add width) fun lane => ⟨rfl, rfl, rfl⟩

namespace FirstFit

variable {bank : Bank lanes} {s : Store} {l : Lending lanes (Fin lanes → Field)}

/-- A block is appended just when no block has room. -/
theorem blockCount_eq (h : FirstFit bank s width l) : l.bank.blockCount =
    if ∃ b ∈ bank.blocks, b.cursor + width ≤ cellBits then bank.blockCount
    else bank.blockCount + 1 := by
  cases h with
  | reuse before rest block block' hblocks _ hroom hblocks' =>
    rw [if_pos ⟨block, by simp [hblocks], hroom⟩]
    simp [blockCount, hblocks, hblocks']
  | append block' hfull hblocks' =>
    rw [if_neg fun ⟨b, hb, hroom⟩ => absurd hroom (Nat.not_le.2 (hfull b hb))]
    simp [blockCount, hblocks']

/-- The old blocks had no room for the field that fills the new one. -/
theorem cellBits_lt_of_grown (h : FirstFit bank s width l)
    (hgrown : l.bank.blockCount = bank.blockCount + 1) {i : Nat} (hi : i < bank.blockCount)
    {block block' : Block} (hblock : l.bank.blocks[i]? = some block)
    (hblock' : l.bank.blocks[bank.blockCount]? = some block') :
    cellBits < block.cursor + block'.cursor := by
  cases h with
  | reuse before rest reused grown hblocks _ _ hblocks' =>
    simp [blockCount, hblocks, hblocks'] at hgrown
  | append new hfull hblocks' _ hcursor =>
    rw [hblocks', List.getElem?_append_left hi] at hblock
    rw [hblocks', blockCount, List.getElem?_concat_length] at hblock'
    obtain rfl := Option.some.inj hblock'
    rw [hcursor]
    exact hfull block (List.mem_of_getElem? hblock)

end FirstFit

/-- How many bits per lane a request for a field gets. -/
def Request.granted : {lanes : Nat} → Request lanes → Nat
  | _, .fields width => if width ≤ cellBits then width else 0
  | _, _ => 0

namespace Session

variable {s : Store} {requests : List (Request lanes)}

/-- Block `j` was appended for a field. -/
def GrownFor (s : Store) (requests : List (Request lanes)) (j : Nat) : Prop :=
  ∃ before width later, requests = before ++ .fields width :: later ∧
    (after s before).bank.blockCount = j ∧
      (after s (before ++ [.fields width])).bank.blockCount = j + 1

theorem GrownFor.concat {j : Nat} (h : GrownFor s requests j) (request : Request lanes) :
    GrownFor s (requests ++ [request]) j := by
  obtain ⟨before, width, later, rfl, hcount, hcount'⟩ := h
  exact ⟨before, width, later ++ [request], by simp, hcount, hcount'⟩

/-- A block that was appended for a field and any block before it are more than full together. -/
theorem GrownFor.cellBits_lt {i j : Nat} (h : GrownFor s requests j) (hij : i < j)
    {block block' : Block} (hblock : (after s requests).bank.blocks[i]? = some block)
    (hblock' : (after s requests).bank.blocks[j]? = some block') :
    cellBits < block.cursor + block'.cursor := by
  obtain ⟨before, width, later, rfl, rfl, hcount⟩ := h
  rw [List.append_cons, after_append] at hblock hblock'
  rw [after_concat] at hcount hblock hblock'
  have hgrows := grows_run ((after s before).serve (.fields width)) later
  rcases Nat.lt_or_ge cellBits width with hwide | fits
  · rw [serve_fields_of_wide _ hwide] at hcount
    exact absurd hcount (Nat.ne_of_lt (Nat.lt_succ_self _))
  · rw [serve_fields_of_fits _ fits] at hcount hgrows hblock hblock'
    have hfirst := firstFit_lend (after s before).bank fits (after s before).store
    have hlength : (after s before).bank.blockCount <
        ((after s before).bank.lend width fits (after s before).store).bank.blocks.length :=
      Nat.lt_of_lt_of_eq (Nat.lt_succ_self _) hcount.symm
    -- at that moment both were too full together, and no cursor has gone back since
    have hold := List.getElem?_eq_getElem (Nat.lt_trans hij hlength)
    have hnew := List.getElem?_eq_getElem hlength
    have hlt := hfirst.cellBits_lt_of_grown hcount hij hold hnew
    obtain ⟨later₁, hlater₁, -, hle₁⟩ := hgrows i _ hold
    obtain ⟨later₂, hlater₂, -, hle₂⟩ := hgrows _ _ hnew
    obtain rfl : later₁ = block := Option.some.inj (hlater₁.symm.trans hblock)
    obtain rfl : later₂ = block' := Option.some.inj (hlater₂.symm.trans hblock')
    omega

/-! ## Banks that lend fields only -/

/-- Nothing else is lent but fields. -/
def FieldsOnly (requests : List (Request lanes)) : Prop :=
  ∀ request ∈ requests, request.IsLending → ∃ width, request = .fields width

/-- All blocks were appended for fields, and what is lent of them are the fields. -/
structure Filled (s : Store) (requests : List (Request lanes)) : Prop where
  grown : ∀ j < (after s requests).bank.blockCount, GrownFor s requests j
  lentBits : (after s requests).bank.lentBits = total (requests.map Request.granted)

theorem bank_serve_of_not_isLending (σ : Session lanes) {request : Request lanes}
    (h : ¬ request.IsLending) : (σ.serve request).bank = σ.bank := by
  cases request with
  | fields | whole | bridge => exact absurd trivial h
  | clear | write | create => rfl

theorem granted_of_not_isLending {request : Request lanes} (h : ¬ request.IsLending) :
    request.granted = 0 := by
  cases request with
  | fields | whole | bridge => exact absurd trivial h
  | clear | write | create => rfl

theorem filled_nil (s : Store) : Filled s ([] : List (Request lanes)) := ⟨nofun, rfl⟩

/-- A request that leaves the bank as it is and gets nothing makes no difference. -/
theorem Filled.concat_of_bank_eq (h : Filled s requests) {request : Request lanes}
    (hbank : (after s (requests ++ [request])).bank = (after s requests).bank)
    (hgranted : request.granted = 0) : Filled s (requests ++ [request]) := by
  constructor
  · intro j hj
    rw [hbank] at hj
    exact (h.grown j hj).concat request
  · rw [hbank, h.lentBits]
    simp [hgranted]

theorem Filled.concat_fields (h : Filled s requests) (fits : width ≤ cellBits) :
    Filled s (requests ++ [.fields width]) := by
  have hserve := serve_fields_of_fits (after s requests) fits
  rw [← after_concat] at hserve
  have hcount : (after s (requests ++ [.fields width])).bank.blockCount ≤
      (after s requests).bank.blockCount + 1 := by
    rw [hserve, (firstFit_lend (after s requests).bank fits (after s requests).store).blockCount_eq]
    split <;> omega
  constructor
  · intro j hj
    rcases Nat.lt_or_ge j (after s requests).bank.blockCount with hold | hnew
    · exact (h.grown j hold).concat _
    · exact ⟨requests, width, [], rfl, by omega, by omega⟩
  · rw [hserve, lentBits_lend, h.lentBits]
    simp [Request.granted, fits]

/-- In a history of fields, all blocks are filled with fields. -/
theorem filled_after (s : Store) (h : FieldsOnly requests) : Filled s requests := by
  induction requests using List.reverseRecOn with
  | nil => exact filled_nil s
  | append_singleton requests request ih =>
    have hfilled := ih fun r hr => h r (List.mem_append_left _ hr)
    by_cases hlending : request.IsLending
    · obtain ⟨width, rfl⟩ := h request (by simp) hlending
      rcases Nat.lt_or_ge cellBits width with hwide | fits
      · refine hfilled.concat_of_bank_eq ?_ (if_neg (Nat.not_le.2 hwide))
        rw [after_concat, serve_fields_of_wide _ hwide]
      · exact hfilled.concat_fields fits
    · refine hfilled.concat_of_bank_eq ?_ (granted_of_not_isLending hlending)
      rw [after_concat, bank_serve_of_not_isLending _ hlending]

/-- Any two blocks that are filled with fields are more than full together. -/
theorem Filled.pairwise_cursor (h : Filled s requests) :
    ((after s requests).bank.blocks.map Block.cursor).Pairwise fun m n => cellBits < m + n := by
  rw [List.pairwise_map, List.pairwise_iff_getElem]
  intro i j hi hj hij
  exact (h.grown j hj).cellBits_lt hij (List.getElem?_eq_getElem hi) (List.getElem?_eq_getElem hj)

/-- A bank serves requests for fields by first fit, and this keeps its blocks full. -/
structure PacksFirstFit (s : Store) (requests : List (Request lanes)) : Prop where
  /-- What no cell can hold is refused, and nothing changes. -/
  refused : ∀ width, cellBits < width → (after s requests).serve (.fields width) =
    { after s requests with
      replies := (after s requests).replies ++ [.refused (.widthExceedsCapacity width)] }
  /-- All else is served at the cursor of the first block with room. -/
  served : ∀ width, width ≤ cellBits →
    ∃ l, FirstFit (after s requests).bank (after s requests).store width l ∧
      (after s requests).serve (.fields width) =
        ⟨l.bank, l.store, (after s requests).replies ++ [.fields l.lent]⟩
  /-- A block that was appended for a field and any block before it are more than full together. -/
  packed : ∀ (i j : Nat) (block block' : Block), GrownFor s requests j → i < j →
    (after s requests).bank.blocks[i]? = some block →
      (after s requests).bank.blocks[j]? = some block' → 64 < block.cursor + block'.cursor
  /-- Where only fields are lent, at most one block is half full or less. -/
  half : FieldsOnly requests → ∀ (i j : Nat) (block block' : Block),
    (after s requests).bank.blocks[i]? = some block →
      (after s requests).bank.blocks[j]? = some block' →
        block.cursor ≤ 32 → block'.cursor ≤ 32 → i = j
  /-- Where only fields are lent, two or more blocks are more than half full on the average. -/
  dense : FieldsOnly requests → 2 ≤ (after s requests).bank.blockCount →
    32 * (after s requests).bank.blockCount < total (requests.map Request.granted)

/-- Whatever has been asked of a bank, it serves the next field by first fit, and its blocks are as full
as first fit makes them. -/
theorem packs_first_fit (s : Store) (requests : List (Request lanes)) :
    PacksFirstFit s requests := by
  refine ⟨fun width => serve_fields_of_wide _, ?_, ?_, ?_, ?_⟩
  · intro width fits
    exact ⟨_, firstFit_lend _ fits _, serve_fields_of_fits _ fits⟩
  · intro i j block block' hgrown hij hblock hblock'
    exact hgrown.cellBits_lt hij hblock hblock'
  · intro hfields i j block block' hblock hblock' hhalf hhalf'
    have hgrown : ∀ {k : Nat} {b : Block}, (after s requests).bank.blocks[k]? = some b →
        GrownFor s requests k :=
      fun hb => (filled_after s hfields).grown _ (List.getElem?_eq_some_iff.1 hb).1
    rcases Nat.lt_trichotomy i j with hlt | heq | hgt
    · have hsum := (hgrown hblock').cellBits_lt hlt hblock hblock'
      rw [cellBits_eq] at hsum
      omega
    · exact heq
    · have hsum := (hgrown hblock).cellBits_lt hgt hblock' hblock
      rw [cellBits_eq] at hsum
      omega
  · intro hfields hcount
    have hfilled := filled_after s hfields
    rw [← hfilled.lentBits]
    have hmean := mul_length_lt_total (h := 32) hfilled.pairwise_cursor
      (by rwa [List.length_map])
    rwa [List.length_map] at hmean

/-- The second field does not fit behind the first one, and the third one does. -/
example : ((after {} [.fields 40, .fields 30, .fields 20, .fields 65] : Session 2).bank.blocks.map
    Block.cursor) = [60, 30] := by decide

end Session

end Bank

end PackedLogic
