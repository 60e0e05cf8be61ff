import PackedLogic.Proofs.Lending
import Mathlib.Data.List.Forall2
import Mathlib.Data.List.Induction
set_option autoImplicit false

/-!
# The history of a bank

A bank answers requests one after the other, in any order and for any number of lanes, while others
create cells in the same store and write into all of them.  Two facts carry everything: the cells of
different blocks lie apart (`Bank.Tidy`), and what a reply hands out lay above all cursors before it
and lies below one of them afterwards (`Claims.not_lent`, `Claims.lent`).  So no two replies ever
share a bit (`Bank.Session.keepsApart`).
-/

namespace PackedLogic

namespace Bank

variable {lanes : Nat}

/-! ## Requests and replies -/

/-- What may be asked of a bank, and what others may do to the store in between. -/
inductive Request : Nat → Type
  /-- Lends a field of this width in every lane. -/
  | fields {lanes : Nat} (width : Nat) : Request lanes
  /-- Lends the cells of a new block whole. -/
  | whole {lanes : Nat} : Request lanes
  /-- Lays views over a new cell. -/
  | bridge (views : List (List Nat)) : Request 1
  /-- Overwrites all cells of the bank with zero. -/
  | clear {lanes : Nat} : Request lanes
  /-- Anyone writes into a cell, of this bank or another. -/
  | write {lanes : Nat} (cell : Nat) (w : Word) : Request lanes
  /-- Another owner creates cells in the store. -/
  | create {lanes : Nat} (cells : Nat) : Request lanes

/-- The request lends something, if it is granted. -/
def Request.IsLending : {lanes : Nat} → Request lanes → Prop
  | _, .fields _ | _, .whole | _, .bridge _ => True
  | _, .clear | _, .write _ _ | _, .create _ => False

/-- What a request is answered with. -/
inductive Reply (lanes : Nat)
  | fields (lent : Fin lanes → Field)
  | cells (lent : Fin lanes → CellRef)
  | views (lent : List (List Field))
  | refused (fault : Fault)
  | nothing

/-- The bit is among those that a reply hands out. -/
def Reply.Hands : Reply lanes → Bit → Prop
  | fields lent, b => ∃ lane, (lent lane).Covers b
  | cells lent, b => b.index < cellBits ∧ ∃ lane, (lent lane).cell? = some b.cell
  | views lent, b => ∃ view ∈ lent, ∃ f ∈ view, f.Covers b
  | refused _, _ | nothing, _ => False

/-- A bank at work on a store, with all replies given so far. -/
structure Session (lanes : Nat) where
  bank : Bank lanes := {}
  store : Store := {}
  replies : List (Reply lanes) := []

namespace Session

/-- Takes over what was lent, unless it was refused. -/
def accept {α : Type} (σ : Session lanes) (reply : α → Reply lanes) :
    Except Fault (Lending lanes α) → Session lanes
  | .ok l => ⟨l.bank, l.store, σ.replies ++ [reply l.lent]⟩
  | .error fault => { σ with replies := σ.replies ++ [.refused fault] }

/-- Answers one request. -/
def serve : {lanes : Nat} → Session lanes → Request lanes → Session lanes
  | _, σ, .fields width => σ.accept .fields (σ.bank.lend? width σ.store)
  | _, σ, .whole => σ.accept .cells (.ok (σ.bank.lendWhole σ.store))
  | _, σ, .bridge views => σ.accept .views (σ.bank.bridge? views σ.store)
  | _, σ, .clear => { σ with store := σ.bank.clear σ.store, replies := σ.replies ++ [.nothing] }
  | _, σ, .write cell w =>
    { σ with store := σ.store.write cell w, replies := σ.replies ++ [.nothing] }
  | _, σ, .create cells =>
    { σ with store := σ.store.pushZeros cells, replies := σ.replies ++ [.nothing] }

/-- Answers requests in order. -/
def run (σ : Session lanes) (requests : List (Request lanes)) : Session lanes :=
  requests.foldl serve σ

/-- An empty bank on a store, after some requests. -/
def after (s : Store) (requests : List (Request lanes)) : Session lanes := run { store := s } requests

theorem after_concat (s : Store) (requests : List (Request lanes)) (request : Request lanes) :
    after s (requests ++ [request]) = (after s requests).serve request := by
  simp [after, run]

theorem after_append (s : Store) (before later : List (Request lanes)) :
    after s (before ++ later) = (after s before).run later := by
  simp [after, run]

end Session

/-! ## Blocks over time -/

/-- The bit has been lent: it lies below the cursor of its block. -/
def Lent (bank : Bank lanes) (b : Bit) : Prop :=
  ∃ block ∈ bank.blocks, ∃ lane < lanes, b.cell = block.base + lane ∧ b.index < block.cursor

/-- No block is taken away, moved to another position or gets bits back. -/
def Grows (bank bank' : Bank lanes) : Prop :=
  ∀ (k : Nat) (block : Block), bank.blocks[k]? = some block → ∃ block',
    bank'.blocks[k]? = some block' ∧ block'.base = block.base ∧ block.cursor ≤ block'.cursor

theorem Grows.refl (bank : Bank lanes) : bank.Grows bank :=
  fun _ block hblock => ⟨block, hblock, rfl, Nat.le_refl _⟩

theorem Grows.trans {bank bank' bank'' : Bank lanes} (h : bank.Grows bank')
    (h' : bank'.Grows bank'') : bank.Grows bank'' := by
  intro k block hblock
  obtain ⟨block', hblock', hbase, hcursor⟩ := h k block hblock
  obtain ⟨block'', hblock'', hbase', hcursor'⟩ := h' k block' hblock'
  exact ⟨block'', hblock'', hbase'.trans hbase, Nat.le_trans hcursor hcursor'⟩

/-- The blocks lie in the store one behind the other. -/
structure Tidy (bank : Bank lanes) (s : Store) : Prop where
  apart : (bank.blocks.map Block.base).Pairwise fun c c' => c + lanes ≤ c'
  below : ∀ c ∈ bank.blocks.map Block.base, c + lanes ≤ s.size

namespace Tidy

variable {bank : Bank lanes} {s : Store}

theorem mono (h : bank.Tidy s) {s' : Store} (hsize : s.size ≤ s'.size) : bank.Tidy s' :=
  ⟨h.apart, fun c hc => Nat.le_trans (h.below c hc) hsize⟩

/-- A cell determines its block and its lane. -/
theorem unique (h : bank.Tidy s) {k k' lane lane' : Nat} {block block' : Block}
    (hblock : bank.blocks[k]? = some block) (hblock' : bank.blocks[k']? = some block')
    (hlane : lane < lanes) (hlane' : lane' < lanes)
    (heq : block.base + lane = block'.base + lane') : k = k' ∧ lane = lane' := by
  have hapart := List.pairwise_iff_getElem.1 (List.pairwise_map.1 h.apart)
  obtain ⟨hk, rfl⟩ := List.getElem?_eq_some_iff.1 hblock
  obtain ⟨hk', rfl⟩ := List.getElem?_eq_some_iff.1 hblock'
  rcases Nat.lt_trichotomy k k' with hlt | rfl | hgt
  · have hle := hapart k k' hk hk' hlt
    omega
  · exact ⟨rfl, by omega⟩
  · have hle := hapart k' k hk' hk hgt
    omega

end Tidy

end Bank

/-! ## What one claim does -/

/-- The bit lies in a row of bits, the same in every lane of the block at `base`. -/
def InRow (lanes base index width : Nat) (b : Bit) : Prop :=
  ∃ lane < lanes, b.cell = base + lane ∧ index ≤ b.index ∧ b.index < index + width

namespace Claims

variable {lanes width base index : Nat} {bank bank' : Bank lanes} {s s' : Store} {b : Bit}

theorem grows (h : Claims lanes width bank.blocks bank'.blocks s s' base index) :
    bank.Grows bank' :=
  fun _ _ hblock => h.getElem?_of_getElem? hblock

/-- The blocks keep their cells, and a new block gets new ones. -/
theorem tidy (h : Claims lanes width bank.blocks bank'.blocks s s' base index)
    (htidy : bank.Tidy s) : bank'.Tidy s' := by
  cases h with
  | reuse before claimed rest room hblocks hblocks' hstore =>
    have hbases : bank'.blocks.map Block.base = bank.blocks.map Block.base := by
      simp [hblocks, hblocks', Block.claim]
    rw [hstore]
    exact ⟨hbases ▸ htidy.apart, hbases ▸ htidy.below⟩
  | append new hblocks' hstore hblock =>
    have hbases : bank'.blocks.map Block.base = bank.blocks.map Block.base ++ [s.size] := by
      simp [hblocks', hblock]
    constructor
    · rw [hbases, List.pairwise_append]
      refine ⟨htidy.apart, List.pairwise_singleton _ _, ?_⟩
      intro c hc c' hc'
      obtain rfl := List.mem_singleton.1 hc'
      exact htidy.below c hc
    · intro c hc
      rw [hstore, Store.size_pushZeros]
      rw [hbases] at hc
      rcases List.mem_append.1 hc with hold | hnew
      · exact Nat.le_trans (htidy.below c hold) (Nat.le_add_right _ _)
      · exact Nat.le_of_eq (congrArg (· + lanes) (List.mem_singleton.1 hnew))

/-- The claimed bits lay above the cursors of all blocks. -/
theorem not_lent (h : Claims lanes width bank.blocks bank'.blocks s s' base index)
    (htidy : bank.Tidy s) (hb : InRow lanes base index width b) : ¬ bank.Lent b := by
  obtain ⟨lane, hlane, hcell, hlow, -⟩ := hb
  rintro ⟨block, hblock, lane', hlane', hcell', hcursor⟩
  cases h with
  | reuse before claimed rest room hblocks _ _ hbase hindex =>
    obtain ⟨k, hk⟩ := List.getElem?_of_mem hblock
    have hclaimed : bank.blocks[before.length]? = some claimed := by simp [hblocks]
    obtain ⟨rfl, -⟩ := htidy.unique hk hclaimed hlane' hlane (by omega)
    obtain rfl : block = claimed := Option.some.inj (hk.symm.trans hclaimed)
    omega
  | append _ _ _ _ _ hbase =>
    have hbelow := htidy.below block.base (List.mem_map_of_mem hblock)
    omega

/-- The block that gave the bits has a position in the bank. -/
theorem exists_getElem? {blocks blocks' : List Block}
    (h : Claims lanes width blocks blocks' s s' base index) : ∃ (k : Nat) (block : Block),
      blocks'[k]? = some block ∧ block.base = base ∧ block.cursor = index + width := by
  obtain ⟨block, hblock, hbase, hcursor⟩ := h.exists_mem
  obtain ⟨k, hk⟩ := List.getElem?_of_mem hblock
  exact ⟨k, block, hk, hbase, hcursor⟩

/-- The claimed bits are lent from now on. -/
theorem lent (h : Claims lanes width bank.blocks bank'.blocks s s' base index)
    (hb : InRow lanes base index width b) : bank'.Lent b := by
  obtain ⟨lane, hlane, hcell, -, hindex⟩ := hb
  obtain ⟨block, hblock, hbase, hcursor⟩ := h.exists_mem
  exact ⟨block, hblock, lane, hlane, by omega, by omega⟩

end Claims

namespace Bank

variable {lanes : Nat} {b : Bit}

/-! ## Replies -/

/-- The reply is what the request is to get: places in a block of the bank, or the reason why there
are none. -/
inductive Answers : {lanes : Nat} → Bank lanes → Request lanes → Reply lanes → Prop
  /-- All lanes get the same bits of one block, lane `i` in the block's cell `i`. -/
  | fields {lanes width k offset : Nat} {bank : Bank lanes} {block : Block}
      {lent : Fin lanes → Field} (fits : width ≤ cellBits) (hblock : bank.blocks[k]? = some block)
      (hcursor : offset + width ≤ block.cursor)
      (hlent : ∀ lane : Fin lanes, (lent lane).ref = block.ref lane ∧
        (lent lane).offset = offset ∧ (lent lane).width = width) :
      Answers bank (.fields width) (.fields lent)
  | wide {lanes width : Nat} {bank : Bank lanes} (wide : cellBits < width) :
      Answers bank (.fields width) (.refused (.widthExceedsCapacity width))
  | whole {lanes k : Nat} {bank : Bank lanes} {block : Block} {lent : Fin lanes → CellRef}
      (hblock : bank.blocks[k]? = some block) (hcursor : block.cursor = cellBits)
      (hlent : ∀ lane : Fin lanes, lent lane = block.ref lane) : Answers bank .whole (.cells lent)
  | bridge {k : Nat} {bank : Bank 1} {views : List (List Nat)} {block : Block}
      (fits : ∀ widths ∈ views, total widths ≤ cellBits) (hblock : bank.blocks[k]? = some block)
      (hcursor : block.cursor = cellBits) :
      Answers bank (.bridge views) (.views (views.map fun widths =>
        (Span.tiles widths).map fun span => ⟨span, block.ref 0⟩))
  | oversized {bank : Bank 1} {views : List (List Nat)}
      (wide : ¬ ∀ widths ∈ views, total widths ≤ cellBits) :
      Answers bank (.bridge views) (.refused (oversizedView views))
  | clear {lanes : Nat} {bank : Bank lanes} : Answers bank .clear .nothing
  | write {lanes cell : Nat} {w : Word} {bank : Bank lanes} :
      Answers bank (.write cell w) .nothing
  | create {lanes cells : Nat} {bank : Bank lanes} : Answers bank (.create cells) .nothing

theorem Grows.lent {bank bank' : Bank lanes} (h : bank.Grows bank') (hb : bank.Lent b) :
    bank'.Lent b := by
  obtain ⟨block, hblock, lane, hlane, hcell, hindex⟩ := hb
  obtain ⟨k, hk⟩ := List.getElem?_of_mem hblock
  obtain ⟨block', hblock', hbase, hcursor⟩ := h k block hk
  exact ⟨block', List.mem_of_getElem? hblock', lane, hlane, by omega, by omega⟩

theorem Grows.ref {bank bank' : Bank lanes} (h : bank.Grows bank') {k : Nat} {block : Block}
    (hblock : bank.blocks[k]? = some block) : ∃ block', bank'.blocks[k]? = some block' ∧
      block'.ref = block.ref ∧ block.cursor ≤ block'.cursor := by
  obtain ⟨block', hblock', hbase, hcursor⟩ := h k block hblock
  refine ⟨block', hblock', ?_, hcursor⟩
  funext lane
  simp [Block.ref, hbase]

/-- A reply stays true while the bank grows. -/
theorem Answers.mono {bank bank' : Bank lanes} {request : Request lanes} {reply : Reply lanes}
    (h : bank.Answers request reply) (hgrows : bank.Grows bank') :
    bank'.Answers request reply := by
  cases h with
  | fields fits hblock hcursor hlent =>
    obtain ⟨block', hblock', href, hle⟩ := hgrows.ref hblock
    exact .fields fits hblock' (Nat.le_trans hcursor hle) (href ▸ hlent)
  | wide hwide => exact .wide hwide
  | whole hblock hcursor hlent =>
    obtain ⟨block', hblock', href, hle⟩ := hgrows.ref hblock
    exact .whole hblock' (Nat.le_antisymm block'.cursor_le (hcursor ▸ hle)) (href ▸ hlent)
  | bridge fits hblock hcursor =>
    obtain ⟨block', hblock', href, hle⟩ := hgrows.ref hblock
    exact href ▸ .bridge fits hblock' (Nat.le_antisymm block'.cursor_le (hcursor ▸ hle))
  | oversized hwide => exact .oversized hwide
  | clear => exact .clear
  | write => exact .write
  | create => exact .create

namespace Reply

theorem inRow_of_fields {base index width : Nat} {lent : Fin lanes → Field}
    (hlent : ∀ lane, (lent lane).ref = .ofCell (base + lane) ∧ (lent lane).offset = index ∧
      (lent lane).width = width) (hb : (fields lent).Hands b) : InRow lanes base index width b := by
  obtain ⟨lane, hcovers⟩ := hb
  obtain ⟨href, rfl, rfl⟩ := hlent lane
  obtain ⟨hcell, hlow, hhigh⟩ := Field.covers_iff.1 hcovers
  rw [href] at hcell
  exact ⟨lane, lane.isLt, (Option.some.inj hcell).symm, hlow, hhigh⟩

theorem inRow_of_cells {base : Nat} {lent : Fin lanes → CellRef}
    (hlent : ∀ lane, lent lane = .ofCell (base + lane)) (hb : (cells lent).Hands b) :
    InRow lanes base 0 cellBits b := by
  obtain ⟨hindex, lane, hcell⟩ := hb
  rw [hlent lane] at hcell
  exact ⟨lane, lane.isLt, (Option.some.inj hcell).symm, Nat.zero_le _, by omega⟩

theorem inRow_of_views {base : Nat} {views : List (List Nat)}
    (hb : (Reply.views (views.map fun widths =>
      (Span.tiles widths).map fun span => ⟨span, .ofCell base⟩) : Reply 1).Hands b) :
    InRow 1 base 0 cellBits b := by
  obtain ⟨view, hview, f, hf, hcovers⟩ := hb
  obtain ⟨widths, -, rfl⟩ := List.mem_map.1 hview
  obtain ⟨span, -, rfl⟩ := List.mem_map.1 hf
  obtain ⟨hcell, hindex⟩ := Field.covers_iff.1 hcovers
  have hlt := Span.lt_of_mem hindex
  exact ⟨0, Nat.one_pos, (Option.some.inj hcell).symm, Nat.zero_le _, by rwa [Nat.zero_add]⟩

end Reply

/-! ## Sessions -/

namespace Session

/-- What serving a request does to the bank: it claims a row of bits, and the reply hands out bits of
that row only, or it leaves the bank alone and hands out nothing. -/
inductive Moves (σ : Session lanes) (request : Request lanes) (σ' : Session lanes)
    (reply : Reply lanes) : Prop
  | claim {width base index : Nat}
      (hclaims : Claims lanes width σ.bank.blocks σ'.bank.blocks σ.store σ'.store base index)
      (hrow : ∀ b, reply.Hands b → InRow lanes base index width b)
  | idle (hbank : σ'.bank = σ.bank) (hsize : σ.store.size ≤ σ'.store.size)
      (hlending : request.IsLending → σ'.store = σ.store) (hnothing : ∀ b, ¬ reply.Hands b)

theorem Moves.refused {σ : Session lanes} {request : Request lanes} {replies : List (Reply lanes)}
    (fault : Fault) : Moves σ request { σ with replies } (.refused fault) :=
  .idle rfl (Nat.le_refl _) (fun _ => rfl) fun _ => id

/-- One session is the other after a request and its reply. -/
structure Serves (σ : Session lanes) (request : Request lanes) (σ' : Session lanes)
    (reply : Reply lanes) : Prop where
  replies : σ'.replies = σ.replies ++ [reply]
  answers : σ'.bank.Answers request reply
  moves : Moves σ request σ' reply

theorem serve_fields_of_fits (σ : Session lanes) {width : Nat} (fits : width ≤ cellBits) :
    σ.serve (.fields width) = ⟨(σ.bank.lend width fits σ.store).bank,
      (σ.bank.lend width fits σ.store).store,
      σ.replies ++ [.fields (σ.bank.lend width fits σ.store).lent]⟩ := by
  rw [serve, lend?_of_fits _ fits]
  rfl

theorem serve_fields_of_wide (σ : Session lanes) {width : Nat} (hwide : cellBits < width) :
    σ.serve (.fields width) =
      { σ with replies := σ.replies ++ [.refused (.widthExceedsCapacity width)] } := by
  rw [serve, lend?_of_wide _ hwide]
  rfl

theorem serves_fields (σ : Session lanes) (width : Nat) :
    ∃ reply, Serves σ (.fields width) (σ.serve (.fields width)) reply := by
  by_cases fits : width ≤ cellBits
  · obtain ⟨base, index, hclaims, hlent⟩ := σ.bank.claims_lend width fits σ.store
    obtain ⟨k, block, hblock, rfl, hcursor⟩ := hclaims.exists_getElem?
    rw [serve_fields_of_fits σ fits]
    refine ⟨_, rfl, .fields fits hblock (Nat.le_of_eq hcursor.symm) hlent, .claim hclaims ?_⟩
    intro b hb
    exact Reply.inRow_of_fields hlent hb
  · rw [serve_fields_of_wide σ (Nat.lt_of_not_le fits)]
    exact ⟨_, rfl, .wide (Nat.lt_of_not_le fits), .refused _⟩

theorem serves_whole (σ : Session lanes) :
    ∃ reply, Serves σ .whole (σ.serve .whole) reply := by
  have hclaims := σ.bank.claims_lendWhole σ.store
  obtain ⟨k, block, hblock, hbase, hcursor⟩ := hclaims.exists_getElem?
  have hlent : ∀ lane, (σ.bank.lendWhole σ.store).lent lane = block.ref lane := by
    intro lane
    simp [lendWhole, Block.ref, Block.whole, hbase]
  refine ⟨_, rfl, .whole hblock (by omega) hlent, .claim hclaims ?_⟩
  intro b hb
  exact Reply.inRow_of_cells (fun lane => rfl) hb

theorem serves_bridge (σ : Session 1) (views : List (List Nat)) :
    ∃ reply, Serves σ (.bridge views) (σ.serve (.bridge views)) reply := by
  by_cases fits : ∀ widths ∈ views, total widths ≤ cellBits
  · have hclaims := σ.bank.claims_lendWhole σ.store
    obtain ⟨k, block, hblock, hbase, hcursor⟩ := hclaims.exists_getElem?
    have href : block.ref 0 = .ofCell σ.store.size := by simp [Block.ref, hbase]
    rw [serve, σ.bank.bridge?_of_fits σ.store fits]
    refine ⟨_, rfl, ?_, .claim hclaims ?_⟩
    · rw [← href]
      exact .bridge fits hblock (by omega)
    · intro b hb
      exact Reply.inRow_of_views hb
  · rw [serve, σ.bank.bridge?_of_wide σ.store fits]
    exact ⟨_, rfl, .oversized fits, .refused _⟩

/-- Every request is answered as it is to be. -/
theorem exists_serves (σ : Session lanes) (request : Request lanes) :
    ∃ reply, Serves σ request (σ.serve request) reply := by
  cases request with
  | fields width => exact σ.serves_fields width
  | whole => exact σ.serves_whole
  | bridge views => exact σ.serves_bridge views
  | clear =>
    have hsize := (σ.store.sameCells_zero σ.bank.cells).size
    exact ⟨_, rfl, .clear, .idle rfl (Nat.le_of_eq hsize.symm) False.elim fun _ => id⟩
  | write cell w =>
    have hsize := Store.size_modify σ.store cell fun _ => w
    exact ⟨_, rfl, .write, .idle rfl (Nat.le_of_eq hsize.symm) False.elim fun _ => id⟩
  | create cells =>
    have hsize := Store.size_pushZeros σ.store cells
    exact ⟨_, rfl, .create, .idle rfl (hsize ▸ Nat.le_add_right _ _) False.elim fun _ => id⟩

namespace Serves

variable {σ σ' : Session lanes} {request : Request lanes} {reply : Reply lanes}

theorem grows (h : Serves σ request σ' reply) : σ.bank.Grows σ'.bank := by
  cases h.moves with
  | claim hclaims _ => exact hclaims.grows
  | idle hbank _ _ _ => exact hbank ▸ .refl _

theorem tidy (h : Serves σ request σ' reply) (htidy : σ.bank.Tidy σ.store) :
    σ'.bank.Tidy σ'.store := by
  cases h.moves with
  | claim hclaims _ => exact hclaims.tidy htidy
  | idle hbank hsize _ _ => exact hbank ▸ htidy.mono hsize

/-- What a reply hands out is lent from now on and was not lent before. -/
theorem fresh (h : Serves σ request σ' reply) (htidy : σ.bank.Tidy σ.store) (hb : reply.Hands b) :
    σ'.bank.Lent b ∧ ¬ σ.bank.Lent b := by
  cases h.moves with
  | claim hclaims hrow => exact ⟨hclaims.lent (hrow b hb), hclaims.not_lent htidy (hrow b hb)⟩
  | idle _ _ _ hnothing => exact absurd hb (hnothing b)

/-- A lending writes to no cell that exists. -/
theorem word?_eq (h : Serves σ request σ' reply) (hlending : request.IsLending) {c : Nat} {w : Word}
    (hw : σ.store.word? c = some w) : σ'.store.word? c = some w := by
  cases h.moves with
  | claim hclaims _ => exact hclaims.word?_eq hw
  | idle _ _ hkept _ => rw [hkept hlending, hw]

end Serves

/-- After a history of requests, the bank is in order, every request has been answered as it is to be,
and what the replies hand out is lent and shared by no two of them. -/
structure Orderly (requests : List (Request lanes)) (σ : Session lanes) : Prop where
  tidy : σ.bank.Tidy σ.store
  answered : List.Forall₂ σ.bank.Answers requests σ.replies
  lent : ∀ reply ∈ σ.replies, ∀ b, reply.Hands b → σ.bank.Lent b
  apart : σ.replies.Pairwise fun reply reply' => ∀ b, reply.Hands b → ¬ reply'.Hands b

theorem orderly_nil (s : Store) : Orderly [] (after s [] : Session lanes) :=
  ⟨⟨.nil, nofun⟩, .nil, nofun, .nil⟩

/-- One more request keeps the order. -/
theorem Orderly.serve {requests : List (Request lanes)} {σ : Session lanes}
    (h : Orderly requests σ) (request : Request lanes) :
    Orderly (requests ++ [request]) (σ.serve request) := by
  obtain ⟨reply, hserves⟩ := σ.exists_serves request
  have hfresh := fun b => hserves.fresh (b := b) h.tidy
  refine ⟨hserves.tidy h.tidy, ?_, ?_, ?_⟩
  · rw [hserves.replies]
    have hold : List.Forall₂ (σ.serve request).bank.Answers requests σ.replies :=
      h.answered.imp fun _ _ hanswers => hanswers.mono hserves.grows
    exact List.rel_append hold (.cons hserves.answers .nil)
  · rw [hserves.replies]
    intro r hr b hb
    rcases List.mem_append.1 hr with hold | hnew
    · exact hserves.grows.lent (h.lent r hold b hb)
    · obtain rfl := List.mem_singleton.1 hnew
      exact (hfresh b hb).1
  · rw [hserves.replies, List.pairwise_append]
    refine ⟨h.apart, List.pairwise_singleton _ _, ?_⟩
    intro r hr r' hr' b hb hb'
    obtain rfl := List.mem_singleton.1 hr'
    exact (hfresh b hb').2 (h.lent r hr b hb)

/-- Any history of requests keeps the order. -/
theorem orderly_after (s : Store) (requests : List (Request lanes)) :
    Orderly requests (after s requests) := by
  induction requests using List.reverseRecOn with
  | nil => exact orderly_nil s
  | append_singleton requests request ih =>
    rw [after_concat]
    exact ih.serve request

/-- The bank only grows in the course of its history. -/
theorem grows_run (σ : Session lanes) (requests : List (Request lanes)) :
    σ.bank.Grows (σ.run requests).bank := by
  induction requests generalizing σ with
  | nil => exact .refl _
  | cons request requests ih =>
    obtain ⟨reply, hserves⟩ := σ.exists_serves request
    exact hserves.grows.trans (ih (σ.serve request))

theorem Orderly.exists_answers {requests : List (Request lanes)} {σ : Session lanes}
    (h : Orderly requests σ) {reply : Reply lanes} (hreply : reply ∈ σ.replies) :
    ∃ request, σ.bank.Answers request reply := by
  obtain ⟨n, hn, rfl⟩ := List.getElem_of_mem hreply
  exact ⟨_, h.answered.get (h.answered.length_eq ▸ hn) hn⟩

/-- What is lent from an empty bank in the course of a history of requests never overlaps. -/
structure KeepsApart (s : Store) (requests : List (Request lanes)) : Prop where
  /-- Every request has its answer: in all lanes the same bits of one block, or a whole block, or
  views of a whole cell, unless more is asked for than a cell can hold. -/
  answered : List.Forall₂ (after s requests).bank.Answers requests (after s requests).replies
  cursor_le : ∀ block ∈ (after s requests).bank.blocks, block.cursor ≤ cellBits
  /-- Between any two moments no cursor goes back and no block changes its place. -/
  grows : ∀ before later, requests = before ++ later →
    (after s before).bank.Grows (after s requests).bank
  /-- No two replies share a bit, be it in a field, in a whole cell or in a view. -/
  apart : (after s requests).replies.Pairwise fun reply reply' =>
    ∀ b, reply.Hands b → ¬ reply'.Hands b
  lanes_apart : ∀ lent, .fields lent ∈ (after s requests).replies → ∀ lane lane' b,
    (lent lane).Covers b → (lent lane').Covers b → lane = lane'
  cells_apart : ∀ (k k' : Nat) (block block' : Block) (lane lane' : Fin lanes),
    (after s requests).bank.blocks[k]? = some block →
    (after s requests).bank.blocks[k']? = some block' →
    block.ref lane = block'.ref lane' → k = k' ∧ lane = lane'
  /-- Lending leaves the words of all cells as they were. -/
  unchanged : ∀ before request later, requests = before ++ request :: later → request.IsLending →
    ∀ c w, (after s before).store.word? c = some w →
      (after s (before ++ [request])).store.word? c = some w

/-- Whatever is asked of a bank in whatever order, what it lends never overlaps. -/
theorem keepsApart (s : Store) (requests : List (Request lanes)) : KeepsApart s requests := by
  have horderly := orderly_after s requests
  refine ⟨horderly.answered, fun block _ => block.cursor_le, ?_, horderly.apart, ?_, ?_, ?_⟩
  · rintro before later rfl
    rw [after_append]
    exact grows_run _ _
  · intro lent hlent lane lane' b hcovers hcovers'
    obtain ⟨request, hanswers⟩ := horderly.exists_answers hlent
    cases hanswers with
    | @fields _ _ _ _ _ block _ _ _ _ hplaces =>
      have hcell := (Field.covers_iff.1 hcovers).1
      have hcell' := (Field.covers_iff.1 hcovers').1
      rw [(hplaces lane).1] at hcell
      rw [(hplaces lane').1] at hcell'
      have heq : block.base + lane = block.base + lane' :=
        Option.some.inj (hcell.trans hcell'.symm)
      exact Fin.ext (Nat.add_left_cancel heq)
  · intro k k' block block' lane lane' hblock hblock' href
    have hcell : block.base + lane = block'.base + lane' :=
      Option.some.inj (congrArg CellRef.cell? href)
    obtain ⟨hk, hlane⟩ := horderly.tidy.unique hblock hblock' lane.isLt lane'.isLt hcell
    exact ⟨hk, Fin.ext hlane⟩
  · intro before request later _ hlending c w hw
    obtain ⟨reply, hserves⟩ := (after s before).exists_serves request
    rw [after_concat]
    exact hserves.word?_eq hlending hw

/-- The third field is lent from the first block, where it still fits. -/
example : ((after {} [.fields 40, .fields 30, .fields 20] : Session 1).bank.blocks.map
    Block.cursor) = [60, 30] := by decide

end Session

end Bank

end PackedLogic
