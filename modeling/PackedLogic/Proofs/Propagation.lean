import PackedLogic.Proofs.FieldAccess
import PackedLogic.Proofs.Interruption
import Mathlib.Data.List.Basic
import Mathlib.Order.Interval.Finset.Nat
set_option autoImplicit false

/-!
# Propagation along a chain of sockets

A tick applies the sockets in their order of registration.  So a value crosses two sockets of a chain
in one tick if the second one is registered after the first, and waits one tick in between if it is
registered before (`SocketRegistry.Chain.get_target`).  By induction over the ticks, and over the chain
within a tick, the value arrives at every field of the chain after one tick and one more for each
socket on the way that is registered before the one it follows
(`SocketRegistry.arrives_after_delay`).
-/

namespace PackedLogic

namespace SocketRegistry

variable {r : SocketRegistry} {n : Nat} {f : Nat → Field} {wire : Nat → Socket} {s s' : Store}

/-! ## The order of registration -/

/-- The first socket is registered before the second. -/
def Before (r : SocketRegistry) (v w : Socket) : Prop := r.sockets.idxOf v < r.sockets.idxOf w

instance (r : SocketRegistry) (v w : Socket) : Decidable (r.Before v w) :=
  inferInstanceAs (Decidable (_ < _))

/-- A socket is registered before all those that are not listed ahead of it. -/
theorem before_iff {before after : List Socket} {v w : Socket}
    (hsplit : r.sockets = before ++ v :: after) (hv : v ∉ before) (hne : w ≠ v) :
    r.Before v w ↔ w ∉ before := by
  have hposition : r.sockets.idxOf v = before.length := by
    rw [hsplit, List.idxOf_append_of_notMem hv, List.idxOf_cons_self, Nat.add_zero]
  rw [Before, hposition, hsplit]
  by_cases hw : w ∈ before
  · have hlt := List.idxOf_lt_length_of_mem hw
    rw [List.idxOf_append_of_mem hw]
    exact ⟨fun h => absurd hlt (Nat.lt_asymm h), fun h => absurd hw h⟩
  · rw [List.idxOf_append_of_notMem hw, List.idxOf_cons_ne _ hne.symm]
    exact ⟨fun _ => hw, fun _ => by omega⟩

/-! ## Chains -/

/-- The fields `f 0` to `f n` are joined, each to the next one, by sockets that are registered once.
They share no bits, and no other socket writes to them. -/
structure Chain (r : SocketRegistry) (n : Nat) (f : Nat → Field) (wire : Nat → Socket) : Prop where
  ends : ∀ k < n, (wire k).source = f k ∧ (wire k).target = f (k + 1)
  once : ∀ k < n, r.sockets.count (wire k) = 1
  apart : ∀ j ≤ n, ∀ k ≤ n, j ≠ k → (f j).Apart (f k)
  others : ∀ w ∈ r.sockets, (∀ k < n, w ≠ wire k) → ∀ k ≤ n, (f k).Apart w.target

namespace Chain

/-- What writes to a field of the chain is the socket that leads to it. -/
theorem eq_wire_of_covers (h : r.Chain n f wire) {w : Socket} (hw : w ∈ r.sockets) {k : Nat}
    (hk : k ≤ n) {b : Bit} (hb : (f k).Covers b) (hcovers : w.target.Covers b) :
    ∃ j < n, k = j + 1 ∧ w = wire j := by
  by_cases hwire : ∃ j < n, w = wire j
  · obtain ⟨j, hj, rfl⟩ := hwire
    rw [(h.ends j hj).2] at hcovers
    by_contra hother
    have hne : k ≠ j + 1 := fun heq => hother ⟨j, hj, heq, rfl⟩
    exact h.apart k hk (j + 1) hj hne b hb hcovers
  · have hne : ∀ j < n, w ≠ wire j := fun j hj heq => hwire ⟨j, hj, heq⟩
    exact absurd hcovers (h.others w hw hne k hk b hb)

theorem mem (h : r.Chain n f wire) {k : Nat} (hk : k < n) : wire k ∈ r.sockets :=
  List.count_pos_iff.1 (Nat.lt_of_lt_of_eq Nat.one_pos (h.once k hk).symm)

theorem exists_split (h : r.Chain n f wire) {k : Nat} (hk : k < n) : ∃ before after,
    r.sockets = before ++ wire k :: after ∧ wire k ∉ before ∧ wire k ∉ after := by
  have honce := h.once k hk
  obtain ⟨before, after, hsplit⟩ := List.append_of_mem (h.mem hk)
  rw [hsplit, List.count_append, List.count_cons_self] at honce
  exact ⟨before, after, hsplit, List.count_eq_zero.1 (by omega), List.count_eq_zero.1 (by omega)⟩

theorem isLive (h : r.Chain n f wire) (hlive : ∀ w ∈ r.sockets, ¬ w.Dangles s) {k : Nat}
    (hk : k ≤ n) (hpos : 0 < n) : (f k).isLive s = true := by
  rcases Nat.lt_or_ge k n with hlt | hge
  · have hends := Socket.not_dangles_iff.1 (hlive _ (h.mem hlt))
    exact (h.ends k hlt).1 ▸ hends.1
  · obtain ⟨j, rfl⟩ : ∃ j, n = j + 1 := ⟨n - 1, by omega⟩
    obtain rfl : k = j + 1 := by omega
    have hends := Socket.not_dangles_iff.1 (hlive _ (h.mem (Nat.lt_succ_self j)))
    exact (h.ends j (Nat.lt_succ_self j)).2 ▸ hends.2

/-- In a tick, a field after the start of the chain receives what the field ahead of it holds when its
socket has its turn. -/
theorem exists_turn (h : r.Chain n f wire) (hlive : ∀ w ∈ r.sockets, ¬ w.Dangles s) {k : Nat}
    (hk : k < n) (htick : r.tick s = .done s') : ∃ before after mid,
      r.sockets = before ++ wire k :: after ∧ wire k ∉ before ∧
        Socket.Passes before (wire k) after s mid s' ∧
        ∀ {j : Nat} {a b : Bit}, (f k).bit? j = some a → (f (k + 1)).bit? j = some b →
          s'.bit b = mid.bit a := by
  have hends := fun w hw => Socket.not_dangles_iff.1 (hlive w hw)
  obtain ⟨before, after, hsplit, hbefore, hafter⟩ := h.exists_split hk
  obtain ⟨mid, s'', hpasses⟩ := Socket.exists_passes (hsplit ▸ hends)
  have hdone : r.tick s = .done s'' := by rw [SocketRegistry.tick, hsplit, hpasses.done]
  obtain rfl : s'' = s' := congrArg Attempt.state (hdone.symm.trans htick)
  obtain ⟨hsource, htarget⟩ := h.ends k hk
  refine ⟨before, after, mid, hsplit, hbefore, hpasses, ?_⟩
  intro j a b ha hb
  refine hpasses.copied (hsource ▸ ha) (htarget ▸ hb) fun w hw hcovers => ?_
  have hmem : w ∈ r.sockets :=
    hsplit ▸ List.mem_append_right _ (List.mem_cons_of_mem _ hw)
  obtain ⟨i, -, hi, rfl⟩ := h.eq_wire_of_covers hmem hk ⟨j, hb⟩ hcovers
  obtain rfl : k = i := Nat.succ.inj hi
  exact hafter hw

variable {before after : List Socket} {mid : Store} {k : Nat} {a : Bit}

/-- A socket that has its turn before the one that writes to its source finds the old value there. -/
theorem bit_eq_of_before (h : r.Chain n f wire) (hk : k < n)
    (hsplit : r.sockets = before ++ wire k :: after) (hbefore : wire k ∉ before)
    (hpasses : Socket.Passes before (wire k) after s mid s')
    (hfirst : r.Before (wire k) (wire (k - 1))) (ha : (f k).Covers a) :
    mid.bit a = s.bit a := by
  refine hpasses.early a fun w hw hcovers => ?_
  have hmem : w ∈ r.sockets := hsplit ▸ List.mem_append_left _ hw
  obtain ⟨i, -, rfl, rfl⟩ := h.eq_wire_of_covers hmem (Nat.le_of_lt hk) ha hcovers
  have hne : wire i ≠ wire (i + 1) := fun heq => hbefore (heq ▸ hw)
  exact (before_iff hsplit hbefore hne).1 hfirst hw

/-- A socket that does not have its turn before the one that writes to its source finds the value that
is there after the tick. -/
theorem bit_eq_of_not_before (h : r.Chain n f wire) (hk : k < n)
    (hsplit : r.sockets = before ++ wire k :: after) (hbefore : wire k ∉ before)
    (hpasses : Socket.Passes before (wire k) after s mid s')
    (hlater : ¬ r.Before (wire k) (wire (k - 1))) (ha : (f k).Covers a) :
    s'.bit a = mid.bit a := by
  refine hpasses.late a fun w hw hcovers => ?_
  have hmem : w ∈ r.sockets := hsplit ▸ List.mem_append_right _ hw
  obtain ⟨i, hi, rfl, rfl⟩ := h.eq_wire_of_covers hmem (Nat.le_of_lt hk) ha hcovers
  have hne : wire i ≠ wire (i + 1) := by
    intro heq
    rw [heq, (h.ends (i + 1) hk).2] at hcovers
    exact h.apart (i + 1) (Nat.le_of_lt hk) (i + 2) hk (by omega) a ha hcovers
  have hearlier : wire i ∈ before := by
    by_contra hnot
    exact hlater ((before_iff hsplit hbefore hne).2 hnot)
  -- so it would be registered twice
  have honce := h.once i hi
  rw [hsplit, List.count_append] at honce
  have hearly := List.count_pos_iff.2 hearlier
  have hlate := List.count_pos_iff.2 hw
  omega

/-- What a tick makes of one field after the start of the chain: it receives what the field ahead of
it held before the tick, if its socket has its turn first, and what that field holds after the tick
otherwise. -/
theorem get_target (h : r.Chain n f wire) (hlive : ∀ w ∈ r.sockets, ¬ w.Dangles s) (hk : k < n)
    (htick : r.tick s = .done s') :
    (f (k + 1)).get s' =
      if r.Before (wire k) (wire (k - 1)) then (f k).get s else (f k).get s' := by
  obtain ⟨before, after, mid, hsplit, hbefore, hpasses, hcopied⟩ := h.exists_turn hlive hk htick
  have hwidth : (f (k + 1)).width = (f k).width := by
    rw [← (h.ends k hk).1, ← (h.ends k hk).2, (wire k).width_eq]
  have hpos : 0 < n := Nat.zero_lt_of_lt hk
  have hlive' := Socket.not_dangles_of_sameCells hpasses.cells hlive
  split
  · rename_i hfirst
    refine Field.get_congr (h.isLive hlive' hk hpos) (h.isLive hlive (Nat.le_of_lt hk) hpos)
      hwidth ?_
    intro j b a hb ha
    rw [hcopied ha hb, h.bit_eq_of_before hk hsplit hbefore hpasses hfirst ⟨j, ha⟩]
  · rename_i hlater
    refine Field.get_congr (h.isLive hlive' hk hpos) (h.isLive hlive' (Nat.le_of_lt hk) hpos)
      hwidth ?_
    intro j b a hb ha
    rw [hcopied ha hb, h.bit_eq_of_not_before hk hsplit hbefore hpasses hlater ⟨j, ha⟩]

/-- A tick of live sockets is completed, leaves them live and does not touch the start of the chain. -/
theorem exists_tick (h : r.Chain n f wire) (hlive : ∀ w ∈ r.sockets, ¬ w.Dangles s)
    (hpos : 0 < n) : ∃ s', r.tick s = .done s' ∧ (∀ w ∈ r.sockets, ¬ w.Dangles s') ∧
      (f 0).get s' = (f 0).get s := by
  obtain ⟨s', htick, hcells, hothers⟩ :=
    Socket.each_tick_of_isLive fun w hw => Socket.not_dangles_iff.1 (hlive w hw)
  have hlive' := Socket.not_dangles_of_sameCells hcells hlive
  refine ⟨s', htick, hlive', ?_⟩
  refine Field.get_eq_of_bits (h.isLive hlive (Nat.zero_le n) hpos)
    (h.isLive hlive' (Nat.zero_le n) hpos) fun b hb => hothers b fun w hw hcovers => ?_
  obtain ⟨j, -, hj, -⟩ := h.eq_wire_of_covers hw (Nat.zero_le n) hb hcovers
  exact absurd hj (Nat.succ_ne_zero j).symm

end Chain

/-! ## Many ticks -/

/-- What others may do between two ticks: they write no bit of the chain, and release no end of a
socket. -/
structure Spares (r : SocketRegistry) (n : Nat) (f : Nat → Field) (s s' : Store) : Prop where
  live : ∀ w ∈ r.sockets, ¬ w.Dangles s'
  bits : ∀ k ≤ n, ∀ b, (f k).Covers b → s'.bit b = s.bit b

/-- Stores that are reached with a number of ticks, while others spare the chain. -/
inductive After (r : SocketRegistry) (n : Nat) (f : Nat → Field) (s : Store) : Nat → Store → Prop
  | start : After r n f s 0 s
  | tick {t : Nat} {s' : Store} (before : After r n f s t s') :
      After r n f s (t + 1) (r.step s').1
  | others {t : Nat} {s' s'' : Store} (before : After r n f s t s') (spares : r.Spares n f s' s'') :
      After r n f s t s''

/-- The number of ticks until a value arrives at the field `m` of a chain: one, and one more for every
socket on the way that is registered before the socket that it follows. -/
def delay (r : SocketRegistry) (wire : Nat → Socket) (m : Nat) : Nat :=
  1 + ((Finset.Ico 1 m).filter fun k => r.Before (wire k) (wire (k - 1))).card

theorem delay_one (r : SocketRegistry) (wire : Nat → Socket) : r.delay wire 1 = 1 := rfl

theorem delay_succ (r : SocketRegistry) (wire : Nat → Socket) {m : Nat} (hm : 0 < m) :
    r.delay wire (m + 1) =
      r.delay wire m + if r.Before (wire m) (wire (m - 1)) then 1 else 0 := by
  have hrange : Finset.Ico 1 (m + 1) = insert m (Finset.Ico 1 m) :=
    Nat.Ico_succ_right_eq_insert_Ico hm
  rw [delay, delay, hrange, Finset.filter_insert]
  split
  · rw [Finset.card_insert_of_notMem (by simp), Nat.add_assoc]
  · rfl

/-- At most one tick is needed for every socket. -/
theorem delay_le (r : SocketRegistry) (wire : Nat → Socket) {m : Nat} (hm : 0 < m) :
    r.delay wire m ≤ m := by
  have hcard := Finset.card_filter_le (Finset.Ico 1 m)
    fun k => r.Before (wire k) (wire (k - 1))
  rw [Nat.card_Ico] at hcard
  rw [delay]
  omega

theorem delay_of_ordered {m : Nat}
    (h : ∀ k, 0 < k → k < m → ¬ r.Before (wire k) (wire (k - 1))) : r.delay wire m = 1 := by
  rw [delay, Finset.filter_false_of_mem, Finset.card_empty]
  intro k hk
  obtain ⟨hpos, hlt⟩ := Finset.mem_Ico.1 hk
  exact h k hpos hlt

/-- After `t` ticks the start of the chain reads `v`, and so do the fields that this has reached; the
others read zero. -/
structure Reached (r : SocketRegistry) (n : Nat) (f : Nat → Field) (wire : Nat → Socket) (v : Word)
    (t : Nat) (s : Store) : Prop where
  live : ∀ w ∈ r.sockets, ¬ w.Dangles s
  start : (f 0).get s = .ok v
  reached : ∀ m, 0 < m → m ≤ n → (f m).get s = .ok (if r.delay wire m ≤ t then v else 0)

/-- One more tick reaches the fields whose delay is one tick longer. -/
theorem Reached.tick (hchain : r.Chain n f wire) (hpos : 0 < n) {v : Word} {t : Nat}
    (h : r.Reached n f wire v t s) :
    ∃ s', r.tick s = .done s' ∧ r.Reached n f wire v (t + 1) s' := by
  obtain ⟨s', htick, hlive', hstart⟩ := hchain.exists_tick h.live hpos
  rw [h.start] at hstart
  refine ⟨s', htick, hlive', hstart, ?_⟩
  intro m hm
  -- along the chain, since a socket may hand on what another one has brought in the same tick
  induction m, hm using Nat.le_induction with
  | base =>
    intro hn
    have hfirst : (f 1).get s' = (f 0).get s' :=
      (hchain.get_target h.live hn htick).trans (if_neg (Nat.lt_irrefl _))
    rw [hfirst, hstart, delay_one, if_pos (Nat.le_add_left 1 t)]
  | succ m hm ih =>
    intro hn
    rw [hchain.get_target h.live hn htick, r.delay_succ wire hm]
    split
    · rw [h.reached m hm (Nat.le_of_lt hn)]
      simp only [Nat.add_le_add_iff_right]
    · exact ih (Nat.le_of_lt hn)

theorem Reached.spares (hchain : r.Chain n f wire) (hpos : 0 < n) {v : Word} {t : Nat}
    (h : r.Reached n f wire v t s) (hspares : r.Spares n f s s') : r.Reached n f wire v t s' := by
  have hkept : ∀ k ≤ n, (f k).get s' = (f k).get s := fun k hk =>
    Field.get_eq_of_bits (hchain.isLive h.live hk hpos) (hchain.isLive hspares.live hk hpos)
      (hspares.bits k hk)
  refine ⟨hspares.live, (hkept 0 (Nat.zero_le n)).trans h.start, fun m hm hn => ?_⟩
  exact (hkept m hn).trans (h.reached m hm hn)

theorem Reached.after (hchain : r.Chain n f wire) (hpos : 0 < n) {v : Word}
    (h : r.Reached n f wire v 0 s) {t : Nat} (hafter : r.After n f s t s') :
    r.Reached n f wire v t s' := by
  induction hafter with
  | start => exact h
  | tick _ ih =>
    obtain ⟨s'', htick, hreached⟩ := ih.tick hchain hpos
    rw [r.step_of_done htick]
    exact hreached
  | others _ hspares ih => exact ih.spares hchain hpos hspares

/-- A value at the start of a chain of live sockets, with zeros ahead of it, arrives at every field of
the chain when its delay is over and not before.  No tick fails on the way.  At the end of the chain it
arrives after at most as many ticks as there are sockets, and after one if they are registered in the
order of the chain. -/
theorem arrives_after_delay (hchain : r.Chain n f wire) (hpos : 0 < n)
    (hlive : ∀ w ∈ r.sockets, ¬ w.Dangles s) {v : Word} (hstart : (f 0).get s = .ok v)
    (hzero : ∀ m ≤ n, 0 < m → (f m).get s = .ok 0) {t : Nat} (hafter : r.After n f s t s') :
    (r.step s').2 = .ok r.size ∧
      (∀ m ≤ n, 0 < m → (f m).get s' = .ok (if r.delay wire m ≤ t then v else 0)) ∧
      (n ≤ t → (f n).get s' = .ok v) ∧
      ((∀ k < n, 0 < k → r.Before (wire (k - 1)) (wire k)) → 1 ≤ t → (f n).get s' = .ok v) := by
  have hbegin : r.Reached n f wire v 0 s := by
    refine ⟨hlive, hstart, fun m hm hn => ?_⟩
    have hlate : ¬ r.delay wire m ≤ 0 := by rw [delay]; omega
    rw [hzero m hn hm, if_neg hlate]
  have hreached := hbegin.after hchain hpos hafter
  have hend : r.delay wire n ≤ t → (f n).get s' = .ok v := by
    intro harrived
    rw [hreached.reached n hpos (Nat.le_refl n), if_pos harrived]
  obtain ⟨s'', htick, -⟩ := hreached.tick hchain hpos
  refine ⟨congrArg Prod.snd (r.step_of_done htick), fun m hn hm => hreached.reached m hm hn,
    fun ht => hend (Nat.le_trans (r.delay_le wire hpos) ht), fun hordered ht => hend ?_⟩
  have hnone : ∀ k, 0 < k → k < n → ¬ r.Before (wire k) (wire (k - 1)) :=
    fun k hk hlt => Nat.lt_asymm (hordered k hlt hk)
  rwa [delay_of_ordered hnone]

/-- Three sockets from word to word, of which the middle one is registered last, after a fourth one
that is not of the chain. -/
theorem arrives_after_delay_middleLast :
    let s : Store := ⟨#[some 5, some 0, some 0xF0, some 0, some 9]⟩
    let f : Nat → Field := fun k => ⟨⟨0, 4, by decide⟩, .ofCell k⟩
    let wire : Nat → Socket := fun k => ⟨f k, f (k + 1), rfl⟩
    let other : Socket := ⟨⟨⟨0, 4, by decide⟩, .ofCell 4⟩, ⟨⟨4, 4, by decide⟩, .ofCell 1⟩, rfl⟩
    let r : SocketRegistry := ⟨[wire 2, wire 0, other, wire 1]⟩
    let s₁ := (r.step s).1
    let s₂ := (r.step s₁).1
    (r.Chain 3 f wire ∧ (∀ w ∈ r.sockets, ¬ w.Dangles s) ∧ (f 0).get s = .ok 5 ∧
      (∀ m ≤ 3, 0 < m → (f m).get s = .ok 0)) ∧
      r.delay wire 3 = 2 ∧ (f 3).get s₁ = .ok 0 ∧ (f 3).get s₂ = .ok 5 := by
  intro s f wire other r s₁ s₂
  have hchain : r.Chain 3 f wire := by
    refine ⟨fun k _ => ⟨rfl, rfl⟩, by decide, by decide, ?_⟩
    intro w hw hne
    have hother : w = other := by
      simp only [r, List.mem_cons, List.not_mem_nil, or_false] at hw
      rcases hw with rfl | rfl | rfl | rfl
      · exact absurd rfl (hne 2 (by decide))
      · exact absurd rfl (hne 0 (by decide))
      · rfl
      · exact absurd rfl (hne 1 (by decide))
    rw [hother]
    decide
  have hlive : ∀ w ∈ r.sockets, ¬ w.Dangles s := by decide
  have hstart : (f 0).get s = .ok 5 := by decide
  have hzero : ∀ m ≤ 3, 0 < m → (f m).get s = .ok 0 := by decide
  have hdelay : r.delay wire 3 = 2 := by decide
  have hafter : ∀ t s', r.After 3 f s t s' → (f 3).get s' = .ok (if 2 ≤ t then 5 else 0) := by
    intro t s' h
    have harrives := (arrives_after_delay hchain (by decide) hlive hstart hzero h).2.1
    exact hdelay ▸ harrives 3 (by decide) (by decide)
  have hone : r.After 3 f s 1 s₁ := .tick .start
  exact ⟨⟨hchain, hlive, hstart, hzero⟩, hdelay, hafter 1 s₁ hone, hafter 2 s₂ (.tick hone)⟩

end SocketRegistry

end PackedLogic
