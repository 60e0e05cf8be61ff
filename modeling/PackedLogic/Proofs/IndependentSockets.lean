import PackedLogic.Proofs.FieldAccess
import PackedLogic.Proofs.Interruption
set_option autoImplicit false

/-!
# Sockets that do not meet

A registry applies its sockets one after the other, so that in general a socket sees what those before
it have copied.  Where no target shares a bit with another socket's ends, nobody can tell: every
target ends up with what its source held before the tick, and this leaves no choice for the store
(`Socket.CopiedAtOnce.unique`).  So the order of registration does not matter
(`SocketRegistry.step_of_independent`), also among sockets that share words.
-/

namespace PackedLogic

namespace Socket

/-- Neither socket writes a bit that the other one reads or writes.  Each of them may well write bits
that it reads itself. -/
structure Independent (v w : Socket) : Prop where
  targets : v.target.Apart w.target
  left : v.target.Apart w.source
  right : w.target.Apart v.source

instance (v w : Socket) : Decidable (v.Independent w) :=
  decidable_of_iff (v.target.Apart w.target ∧ v.target.Apart w.source ∧ w.target.Apart v.source)
    ⟨fun ⟨h, h', h''⟩ => ⟨h, h', h''⟩, fun ⟨h, h', h''⟩ => ⟨h, h', h''⟩⟩

/-- All sockets have copied at once: each target holds what its source held before, and no other bit
has changed. -/
structure CopiedAtOnce (ws : List Socket) (s s' : Store) : Prop where
  targets : ∀ w ∈ ws, ∃ v, w.source.get s = .ok v ∧ w.target.get s' = .ok v
  others : ∀ b, (∀ w ∈ ws, ¬ w.target.Covers b) → s'.bit b = s.bit b
  cells : s'.SameCells s

variable {ws ws' : List Socket} {s s' t : Store}

/-- Copying at once leaves no choice. -/
theorem CopiedAtOnce.unique (h : CopiedAtOnce ws s s') (h' : CopiedAtOnce ws s t) : s' = t := by
  refine Store.ext_bit (h.cells.trans h'.cells.symm) fun b => ?_
  by_cases hb : ∃ w ∈ ws, w.target.Covers b
  · obtain ⟨w, hw, j, hj⟩ := hb
    obtain ⟨v, hsource, htarget⟩ := h.targets w hw
    obtain ⟨v', hsource', htarget'⟩ := h'.targets w hw
    obtain rfl : v = v' := Except.ok.inj (hsource.symm.trans hsource')
    rw [Field.bit_eq_of_get htarget hj, Field.bit_eq_of_get htarget' hj]
  · have hnone : ∀ w ∈ ws, ¬ w.target.Covers b := fun w hw hcovers => hb ⟨w, hw, hcovers⟩
    rw [h.others b hnone, h'.others b hnone]

theorem CopiedAtOnce.of_perm (h : CopiedAtOnce ws' s s') (hperm : ws'.Perm ws) :
    CopiedAtOnce ws s s' :=
  ⟨fun w hw => h.targets w (hperm.mem_iff.2 hw),
    fun b hb => h.others b fun w hw => hb w (hperm.mem_iff.1 hw), h.cells⟩

/-- Sockets that do not meet copy, one after the other, as if at once. -/
theorem each_tick_of_independent (hlive : ∀ w ∈ ws, ¬ w.Dangles s)
    (hind : ws.Pairwise Independent) :
    ∃ s', Attempt.each tick ws s = .done s' ∧ CopiedAtOnce ws s s' := by
  have hends := fun w hw => not_dangles_iff.1 (hlive w hw)
  obtain ⟨s', heach, hcells, hothers⟩ := each_tick_of_isLive hends
  refine ⟨s', heach, ?_, hothers, hcells⟩
  intro w hw
  obtain ⟨v, hv⟩ := Field.exists_get (hends w hw).1
  refine ⟨v, hv, hv.symm ▸ ?_⟩
  have htarget := (Field.isLive_of_sameCells hcells w.target).trans (hends w hw).2
  refine Field.get_congr htarget (hends w hw).1 w.width_eq.symm ?_
  intro j b a hb ha
  -- the sockets before this one leave its source alone, and those after it its target
  obtain ⟨before, after, rfl⟩ := List.append_of_mem hw
  rw [List.pairwise_append, List.pairwise_cons] at hind
  obtain ⟨-, ⟨hafter, -⟩, hbefore⟩ := hind
  obtain ⟨mid, s'', hpasses⟩ := exists_passes hends
  obtain rfl : s'' = s' := congrArg Attempt.state (hpasses.done.symm.trans heach)
  rw [hpasses.copied ha hb fun u hu => (hafter u hu).targets b ⟨j, hb⟩]
  refine hpasses.early a fun u hu hcovers => ?_
  exact (hbefore u hu w List.mem_cons_self).left a hcovers ⟨j, ha⟩

end Socket

namespace SocketRegistry

variable {r r' : SocketRegistry} {s s' : Store}

/-- Live sockets that do not meet may be registered in any order: a tick applies them all, with the
same outcome, which is that all of them have copied at once. -/
theorem step_of_independent (hlive : ∀ w ∈ r.sockets, ¬ w.Dangles s)
    (hind : r.sockets.Pairwise Socket.Independent) (hperm : r'.sockets.Perm r.sockets) :
    ∃ s', r.step s = (s', .ok r.size) ∧ r'.step s = (s', .ok r.size) ∧
      Socket.CopiedAtOnce r.sockets s s' := by
  have hsymm : ∀ {v w : Socket}, v.Independent w → w.Independent v :=
    fun h => ⟨h.targets.symm, h.right, h.left⟩
  obtain ⟨s', heach, hcopied⟩ := Socket.each_tick_of_independent hlive hind
  obtain ⟨t, heach', hcopied'⟩ := Socket.each_tick_of_independent
    (fun w hw => hlive w (hperm.mem_iff.1 hw)) ((hperm.pairwise_iff hsymm).2 hind)
  obtain rfl := hcopied.unique (hcopied'.of_perm hperm)
  refine ⟨s', step_of_done heach, ?_, hcopied⟩
  rw [step_of_done heach', size, hperm.length_eq, size]

/-- Three sockets into one word, the first of which moves bits of that word by two places. -/
theorem step_of_independent_oneWord :
    let s : Store := ⟨#[some 0xFFFF0000000D, some 0xABC]⟩
    let move : Socket := ⟨⟨⟨0, 4, by decide⟩, .ofCell 0⟩, ⟨⟨2, 4, by decide⟩, .ofCell 0⟩, rfl⟩
    let low : Socket := ⟨⟨⟨0, 8, by decide⟩, .ofCell 1⟩, ⟨⟨8, 8, by decide⟩, .ofCell 0⟩, rfl⟩
    let high : Socket := ⟨⟨⟨4, 8, by decide⟩, .ofCell 1⟩, ⟨⟨32, 8, by decide⟩, .ofCell 0⟩, rfl⟩
    (∀ w ∈ [move, low, high], ¬ w.Dangles s) ∧
      [move, low, high].Pairwise Socket.Independent ∧
      [high, move, low].Perm [move, low, high] ∧
      ∃ s', step ⟨[move, low, high]⟩ s = (s', .ok 3) ∧ step ⟨[high, move, low]⟩ s = (s', .ok 3) ∧
        Socket.CopiedAtOnce [move, low, high] s s' := by
  intro s move low high
  have hlive : ∀ w ∈ [move, low, high], ¬ w.Dangles s := by decide
  have hind : [move, low, high].Pairwise Socket.Independent := by decide
  have hperm : [high, move, low].Perm [move, low, high] := by decide
  exact ⟨hlive, hind, hperm, step_of_independent hlive hind hperm⟩

end SocketRegistry

end PackedLogic
