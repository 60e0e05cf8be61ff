import PackedLogic.Proofs.IndependentSockets
import Mathlib.Data.List.Induction
set_option autoImplicit false

/-!
# The history of a registry

A registry is asked for sockets one after the other, and refuses those whose ends differ in width.
What it holds after any history are the sockets that it granted, in the order in which they were asked
for (`SocketRegistry.Session.Orderly`).  So a tick of one of them never has to cut a value short or to
fill it up: the target takes over what the source read before the tick, whole, even where both are
windows on the same word (`SocketRegistry.Session.moves_whole_values`).
-/

namespace PackedLogic

namespace Socket

variable {w : Socket} {s : Store}

/-- A live socket moves the whole value of its source, which may share bits with the target. -/
theorem exists_moved (h : ¬ w.Dangles s) :
    ∃ v s', w.source.get s = .ok v ∧ w.tick s = .done s' ∧ w.target.get s' = .ok v ∧
      s'.SameCells s ∧ ∀ b, ¬ w.target.Covers b → s'.bit b = s.bit b := by
  obtain ⟨hsource, htarget⟩ := not_dangles_iff.1 h
  obtain ⟨s', htick, hcopied⟩ := tick_of_isLive hsource htarget
  obtain ⟨v, hv⟩ := Field.exists_get hsource
  have htarget' := (Field.isLive_of_sameCells hcopied.cells w.target).trans htarget
  -- the copied bits are those of the store before the tick, so it does not matter what overlaps
  have hmoved : w.target.get s' = w.source.get s :=
    Field.get_congr htarget' hsource w.width_eq.symm fun j b a hb ha => hcopied.inside ha hb
  exact ⟨v, s', hv, htick, hmoved.trans hv, hcopied.cells, fun b hb => hcopied.outside hb⟩

end Socket

namespace SocketRegistry

/-- Two fields that a socket is asked for to join. -/
structure Request where
  source : Field
  target : Field
  deriving DecidableEq, Repr

/-- The request that a socket comes from. -/
def Request.ofSocket (w : Socket) : Request := ⟨w.source, w.target⟩

/-- A registry with its answers so far: nothing for a request that was granted, and the fault for one
that was refused. -/
structure Session where
  registry : SocketRegistry := {}
  answers : List (Option Fault) := []

namespace Session

/-- Answers one request.  What the registry is afterwards is what its owner has in hand, whether the
request was granted or not. -/
def serve (σ : Session) (r : Request) : Session :=
  let attempt := Attempt.ofExcept σ.registry (σ.registry.add? r.source r.target)
  ⟨attempt.state, σ.answers ++ [attempt.fault?]⟩

/-- An empty registry after some requests. -/
def after (requests : List Request) : Session := requests.foldl serve {}

theorem after_concat (requests : List Request) (r : Request) :
    after (requests ++ [r]) = (after requests).serve r := by
  simp [after]

theorem serve_of_eq (σ : Session) {r : Request} (h : r.source.width = r.target.width) :
    σ.serve r = ⟨⟨σ.registry.sockets ++ [⟨r.source, r.target, h⟩]⟩, σ.answers ++ [none]⟩ := by
  rw [serve, add?, dif_pos h]
  rfl

/-- A refused request leaves the registry as it was. -/
theorem serve_of_ne (σ : Session) {r : Request} (h : r.source.width ≠ r.target.width) :
    σ.serve r = ⟨σ.registry, σ.answers ++
      [some (.socketSizeMismatch r.source.width r.target.width)]⟩ := by
  rw [serve, add?, dif_neg h]
  rfl

/-- After a history of requests, just those have been refused whose ends differ in width, and the
registry holds the others, in their order. -/
structure Orderly (requests : List Request) (σ : Session) : Prop where
  answers : σ.answers = requests.map fun r =>
    if r.source.width = r.target.width then none
    else some (.socketSizeMismatch r.source.width r.target.width)
  sockets : σ.registry.sockets.map Request.ofSocket =
    requests.filter fun r => r.source.width = r.target.width

/-- One more request keeps the order. -/
theorem Orderly.serve {requests : List Request} {σ : Session} (h : Orderly requests σ)
    (r : Request) : Orderly (requests ++ [r]) (σ.serve r) := by
  by_cases hwidth : r.source.width = r.target.width
  · rw [serve_of_eq σ hwidth]
    constructor
    · simp [h.answers, hwidth]
    · simp [h.sockets, hwidth, Request.ofSocket]
  · rw [serve_of_ne σ hwidth]
    constructor
    · simp [h.answers, hwidth]
    · simp [h.sockets, hwidth]

/-- Any history of requests keeps the order. -/
theorem orderly_after (requests : List Request) : Orderly requests (after requests) := by
  induction requests using List.reverseRecOn with
  | nil => exact ⟨rfl, rfl⟩
  | append_singleton requests r ih =>
    rw [after_concat]
    exact ih.serve r

/-- The sockets of a registry neither cut values short nor fill them up. -/
structure MovesWholeValues (requests : List Request) : Prop
    extends Orderly requests (after requests) where
  /-- A refusal leaves the registry as it was. -/
  refused : ∀ before r later, requests = before ++ r :: later →
    r.source.width ≠ r.target.width →
      (after (before ++ [r])).registry = (after before).registry
  width_eq : ∀ w ∈ (after requests).registry.sockets, w.source.width = w.target.width
  /-- Whatever the cells hold and whichever bits both ends share, the target reads after the tick what
  the source read before it, and no bit outside the target has changed. -/
  moves : ∀ w ∈ (after requests).registry.sockets, ∀ s, ¬ w.Dangles s →
    ∃ v s', w.source.get s = .ok v ∧ w.tick s = .done s' ∧ w.target.get s' = .ok v ∧
      s'.SameCells s ∧ ∀ b, ¬ w.target.Covers b → s'.bit b = s.bit b

/-- Whatever sockets a registry has been asked for, those that it holds move whole values. -/
theorem moves_whole_values (requests : List Request) : MovesWholeValues requests := by
  have horderly := orderly_after requests
  refine ⟨horderly, ?_, ?_, fun w _ s => Socket.exists_moved⟩
  · rintro before r later - hne
    rw [after_concat, serve_of_ne _ hne]
  · intro w hw
    have hmem := List.mem_map_of_mem (f := Request.ofSocket) hw
    rw [horderly.sockets, List.mem_filter] at hmem
    exact of_decide_eq_true hmem.2

/-- Bits 0 to 7 of a word go to its bits 4 to 11, four of which they are taken from; a request for the
same source and a shorter target is refused. -/
example :
    let low : Field := ⟨⟨0, 8, by decide⟩, .ofCell 0⟩
    let middle : Field := ⟨⟨4, 8, by decide⟩, .ofCell 0⟩
    let high : Field := ⟨⟨60, 4, by decide⟩, .ofCell 0⟩
    let σ := after [⟨low, high⟩, ⟨low, middle⟩]
    σ.answers = [some (.socketSizeMismatch 8 4), none] ∧
      (σ.registry.tick ⟨#[some 0xFFF5A]⟩).state = ⟨#[some 0xFF5AA]⟩ := by decide

end Session

end SocketRegistry

end PackedLogic
