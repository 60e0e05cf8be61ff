import PackedLogic.Proofs.PortNames
import PackedLogic.Proofs.TwinBuild
import Mathlib.Data.List.Perm.Basic
set_option autoImplicit false

/-!
# Rearranged schematics

A schematic is rearranged when gates, bridges and exposed ports are declared in another order, in
itself and in the schematics below it.  The trees of instances then correspond node by node
(`Schematic.Rearranged.instances`).  Work on both sides may be refused for different reasons, but
it is refused on both sides or on none (`Attempt.Agree`).
-/

namespace PackedLogic

namespace Attempt

variable {α β σ τ : Type}

/-- Neither piece of work is completed, or both are, in related states. -/
def Agree (R : σ → τ → Prop) (a : Attempt σ) (b : Attempt τ) : Prop :=
  (a.isDone = false ∧ b.isDone = false) ∨ ∃ s t, a = .done s ∧ b = .done t ∧ R s t

theorem isDone_andThen {a : Attempt σ} (h : a.isDone = false) (next : σ → Attempt σ) :
    (a.andThen next).isDone = false := by
  obtain ⟨s, _ | f⟩ := a
  · cases h
  · rfl

namespace Agree

variable {R : σ → τ → Prop} {a : Attempt σ} {b : Attempt τ}

theorem of_done {s : σ} {t : τ} (h : R s t) : Agree R (.done s) (.done t) :=
  .inr ⟨s, t, rfl, rfl, h⟩

theorem of_related (h : Related R a b) : Agree R a b := by
  obtain ⟨s, fault⟩ := a
  obtain ⟨t, fault'⟩ := b
  obtain rfl : fault = fault' := h.fault
  cases fault with
  | none => exact .of_done h.state
  | some f => exact .inl ⟨rfl, rfl⟩

theorem andThen (h : Agree R a b) {next : σ → Attempt σ} {next' : τ → Attempt τ}
    (hnext : ∀ s t, R s t → Agree R (next s) (next' t)) :
    Agree R (a.andThen next) (b.andThen next') := by
  rcases h with ⟨ha, hb⟩ | ⟨s, t, rfl, rfl, hst⟩
  · exact .inl ⟨isDone_andThen ha next, isDone_andThen hb next'⟩
  · exact hnext s t hst

theorem each {Q : α → β → Prop} {step : α → σ → Attempt σ} {step' : β → τ → Attempt τ}
    (h : ∀ a b s t, Q a b → R s t → Agree R (step a s) (step' b t)) {as : List α} {bs : List β}
    (hall : List.Forall₂ Q as bs) {s : σ} {t : τ} (hst : R s t) :
    Agree R (Attempt.each step as s) (Attempt.each step' bs t) := by
  induction hall generalizing s t with
  | nil => exact .of_done hst
  | cons hab _ ih => exact (h _ _ s t hab hst).andThen fun s t => ih

end Agree

end Attempt

/-! ## Schematics with the same parts -/

namespace Schematic

/-- The schematics have the same gates, bridges and exposed ports in any order, and the same aliases
and connections in the same order.  Their sub-circuits go by the same names in the same order. -/
structure SameParts (s t : Schematic) : Prop where
  name : t.name = s.name
  gates : s.gates.Perm t.gates
  bridges : s.bridges.Perm t.bridges
  exposed : s.exposed.Perm t.exposed
  aliases : t.aliases = s.aliases
  connections : t.connections = s.connections
  subs : t.subs.map Prod.fst = s.subs.map Prod.fst

/-- The trees of sub-circuits have the same shape, with the same parts in corresponding places. -/
def Rearranged (s t : Schematic) : Prop := ∀ path, Option.Rel SameParts (s.at? path) (t.at? path)

/-- No instance declares or receives a name twice. -/
def NamesOnce (s : Schematic) : Prop := ∀ i ∈ s.instances, i.schematic.portNames.Nodup

instance (s : Schematic) : Decidable s.NamesOnce :=
  inferInstanceAs (Decidable (∀ i ∈ s.instances, _))

/-- What instances do first: they lend gates and bridges. -/
def lendings (s : Schematic) : List Declaration :=
  (GateKind.all.flatMap fun k => (s.gates.filter fun g => g.1 = k).map fun g => .gate g.1 g.2) ++
    s.bridges.map .bridge

/-- What instances do then: they give further names and connect ports. -/
def linkings (s : Schematic) : List Declaration :=
  s.aliases.map (fun (target, name) => .synonym target name) ++
    s.connections.map (fun (source, target) => .connection source target)

theorem declarations_eq (s : Schematic) :
    s.declarations = s.lendings ++ (s.linkings ++ s.exposed.map .exposure) := by
  simp only [declarations, lendings, linkings, List.append_assoc]

theorem SameParts.lendings {s t : Schematic} (h : s.SameParts t) :
    s.lendings.Perm t.lendings := by
  refine List.Perm.append ?_ (h.bridges.map _)
  exact List.Perm.flatMap_left _ fun k _ => (h.gates.filter _).map _

theorem SameParts.linkings {s t : Schematic} (h : s.SameParts t) : t.linkings = s.linkings := by
  rw [Schematic.linkings, Schematic.linkings, h.aliases, h.connections]

/-! ## Trees with the same shape -/

/-- Instances at the same place of both trees, which go by the same name. -/
structure Counterparts (s t : Schematic) (i j : Instance) : Prop where
  path : j.path = i.path
  name : j.name = i.name
  left : s.at? i.path = some i.schematic
  right : t.at? j.path = some j.schematic

/-- Levels below the lowest one are empty, so it does not matter how far one goes. -/
theorem flatMap_generation {s : Schematic} {n : Nat} (h : s.height ≤ n) :
    (List.range n).flatMap s.root.generation = s.instances := by
  have hempty : ∀ k, s.height ≤ k → s.root.generation k = [] := by
    intro k hk
    rw [List.eq_nil_iff_forall_not_mem]
    intro i hi
    obtain ⟨hnode, hlength⟩ := mem_generation.1 hi
    exact absurd hnode.length_lt (by omega)
  obtain ⟨k, rfl⟩ := Nat.exists_eq_add_of_le h
  rw [List.range_add, List.flatMap_append, List.flatMap_map, instances]
  simp [hempty]

namespace Rearranged

variable {s t : Schematic} {i j : Instance}

/-- A tree is rearranged by rearranging its root and each of the trees below. -/
theorem of_subs (h : s.SameParts t)
    (hsubs : List.Forall₂ (fun a b => a.2.Rearranged b.2) s.subs t.subs) : s.Rearranged t := by
  intro path
  cases path with
  | nil => exact .some h
  | cons n path =>
    rw [at?, at?]
    exact rel_bind (rel_getElem? hsubs n) fun _ _ hrest => hrest path

theorem sameParts (h : s.Rearranged t) (hij : Counterparts s t i j) :
    i.schematic.SameParts j.schematic := by
  have hparts := h i.path
  rw [hij.left, ← hij.path, hij.right] at hparts
  cases hparts with
  | some hparts => exact hparts

theorem counterparts_root (h : s.Rearranged t) : Counterparts s t s.root t.root := by
  have hparts := h []
  cases hparts with
  | some hparts => exact ⟨rfl, hparts.name, rfl, rfl⟩

theorem children (h : s.Rearranged t) (hij : Counterparts s t i j) :
    List.Forall₂ (Counterparts s t) i.children j.children := by
  have hsubs := (h.sameParts hij).subs
  have hlength : j.schematic.subs.length = i.schematic.subs.length := by
    simpa using congrArg List.length hsubs
  rw [List.forall₂_iff_get]
  refine ⟨by simp [Instance.children, hlength], ?_⟩
  intro k hk hk'
  simp only [Instance.children, List.length_mapIdx] at hk hk'
  have hname : j.schematic.subs[k].1 = i.schematic.subs[k].1 := by
    have hget := congrArg (fun names => names[k]?) hsubs
    simpa [hk, hk'] using hget
  simp only [Instance.children, List.get_eq_getElem, List.getElem_mapIdx]
  refine ⟨congrArg (· ++ [k]) hij.path, hname, ?_, ?_⟩
  · exact at?_concat.2 ⟨_, _, hij.left, List.getElem?_eq_getElem hk⟩
  · exact at?_concat.2 ⟨_, _, hij.right, List.getElem?_eq_getElem hk'⟩

theorem generation (h : s.Rearranged t) (n : Nat) :
    List.Forall₂ (Counterparts s t) (s.root.generation n) (t.root.generation n) := by
  induction n with
  | zero => exact .cons h.counterparts_root .nil
  | succ n ih =>
    rw [Instance.generation_succ, Instance.generation_succ]
    exact List.rel_flatMap ih fun _ _ hij => h.children hij

/-- The instances of both schematics correspond one by one. -/
theorem instances (h : s.Rearranged t) :
    List.Forall₂ (Counterparts s t) s.instances t.instances := by
  rw [← flatMap_generation (Nat.le_max_left s.height t.height),
    ← flatMap_generation (Nat.le_max_right s.height t.height)]
  refine List.rel_flatMap (List.forall₂_same.2 fun n _ => rfl) ?_
  intro n _ heq
  exact heq ▸ h.generation n

end Rearranged

end Schematic

end PackedLogic
