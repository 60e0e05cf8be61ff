import PackedLogic.Bank.Basic
import PackedLogic.Circuit
import PackedLogic.Schematic.Instance
set_option autoImplicit false

/-!
# The order of instantiation

All instances of a schematic are laid out in one list before any of them is populated.  The list
starts with the root, and every instance, on its turn, puts an empty instance for each of its
sub-circuits at the end.  An instance in the list does not know its path.  It knows the name by which
its parent sees it and the position at which its parent stands.

The list ends, since every turn takes one node from the trees of the instances that still wait for
theirs (`Schematic.nodesBelow_turn`).
-/

namespace PackedLogic

namespace Schematic

mutual

/-- The number of nodes of the tree of sub-circuits. -/
def size : Schematic → Nat
  | ⟨_, _, _, subs, _, _, _, _⟩ => sizeOfSubs subs + 1
termination_by structural s => s

/-- The number of nodes of several trees. -/
def sizeOfSubs : List (String × Schematic) → Nat
  | [] => 0
  | (_, s) :: subs => s.size + sizeOfSubs subs
termination_by structural subs => subs

end

theorem size_eq (s : Schematic) : s.size = sizeOfSubs s.subs + 1 := by
  cases s
  rfl

/-- The number of nodes in the trees of all schematics of a list. -/
def nodesBelow (waiting : List Schematic) : Nat := total (waiting.map size)

theorem nodesBelow_subs (s : Schematic) : nodesBelow (s.subs.map Prod.snd) + 1 = s.size := by
  rw [size_eq]
  congr 1
  induction s.subs with
  | nil => rfl
  | cons sub subs ih =>
    rw [sizeOfSubs, ← ih]
    rfl

/-- Every turn takes one node from the trees that wait. -/
theorem nodesBelow_turn {waiting : List Schematic} {next : Nat} (h : next < waiting.length) :
    nodesBelow ((waiting ++ waiting[next].subs.map Prod.snd).drop (next + 1)) + 1 =
      nodesBelow (waiting.drop next) := by
  have hsubs := nodesBelow_subs waiting[next]
  have hnext : next + 1 ≤ waiting.length := h
  rw [List.drop_append_of_le_length hnext, List.drop_eq_getElem_cons h]
  simp only [nodesBelow, List.map_append, List.map_cons, total_append, total_cons] at *
  omega

end Schematic

/-- An instance awaiting population. -/
structure Waiting where
  schematic : Schematic
  /-- The name under which the parent sees this instance. -/
  name : String
  /-- The position of the parent in the order of instantiation; the root has none. -/
  parent : Option Nat
  circuit : Circuit := {}
  deriving Inhabited

namespace Waiting

/-- The empty instances of the sub-circuits of an instance that stands at a position. -/
def children (w : Waiting) (position : Nat) : List Waiting :=
  w.schematic.subs.map fun (name, schematic) => { schematic, name, parent := some position }

theorem map_schematic_children (w : Waiting) (position : Nat) :
    (w.children position).map schematic = w.schematic.subs.map Prod.snd := by
  rw [children, List.map_map]
  rfl

/-- Lets the instances from position `next` on put those of their sub-circuits at the end of the
list, one after the other, those that come to stand there included. -/
def expand (order : List Waiting) (next : Nat) : List Waiting :=
  if _ : next < order.length then expand (order ++ order[next].children next) (next + 1)
  else order
termination_by Schematic.nodesBelow ((order.drop next).map schematic)
decreasing_by
  rename_i h
  have hturn := @Schematic.nodesBelow_turn (order.map schematic) next (by simpa using h)
  rw [List.getElem_map, ← map_schematic_children _ next, ← List.map_append] at hturn
  simp only [List.map_drop]
  omega

end Waiting

/-- All instances of a schematic, in the order in which they are laid out. -/
def Schematic.order (s : Schematic) : List Waiting :=
  Waiting.expand [{ schematic := s, name := s.name, parent := none }] 0

end PackedLogic
