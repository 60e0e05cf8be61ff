import PackedLogic.Schematic.Basic
set_option autoImplicit false

/-!
# Instances

An instance is one node of the tree of sub-circuits below a schematic, named by its path: the
positions to take from the root.  `Schematic.instances` lists all of them level by level, and from
left to right within a level, so that every instance comes after its parent.
-/

namespace PackedLogic

/-- A node of a tree of sub-circuits. -/
structure Instance where
  /-- The positions of the sub-circuits to take from the root. -/
  path : List Nat
  /-- The name under which the parent sees this instance. -/
  name : String
  schematic : Schematic
  deriving Inhabited

namespace Instance

/-- The instances directly below this one. -/
def children (i : Instance) : List Instance :=
  i.schematic.subs.mapIdx fun n (name, schematic) => ⟨i.path ++ [n], name, schematic⟩

/-- The path of the instance above this one, if there is one. -/
def parent? (i : Instance) : Option (List Nat) :=
  if i.path.isEmpty then none else some i.path.dropLast

/-- The instances `n` levels below this one, from left to right. -/
def generation (i : Instance) : Nat → List Instance
  | 0 => [i]
  | n + 1 => (i.generation n).flatMap children

@[simp] theorem generation_zero (i : Instance) : i.generation 0 = [i] := rfl

theorem generation_succ (i : Instance) (n : Nat) :
    i.generation (n + 1) = (i.generation n).flatMap children := rfl

end Instance

namespace Schematic

mutual

/-- The number of levels of the tree of sub-circuits. -/
def height : Schematic → Nat
  | ⟨_, _, _, subs, _, _, _, _⟩ => heightOfSubs subs + 1
termination_by structural s => s

/-- The number of levels of the highest of several trees. -/
def heightOfSubs : List (String × Schematic) → Nat
  | [] => 0
  | (_, s) :: subs => max s.height (heightOfSubs subs)
termination_by structural subs => subs

end

theorem height_eq (s : Schematic) : s.height = heightOfSubs s.subs + 1 := by
  cases s
  rfl

/-- The whole tree as an instance; it carries the name of the schematic. -/
def root (s : Schematic) : Instance := ⟨[], s.name, s⟩

/-- All instances of the tree of sub-circuits, level by level. -/
def instances (s : Schematic) : List Instance := (List.range s.height).flatMap s.root.generation

end Schematic

end PackedLogic
