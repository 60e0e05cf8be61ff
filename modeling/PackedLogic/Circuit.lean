import PackedLogic.Field
import Std.Data.TreeMap
set_option autoImplicit false

/-!
# Circuits

A circuit is what a schematic becomes once it is built: for every instance a map from port names to
fields, the part of it that the instance shows to the outside, and the circuits of its
sub-circuits.  Maps are in the order of names.
-/

namespace PackedLogic

/-- Fields by name, in the order of names. -/
abbrev PortMap := Std.TreeMap String Field

/-- One built instance and those below it. -/
structure Circuit where
  ports : PortMap := {}
  exposed : PortMap := {}
  children : List Circuit := []
  deriving Inhabited

/-- The field of a name, or the fault that there is none. -/
def PortMap.find? (ports : PortMap) (name : String) : Except Fault Field :=
  match ports[name]? with
  | some field => .ok field
  | none => .error (.portNotFound name)

namespace Circuit

/-- The field of a port. -/
def port? (c : Circuit) (name : String) : Except Fault Field := PortMap.find? c.ports name

/-- The field of a port that is shown to the outside. -/
def exposedPort? (c : Circuit) (name : String) : Except Fault Field :=
  PortMap.find? c.exposed name

/-- Reads a port. -/
def get (c : Circuit) (name : String) (s : Store) : Except Fault Word := do
  let field ← c.port? name
  field.get s

/-- Overwrites a port. -/
def set (c : Circuit) (name : String) (v : Word) (s : Store) : Attempt Store :=
  match c.port? name with
  | .ok field => field.edit (.set v) s
  | .error fault => .failed s fault

/-- Overwrites several ports in order, up to the first that is refused. -/
def drive (c : Circuit) (values : List (String × Word)) (s : Store) : Attempt Store :=
  Attempt.each (fun (name, v) => c.set name v) values s

/-- The circuit at a path, if there is one. -/
def at? (c : Circuit) : List Nat → Option Circuit
  | [] => some c
  | n :: path => c.children[n]?.bind fun child => child.at? path

@[simp] theorem at?_nil (c : Circuit) : c.at? [] = some c := rfl

theorem at?_cons (c : Circuit) (n : Nat) (path : List Nat) :
    c.at? (n :: path) = c.children[n]?.bind fun child => child.at? path := rfl

/-- A path may be followed in two parts. -/
theorem at?_append (c : Circuit) (p q : List Nat) :
    c.at? (p ++ q) = (c.at? p).bind fun d => d.at? q := by
  induction p generalizing c with
  | nil => rfl
  | cons n p ih =>
    rw [List.cons_append, at?_cons, at?_cons]
    cases c.children[n]? with
    | none => rfl
    | some child => exact ih child

mutual

/-- This circuit, found at `path`, and all below it with their paths, parents first. -/
def nodes (path : List Nat) : Circuit → List (List Nat × Circuit)
  | ⟨ports, exposed, children⟩ =>
    (path, ⟨ports, exposed, children⟩) :: nodesOfChildren path 0 children
termination_by structural c => c

/-- The nodes of the children from position `n` on. -/
def nodesOfChildren (path : List Nat) (n : Nat) : List Circuit → List (List Nat × Circuit)
  | [] => []
  | c :: children => nodes (path ++ [n]) c ++ nodesOfChildren path (n + 1) children
termination_by structural children => children

end

end Circuit

end PackedLogic
