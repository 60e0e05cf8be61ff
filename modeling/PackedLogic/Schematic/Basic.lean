import PackedLogic.Fault
import PackedLogic.Gate.Kind
import Std.Data.TreeSet
set_option autoImplicit false

/-!
# Schematics

A schematic describes a circuit: its gates, bridges, sub-circuits, connections, exposed ports and
aliases.  It owns no storage.  A sub-circuit is a snapshot of a whole schematic, so a schematic is a
finite tree.  It also records the names of all schematics below it, and refuses a sub-circuit below
which its own name occurs (`Schematic.addSub?`).

What an instance of a schematic has to do, in order, is the list of its `Declaration`s.
-/

namespace PackedLogic

/-- One layout of the cell of a bridge: field `i` of the view is the port `name_i`. -/
structure BridgeView where
  name : String
  widths : List Nat
  deriving DecidableEq, Repr, Inhabited

/-- The description of a circuit. -/
structure Schematic where
  name : String
  /-- Gates of all kinds, with their names. -/
  gates : List (GateKind × String) := []
  /-- Bridges; all views of one bridge share a cell. -/
  bridges : List (List BridgeView) := []
  /-- Sub-circuits with the names of their instances. -/
  subs : List (String × Schematic) := []
  /-- Sockets, as pairs of a source port and a target port. -/
  connections : List (String × String) := []
  /-- Ports shown to the outside. -/
  exposed : List String := []
  /-- Further names of ports, as pairs of the port meant and its new name. -/
  aliases : List (String × String) := []
  /-- The names of all schematics below this one. -/
  dependencies : Std.TreeSet String := {}
  deriving Inhabited

namespace Schematic

/-- A schematic without any part. -/
def empty (name : String) : Schematic := { name }

/-- A schematic with this name is below `s`. -/
def dependsOn (s : Schematic) (name : String) : Bool := s.dependencies.contains name

/-- Declares a gate. -/
def addGate (s : Schematic) (k : GateKind) (name : String) : Schematic :=
  { s with gates := s.gates ++ [(k, name)] }

/-- Declares a bridge. -/
def addBridge (s : Schematic) (views : List BridgeView) : Schematic :=
  { s with bridges := s.bridges ++ [views] }

/-- Declares a socket between two ports. -/
def addConnection (s : Schematic) (source target : String) : Schematic :=
  { s with connections := s.connections ++ [(source, target)] }

/-- Shows a port to the outside. -/
def addExposed (s : Schematic) (port : String) : Schematic :=
  { s with exposed := s.exposed ++ [port] }

/-- Gives the port `target` one more name. -/
def addAlias (s : Schematic) (target name : String) : Schematic :=
  { s with aliases := s.aliases ++ [(target, name)] }

/-- Declares a sub-circuit, unless this would put a schematic of the same name below itself. -/
def addSub? (s : Schematic) (name : String) (child : Schematic) : Except Fault Schematic :=
  if child.name = s.name ∨ child.dependsOn s.name then
    .error (.circularDependency s.name child.name)
  else
    .ok { s with
      subs := s.subs ++ [(name, child)]
      dependencies := (s.dependencies.insert child.name).insertMany child.dependencies.toList }

/-- A sub-circuit is refused exactly when it carries the schematic's name or depends on it. -/
theorem addSub?_eq_error_iff {s child : Schematic} {name : String} {f : Fault} :
    s.addSub? name child = .error f ↔
      (child.name = s.name ∨ child.dependsOn s.name = true) ∧
        f = .circularDependency s.name child.name := by
  unfold addSub?
  split
  · rename_i h
    exact ⟨fun e => ⟨h, by cases e; rfl⟩, fun e => by rw [e.2]⟩
  · rename_i h
    exact ⟨fun e => (by cases e), fun e => absurd e.1 h⟩

end Schematic

/-- One thing that an instance does while it is populated. -/
inductive Declaration
  /-- Lends a gate and names its terminals. -/
  | gate (kind : GateKind) (name : String)
  /-- Lends a bridge and names the fields of its views. -/
  | bridge (views : List BridgeView)
  /-- Gives the port `target` one more name. -/
  | synonym (target name : String)
  /-- Registers a socket between two ports. -/
  | connection (source target : String)
  /-- Shows a port to the outside, and to the parent instance. -/
  | exposure (port : String)
  deriving DecidableEq, Repr

/-- The name of field `i` of a view, or of a terminal of a gate. -/
def memberName (owner member : String) : String := s!"{owner}_{member}"

/-- The names of the fields of a view, in order. -/
def BridgeView.names (v : BridgeView) : List String :=
  (List.range v.widths.length).map fun i => memberName v.name (toString i)

/-- The names of the terminals of a gate, in order. -/
def GateKind.terminalNames (k : GateKind) (gate : String) : List String :=
  (List.range k.arity).map fun i => memberName gate (terminalLetter i)

/-- The ports that a declaration introduces into its own instance, in order. -/
def Declaration.names : Declaration → List String
  | gate k name => k.terminalNames name
  | bridge views => views.flatMap BridgeView.names
  | synonym _ name => [name]
  | connection .. | exposure _ => []

/-- What an instance of a schematic does, in order: gates kind by kind, bridges, aliases,
connections, exposed ports. -/
def Schematic.declarations (s : Schematic) : List Declaration :=
  (GateKind.all.flatMap fun k =>
    (s.gates.filter fun g => g.1 = k).map fun g => .gate g.1 g.2) ++
  s.bridges.map .bridge ++
  s.aliases.map (fun (target, name) => .synonym target name) ++
  s.connections.map (fun (source, target) => .connection source target) ++
  s.exposed.map .exposure

end PackedLogic
