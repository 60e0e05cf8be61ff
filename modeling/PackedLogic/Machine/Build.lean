import PackedLogic.Circuit
import PackedLogic.Machine.Lend
import PackedLogic.Schematic.Instance
set_option autoImplicit false

/-!
# Building a circuit

A schematic is built into a machine instance by instance, from the last of `Schematic.instances` to
the first, so that every instance finds the exposed ports of those below it under the names
`instance_port`.  Each instance carries out its declarations in order.  The first fault ends the
work, and what was done before it stays.

While it goes on, every instance has a `Scope`: its ports and its exposed ports so far.  Once all
instances are done, the scopes are put together as a tree of circuits (`Schematic.assemble`).

Here every instance is known by its path.  `Machine.compile?` does the same work on one list, in
which an instance is known by its position and finds its parent by the position of that.
-/

namespace PackedLogic

/-- The ports of an instance so far, and those of them shown to the outside. -/
structure Scope where
  ports : PortMap := {}
  exposed : PortMap := {}
  deriving Inhabited

/-- A machine while a schematic is built into it, with the scope of every instance. -/
structure Draft where
  machine : Machine
  scopes : Std.TreeMap (List Nat) Scope := {}
  deriving Inhabited

namespace Draft

/-- The scope of the instance at a path. -/
def scope (d : Draft) (path : List Nat) : Scope := d.scopes.getD path {}

/-- The draft with another scope at a path. -/
def setScope (d : Draft) (path : List Nat) (scope : Scope) : Draft :=
  { d with scopes := d.scopes.insert path scope }

/-- Adds a port to an instance.  A port of the same name is replaced, with a warning. -/
def insertPort (d : Draft) (path : List Nat) (name : String) (field : Field) : Draft :=
  let scope := d.scope path
  let machine :=
    if scope.ports.contains name then d.machine.report (.portRedeclared name) else d.machine
  { d with machine }.setScope path { scope with ports := scope.ports.insert name field }

/-- Adds several ports to an instance, in order. -/
def insertPorts (d : Draft) (path : List Nat) (ports : List (String × Field)) : Draft :=
  ports.foldl (fun d (name, field) => d.insertPort path name field) d

/-- Shows a port of an instance to the outside. -/
def expose (d : Draft) (path : List Nat) (name : String) (field : Field) : Draft :=
  let scope := d.scope path
  d.setScope path { scope with exposed := scope.exposed.insert name field }

/-- The field that a port of an instance has at the moment. -/
def port? (d : Draft) (path : List Nat) (name : String) : Except Fault Field :=
  PortMap.find? (d.scope path).ports name

/-- Carries out one declaration of an instance. -/
def declare? (i : Instance) (declaration : Declaration) (d : Draft) : Except Fault Draft :=
  match declaration with
  | .gate k _ =>
    let (machine, terminals) := d.machine.lendGate k
    return { d with machine }.insertPorts i.path (declaration.names.zip (List.ofFn terminals))
  | .bridge views => do
    let (machine, fields) ← d.machine.lendBridge? (views.map BridgeView.widths)
    return { d with machine }.insertPorts i.path (declaration.names.zip fields.flatten)
  | .synonym target name => do
    let field ← d.port? i.path target
    return d.insertPort i.path name field
  | .connection source target => do
    let source ← d.port? i.path source
    let target ← d.port? i.path target
    let machine ← d.machine.connect? source target
    return { d with machine }
  | .exposure port => do
    let field ← d.port? i.path port
    let d := match i.parent? with
      | some parent => d.insertPort parent (memberName i.name port) field
      | none => d
    return d.expose i.path port field

/-- Reports what an instance received. -/
def reportPopulated (d : Draft) (i : Instance) : Draft :=
  let scope := d.scope i.path
  let event : Event := .instancePopulated i.name scope.ports.size scope.exposed.size
  { d with machine := d.machine.report event }

/-- Carries out all declarations of an instance, up to the first that is refused. -/
def populate (i : Instance) (d : Draft) : Attempt Draft :=
  (Attempt.each (fun declaration d => .ofExcept d (declare? i declaration d))
    i.schematic.declarations d).andThen fun d => .done (d.reportPopulated i)

end Draft

namespace Schematic

mutual

/-- Puts the scopes of the instances from `path` on together as a circuit. -/
def assemble (scope : List Nat → Scope) (path : List Nat) : Schematic → Circuit
  | ⟨_, _, _, subs, _, _, _, _⟩ =>
    { ports := (scope path).ports
      exposed := (scope path).exposed
      children := assembleSubs scope path 0 subs }
termination_by structural s => s

/-- The circuits of the sub-circuits from position `n` on. -/
def assembleSubs (scope : List Nat → Scope) (path : List Nat) (n : Nat) :
    List (String × Schematic) → List Circuit
  | [] => []
  | (_, s) :: subs => assemble scope (path ++ [n]) s :: assembleSubs scope path (n + 1) subs
termination_by structural subs => subs

end

end Schematic

/-- What building a schematic yields: the machine after, and the circuit unless a fault ended the
work. -/
structure Built where
  machine : Machine
  circuit : Except Fault Circuit

/-- Lays out all instances of a schematic and populates them, from the last one to the root. -/
def Machine.populateAll (m : Machine) (s : Schematic) : Attempt Draft :=
  let m := m.report (.treeInstantiated s.name s.instances.length)
  Attempt.each Draft.populate s.instances.reverse { machine := m }

/-- Builds a schematic into the machine. -/
def Machine.build (m : Machine) (s : Schematic) : Built :=
  match m.populateAll s with
  | ⟨d, none⟩ => ⟨d.machine, .ok (s.assemble d.scope [])⟩
  | ⟨d, some fault⟩ => ⟨d.machine, .error fault⟩

end PackedLogic
