import PackedLogic.Machine.Build
import PackedLogic.Schematic.Order
set_option autoImplicit false

/-!
# Building by position

The work of `Machine.build` as it is done on one list of instances, in which each is known by its
position.  First all instances are laid out (`Schematic.order`).  Then they are populated from the
last position to the first; an instance works on its own circuit and on that of its parent, which it
finds ahead of itself (`Site`, `Lineup.populateAt?`).  At last the instances are taken off the end
of the list one by one, and each hands its circuit to its parent (`Waiting.reassemble?`).

A position that is out of range ends all work (`none`), in each of these loops.
-/

namespace PackedLogic

/-! ## One instance -/

namespace Circuit

/-- Adds a port to a circuit.  A port of the same name is replaced, and the machine warns. -/
def insertPort (c : Circuit) (m : Machine) (name : String) (field : Field) : Machine × Circuit :=
  (if c.ports.contains name then m.report (.portRedeclared name) else m,
    { c with ports := c.ports.insert name field })

/-- Shows a port of a circuit to the outside. -/
def expose (c : Circuit) (name : String) (field : Field) : Circuit :=
  { c with exposed := c.exposed.insert name field }

end Circuit

/-- What an instance works on while it is populated: the machine, its own circuit and, unless it is
the root, the circuit of its parent. -/
structure Site where
  machine : Machine
  circuit : Circuit
  parent : Option Circuit

namespace Site

/-- Adds a port to the circuit of the instance. -/
def insertPort (x : Site) (name : String) (field : Field) : Site :=
  let (machine, circuit) := x.circuit.insertPort x.machine name field
  { x with machine, circuit }

/-- Adds several ports to the circuit of the instance, in order. -/
def insertPorts (x : Site) (ports : List (String × Field)) : Site :=
  ports.foldl (fun x (name, field) => x.insertPort name field) x

/-- Adds a port to the circuit of the parent, if there is one. -/
def handOver (x : Site) (name : String) (field : Field) : Site :=
  match x.parent with
  | some parent =>
    let (machine, parent) := parent.insertPort x.machine name field
    { x with machine, parent := some parent }
  | none => x

/-- Carries out one declaration of the instance that the parent knows by a name. -/
def declare? (name : String) (declaration : Declaration) (x : Site) : Except Fault Site :=
  match declaration with
  | .gate k _ =>
    let (machine, terminals) := x.machine.lendGate k
    return { x with machine }.insertPorts (declaration.names.zip (List.ofFn terminals))
  | .bridge views => do
    let (machine, fields) ← x.machine.lendBridge? (views.map BridgeView.widths)
    return { x with machine }.insertPorts (declaration.names.zip fields.flatten)
  | .synonym target name => do
    let field ← x.circuit.port? target
    return x.insertPort name field
  | .connection source target => do
    let source ← x.circuit.port? source
    let target ← x.circuit.port? target
    let machine ← x.machine.connect? source target
    return { x with machine }
  | .exposure port => do
    let field ← x.circuit.port? port
    let x := x.handOver (memberName name port) field
    return { x with circuit := x.circuit.expose port field }

/-- Reports what the instance received. -/
def reportPopulated (name : String) (x : Site) : Site :=
  let event : Event := .instancePopulated name x.circuit.ports.size x.circuit.exposed.size
  { x with machine := x.machine.report event }

/-- Carries out all declarations of a schematic, up to the first that is refused. -/
def populate (s : Schematic) (name : String) (x : Site) : Attempt Site :=
  (Attempt.each (fun declaration x => .ofExcept x (declare? name declaration x))
    s.declarations x).andThen fun x => .done (x.reportPopulated name)

end Site

/-! ## All instances -/

/-- The machine and all instances while they are populated. -/
structure Lineup where
  machine : Machine
  order : List Waiting

/-- Puts the circuit of a parent back to its position. -/
def Waiting.putBack (order : List Waiting) : Option Nat → Option Circuit → List Waiting
  | some p, some circuit => order.modify p fun w => { w with circuit }
  | _, _ => order

namespace Lineup

/-- Populates the instance at a position.  Its parent must stand ahead of it. -/
def populateAt? (x : Lineup) (index : Nat) : Option (Attempt Lineup) :=
  match x.order.drop index with
  | [] => none
  | node :: tail => do
    let head := x.order.take index
    let parent ← node.parent.mapM fun p => head[p]?
    let site : Site := ⟨x.machine, node.circuit, parent.map Waiting.circuit⟩
    return (site.populate node.schematic node.name).map fun site =>
      { machine := site.machine
        order := Waiting.putBack head node.parent site.parent ++
          { node with circuit := site.circuit } :: tail }

/-- Populates the instances at several positions, up to the first that is refused. -/
def populateEach? (x : Lineup) : List Nat → Option (Attempt Lineup)
  | [] => some (.done x)
  | index :: indices => do
    match ← x.populateAt? index with
    | ⟨x, none⟩ => x.populateEach? indices
    | ⟨x, some fault⟩ => return .failed x fault

end Lineup

/-- Puts a circuit behind the children that an instance has so far. -/
def Waiting.adopt (child : Circuit) (w : Waiting) : Waiting :=
  { w with circuit := { w.circuit with children := w.circuit.children ++ [child] } }

/-- Takes the instances off the end of the list.  The children of each have come last first and are
turned round; then its circuit goes to its parent, or is the result if there is none. -/
def Waiting.reassemble? (order : List Waiting) (root : Circuit) : Option Circuit :=
  match _ : order.getLast? with
  | none => some root
  | some node =>
    let circuit := { node.circuit with children := node.circuit.children.reverse }
    match node.parent with
    | none => reassemble? order.dropLast circuit
    | some p =>
      if p < order.dropLast.length then
        reassemble? (order.dropLast.modify p (adopt circuit)) root
      else none
termination_by order.length
decreasing_by
  all_goals
    have hpos := List.length_pos_of_mem (List.mem_of_getLast? ‹order.getLast? = some node›)
    simp only [List.length_modify, List.length_dropLast]
    omega

/-- The machine and all instances of a schematic before the first of them is populated. -/
def Machine.lineup (m : Machine) (s : Schematic) : Lineup :=
  { machine := m.report (.treeInstantiated s.name s.order.length), order := s.order }

/-- Builds a schematic into the machine by way of the list of its instances. -/
def Machine.compile? (m : Machine) (s : Schematic) : Option Built := do
  match ← (m.lineup s).populateEach? (List.range s.order.length).reverse with
  | ⟨x, none⟩ =>
    let circuit ← Waiting.reassemble? x.order {}
    return ⟨x.machine, .ok circuit⟩
  | ⟨x, some fault⟩ => return ⟨x.machine, .error fault⟩

end PackedLogic
