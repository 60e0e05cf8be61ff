set_option autoImplicit false

/-!
# Events

What the library reports while it works.  An event is a value of the domain; its level, its text and
its fields are read off it by functions.
-/

namespace PackedLogic

/-- Something worth reporting. -/
inductive Event
  /-- A bank with this many lanes appended a block to serve a request. -/
  | bankGrew (lanes blocks : Nat)
  /-- All instances of a schematic were laid out, before any was populated. -/
  | treeInstantiated (schematic : String) (instances : Nat)
  /-- One instance received all its ports. -/
  | instancePopulated (name : String) (ports exposed : Nat)
  /-- A port name was declared again; the later declaration counts. -/
  | portRedeclared (port : String)
  /-- A step of the machine was completed. -/
  | stepped (step blocks sockets : Nat)
  deriving DecidableEq, Repr

/-- How important an event is. -/
inductive Level
  | trace
  | debug
  | warn
  deriving DecidableEq, Repr

/-- The name of a level. -/
def Level.name : Level → String
  | .trace => "TRACE"
  | .debug => "DEBUG"
  | .warn => "WARN"

namespace Event

/-- The importance of an event. -/
def level : Event → Level
  | bankGrew .. | treeInstantiated .. | instancePopulated .. => .debug
  | portRedeclared .. => .warn
  | stepped .. => .trace

/-- The text of an event. -/
def message : Event → String
  | bankGrew .. => "data bank grew"
  | treeInstantiated .. => "instantiated circuit tree"
  | instancePopulated .. => "populated circuit instance"
  | portRedeclared .. => "port declared twice; keeping the later declaration"
  | stepped .. => "step"

/-- The named details of an event; numbers are written in decimal. -/
def fields : Event → List (String × String)
  | bankGrew lanes blocks => [("lanes", toString lanes), ("blocks", toString blocks)]
  | treeInstantiated schematic instances =>
    [("schematic", schematic), ("instances", toString instances)]
  | instancePopulated name ports exposed =>
    [("instance", name), ("ports", toString ports), ("exposed", toString exposed)]
  | portRedeclared port => [("port", port)]
  | stepped step blocks sockets =>
    [("step", toString step), ("blocks", toString blocks), ("sockets", toString sockets)]

end Event

end PackedLogic
