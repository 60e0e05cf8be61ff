set_option autoImplicit false

/-!
# Faults

Every operation that can be refused names its cause by a `Fault`.  The wording of each cause is
fixed once, in `Fault.message`.
-/

namespace PackedLogic

/-- Why a configuration text was refused.  The text is read once from left to right, and the
first problem met decides. -/
inductive TextFault
  /-- The text ends where more was needed. -/
  | truncated
  /-- The text is not well formed. -/
  | malformed
  /-- The text is well formed so far, but holds a value of the wrong type or a key twice. -/
  | mistyped
  deriving DecidableEq, Repr

/-- Why an operation was refused. -/
inductive Fault
  /-- A span would extend past the end of its cell. -/
  | outOfBounds (offset width : Nat)
  /-- The cell behind a reference no longer exists, or never did. -/
  | danglingReference
  /-- A bank was asked for a field wider than one cell. -/
  | widthExceedsCapacity (width : Nat)
  /-- The view at this position of a bridge does not fit into one cell. -/
  | capacityExceeded (view total : Nat)
  /-- A socket was requested between two fields of different widths. -/
  | socketSizeMismatch (source target : Nat)
  /-- No port has this name. -/
  | portNotFound (name : String)
  /-- A sub-circuit would make a schematic depend on itself. -/
  | circularDependency (parent child : String)
  /-- A configuration text was refused. -/
  | config (cause : TextFault)
  deriving DecidableEq, Repr

/-- The text shown for a fault. -/
def Fault.message : Fault → String
  | .outOfBounds offset width =>
    s!"accessor out of bounds: offset {offset} + width {width} exceeds storage width"
  | .danglingReference => "dangling storage reference: backing cell has been released"
  | .widthExceedsCapacity width => s!"requested width {width} exceeds storage width"
  | .capacityExceeded view total =>
    s!"bridge view {view} needs {total} bits, more than one storage cell holds"
  | .socketSizeMismatch source target =>
    s!"socket size mismatch: {source} bits -> {target} bits"
  | .portNotFound name => s!"port not found: {name}"
  | .circularDependency parent child =>
    s!"circular dependency: {child} already depends on {parent}"
  | .config _ => "invalid configuration: <detail>"

end PackedLogic
