set_option autoImplicit false

/-!
# Configuration

What a machine can be told before it starts.
-/

namespace PackedLogic

/-- The settings of a machine. -/
structure Config where
  /-- Report every completed step. -/
  traceSteps : Bool := false
  /-- How many steps settling takes. -/
  settleSteps : Nat := 20
  deriving DecidableEq, Repr, Inhabited

end PackedLogic
