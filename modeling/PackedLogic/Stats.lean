set_option autoImplicit false

/-!
# Statistics

How much work a machine has done.
-/

namespace PackedLogic

/-- The work counters of a machine. -/
structure Stats where
  /-- Steps completed. -/
  steps : Nat := 0
  /-- Blocks of gates recomputed, over all completed steps. -/
  gateEvaluations : Nat := 0
  /-- Socket copies made, over all completed steps. -/
  socketTransfers : Nat := 0
  deriving DecidableEq, Repr, Inhabited

namespace Stats

/-- The counters after one more step. -/
def count (s : Stats) (blocks sockets : Nat) : Stats :=
  { steps := s.steps + 1
    gateEvaluations := s.gateEvaluations + blocks
    socketTransfers := s.socketTransfers + sockets }

/-- Sets every counter back to zero. -/
def reset (_ : Stats) : Stats := {}

/-- Every counter is zero. -/
def isZero (s : Stats) : Bool := s == {}

/-- A counter as the nearest double-precision number; counters are below 2^64. -/
def toDouble (counter : Nat) : Float := counter.toUInt64.toFloat

/-- The mean number of socket copies in a step, and zero before the first step. -/
def transfersPerStep (s : Stats) : Float :=
  if s.steps = 0 then 0.0 else toDouble s.socketTransfers / toDouble s.steps

/-- The counters as a text of three lines. -/
def render (s : Stats) : String :=
  "\n".intercalate
    [s!"steps              {s.steps}", s!"gate evaluations   {s.gateEvaluations}",
      s!"socket transfers   {s.socketTransfers}"]

end Stats

end PackedLogic
