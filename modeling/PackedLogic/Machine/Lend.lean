import PackedLogic.Machine.Basic
set_option autoImplicit false

/-!
# Lending from a machine

Gates, bus fields and bridges are lent from the banks of a machine, and sockets are added to its
registry.  Each operation changes one of these parts, the store and the log, and nothing else.
-/

namespace PackedLogic

namespace Machine

/-- Takes over the store after a lending, and reports its events. -/
def afterLending {lanes : Nat} {α : Type} (m : Machine) (sim : Simulator) (l : Lending lanes α) :
    Machine :=
  { sim, store := l.store, log := m.log ++ l.events }

/-- Lends one gate; the terminals are its fields. -/
def lendGate (m : Machine) (k : GateKind) : Machine × (Fin k.arity → Field) :=
  let l := (m.sim.pool k).lend m.store
  (m.afterLending (m.sim.setPool k ⟨l.bank⟩) l, l.lent)

/-- Lends a field of the bus. -/
def lendBus? (m : Machine) (width : Nat) : Except Fault (Machine × Field) := do
  let l ← m.sim.bus.lend? width m.store
  return (m.afterLending { m.sim with bus := l.bank } l, l.lent ⟨0, Nat.one_pos⟩)

/-- Lends a cell of the bus and lays several views over it. -/
def lendBridge? (m : Machine) (views : List (List Nat)) :
    Except Fault (Machine × List (List Field)) := do
  let l ← m.sim.bus.bridge? views m.store
  return (m.afterLending { m.sim with bus := l.bank } l, l.lent)

/-- Registers a socket. -/
def connect? (m : Machine) (source target : Field) : Except Fault Machine := do
  let sockets ← m.sim.sockets.add? source target
  return { m with sim := { m.sim with sockets } }

end Machine

end PackedLogic
