import PackedLogic.Bank.Bridge
import PackedLogic.Config.Basic
import PackedLogic.Gate.Pool
import PackedLogic.Socket
import PackedLogic.Stats
set_option autoImplicit false

/-!
# The machine

A simulator owns one pool for each kind of gate, a bank of buses, the registry of all sockets, and
counters.  A `Machine` is a simulator together with the store that its cells live in and the events
reported so far; other owners may have cells in the same store.

One step evaluates the pools in the order of `GateKind.all` and then applies every socket once.
There is no search for a fixed point: `Machine.settle` takes a fixed number of steps.
-/

namespace PackedLogic

/-- Everything a machine owns, its cells apart. -/
structure Simulator where
  andGates : GatePool .and := {}
  notGates : GatePool .not := {}
  orGates : GatePool .or := {}
  xorGates : GatePool .xor := {}
  bus : Bank 1 := {}
  sockets : SocketRegistry := {}
  stats : Stats := {}
  config : Config := {}
  deriving Repr, Inhabited

namespace Simulator

/-- The pool of one kind of gate. -/
def pool (sim : Simulator) : (k : GateKind) → GatePool k
  | .and => sim.andGates
  | .not => sim.notGates
  | .or => sim.orGates
  | .xor => sim.xorGates

/-- The simulator with another pool of one kind. -/
def setPool (sim : Simulator) : (k : GateKind) → GatePool k → Simulator
  | .and, p => { sim with andGates := p }
  | .not, p => { sim with notGates := p }
  | .or, p => { sim with orGates := p }
  | .xor, p => { sim with xorGates := p }

/-- The number of blocks of all pools. -/
def gateBlocks (sim : Simulator) : Nat :=
  total (GateKind.all.map fun k => (sim.pool k).bank.blockCount)

/-- The names of all cells of the simulator. -/
def cells (sim : Simulator) : List Nat :=
  (GateKind.all.flatMap fun k => (sim.pool k).bank.cells) ++ sim.bus.cells

/-- Recomputes the outputs of all gates, pool after pool. -/
def tickGates (sim : Simulator) (s : Store) : Store :=
  GateKind.all.foldl (fun s k => (sim.pool k).tick s) s

/-- Overwrites every cell of every bank with zero. -/
def clear (sim : Simulator) (s : Store) : Store := s.zero sim.cells

/-- Ends the existence of every cell of every bank. -/
def release (sim : Simulator) (s : Store) : Store := s.releaseAll sim.cells

@[simp] theorem pool_setPool_self (sim : Simulator) (k : GateKind) (p : GatePool k) :
    (sim.setPool k p).pool k = p := by
  cases k <;> rfl

theorem pool_setPool_of_ne (sim : Simulator) {k l : GateKind} (p : GatePool k) (h : l ≠ k) :
    (sim.setPool k p).pool l = sim.pool l := by
  cases k <;> cases l <;> first | rfl | exact absurd rfl h

end Simulator

/-- A simulator at work on a store, and what it has reported. -/
structure Machine where
  sim : Simulator := {}
  store : Store := {}
  log : Array Event := #[]
  deriving Inhabited

namespace Machine

/-- The machine after reporting an event. -/
def report (m : Machine) (e : Event) : Machine := { m with log := m.log.push e }

/-- Takes one step.  A step that meets a dangling socket ends there and is not counted. -/
def tick (m : Machine) : Attempt Machine :=
  let gated := m.sim.tickGates m.store
  match m.sim.sockets.tick gated with
  | ⟨store, some fault⟩ => .failed { m with store } fault
  | ⟨store, none⟩ =>
    let blocks := m.sim.gateBlocks
    let sockets := m.sim.sockets.size
    let stats := m.sim.stats.count blocks sockets
    let m := { m with store, sim := { m.sim with stats } }
    .done (if m.sim.config.traceSteps then m.report (.stepped stats.steps blocks sockets) else m)

/-- Takes `n` steps, up to the first that fails. -/
def run (m : Machine) (n : Nat) : Attempt Machine := Attempt.times tick n m

/-- Takes as many steps as the configuration says. -/
def settle (m : Machine) : Attempt Machine := m.run m.sim.config.settleSteps

/-- Overwrites every cell with zero; allocations, sockets and counters stay. -/
def clear (m : Machine) : Machine := { m with store := m.sim.clear m.store }

end Machine

end PackedLogic
