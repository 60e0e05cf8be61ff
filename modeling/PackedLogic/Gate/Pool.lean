import PackedLogic.Bank.Basic
import PackedLogic.Gate.Kind
set_option autoImplicit false

/-!
# Gate pools

A pool holds all gates of one kind in a bank with one lane per terminal: a gate is one bit position
of one block.  A tick recomputes the output lane of every block from its input lanes, a whole word at
a time.  Bit positions that are not lent are computed too; nobody can see them before they are lent.
-/

namespace PackedLogic

/-- All gates of one kind. -/
structure GatePool (k : GateKind) where
  bank : Bank k.arity := {}
  deriving Repr, Inhabited

namespace GatePool

variable {k : GateKind}

/-- Lends one gate: one bit in every lane, inputs first. -/
def lend (p : GatePool k) (s : Store) : Lending k.arity (Fin k.arity → Field) :=
  p.bank.lend 1 one_le_cellBits s

/-- The number of gates lent so far. -/
def instances (p : GatePool k) : Nat := p.bank.lentBits

/-- Recomputes the output lane of one block. -/
def evaluate (k : GateKind) (s : Store) (b : Block) : Store :=
  s.write (b.base + k.inputs) (k.output fun lane => s.read (b.base + lane))

/-- Recomputes the output lane of every block. -/
def tick (p : GatePool k) (s : Store) : Store := p.bank.blocks.foldl (evaluate k) s

/-- A tick as its caller sees it: the store after it, and the number of blocks evaluated. -/
def step (p : GatePool k) (s : Store) : Store × Nat := (p.tick s, p.bank.blockCount)

end GatePool

end PackedLogic
