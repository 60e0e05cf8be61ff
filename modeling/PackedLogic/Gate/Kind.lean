import PackedLogic.Word
set_option autoImplicit false

/-!
# Kinds of gates

A gate has its input terminals first and its one output terminal last.  Its boolean function is given
twice: on single bits (`GateKind.bit`) and on words (`GateKind.output`), which is the same function
at every bit position (`GateKind.getLsbD_output`).
-/

namespace PackedLogic

/-- The boolean functions that gates compute. -/
inductive GateKind
  | and
  | not
  | or
  | xor
  deriving DecidableEq, Repr

namespace GateKind

/-- All kinds, in the order in which their pools are evaluated. -/
def all : List GateKind := [and, not, or, xor]

theorem mem_all (k : GateKind) : k ∈ all := by cases k <;> decide

/-- The name shown for a kind. -/
def name : GateKind → String
  | and => "AND"
  | not => "NOT"
  | or => "OR"
  | xor => "XOR"

/-- The number of input terminals. -/
def inputs : GateKind → Nat
  | not => 1
  | and | or | xor => 2

/-- The number of terminals; the output is the last one. -/
def arity (k : GateKind) : Nat := k.inputs + 1

/-- The boolean function of a gate. -/
def bit : (k : GateKind) → (Fin k.inputs → Bool) → Bool
  | and, t => t (0 : Fin 2) && t (1 : Fin 2)
  | not, t => !t (0 : Fin 1)
  | or, t => t (0 : Fin 2) || t (1 : Fin 2)
  | xor, t => t (0 : Fin 2) ^^ t (1 : Fin 2)

/-- The boolean function of 64 gates at once, one in each bit position. -/
def output : (k : GateKind) → (Fin k.inputs → Word) → Word
  | and, t => t (0 : Fin 2) &&& t (1 : Fin 2)
  | not, t => ~~~t (0 : Fin 1)
  | or, t => t (0 : Fin 2) ||| t (1 : Fin 2)
  | xor, t => t (0 : Fin 2) ^^^ t (1 : Fin 2)

/-- A word-wide evaluation computes every bit position on its own. -/
theorem getLsbD_output (k : GateKind) (t : Fin k.inputs → Word) {i : Nat} (h : i < 64) :
    (k.output t).getLsbD i = k.bit fun lane => (t lane).getLsbD i := by
  cases k
  · exact BitVec.getLsbD_and
  · exact (BitVec.getLsbD_not).trans (by rw [decide_eq_true h, Bool.true_and]; rfl)
  · exact BitVec.getLsbD_or
  · exact BitVec.getLsbD_xor

/-- The letter that names a terminal within its gate. -/
def terminalLetter : Nat → String
  | 0 => "a"
  | 1 => "b"
  | _ => "c"

end GateKind

end PackedLogic
