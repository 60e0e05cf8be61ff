import PackedLogic.Field
set_option autoImplicit false

/-!
# Sockets

A socket is a directed wire between two fields of equal width.  A tick of a registry copies every
source into its target once, in the order of registration and with no other scheduling.
-/

namespace PackedLogic

/-- A wire that copies `source` into `target` on every tick. -/
structure Socket where
  source : Field
  target : Field
  width_eq : source.width = target.width
  deriving DecidableEq, Repr

/-- Copies the value of the source into the target. -/
def Socket.tick (w : Socket) (s : Store) : Attempt Store :=
  match w.source.get s with
  | .ok v => w.target.edit (.set v) s
  | .error f => .failed s f

/-- The wires of a machine, in the order of registration. -/
structure SocketRegistry where
  sockets : List Socket := []
  deriving DecidableEq, Repr, Inhabited

namespace SocketRegistry

/-- The number of sockets. -/
def size (r : SocketRegistry) : Nat := r.sockets.length

/-- Registers a wire, unless its ends differ in width. -/
def add? (r : SocketRegistry) (source target : Field) : Except Fault SocketRegistry :=
  if width_eq : source.width = target.width then .ok ⟨r.sockets ++ [⟨source, target, width_eq⟩]⟩
  else .error (.socketSizeMismatch source.width target.width)

/-- Applies every socket once, up to the first one with an end that does not exist. -/
def tick (r : SocketRegistry) (s : Store) : Attempt Store := Attempt.each Socket.tick r.sockets s

/-- A tick as its caller sees it: the store after it and, unless an end of a socket does not exist, the
number of sockets applied. -/
def step (r : SocketRegistry) (s : Store) : Store × Except Fault Nat :=
  match r.tick s with
  | ⟨s', none⟩ => (s', .ok r.size)
  | ⟨s', some f⟩ => (s', .error f)

theorem step_of_done {r : SocketRegistry} {s s' : Store} (h : r.tick s = .done s') :
    r.step s = (s', .ok r.size) := by
  rw [step, h]
  rfl

end SocketRegistry

end PackedLogic
