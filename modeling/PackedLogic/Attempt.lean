import PackedLogic.Fault
set_option autoImplicit false

/-!
# Attempts

Most work of the machine is a sequence of steps, each of which may be refused.  A refusal ends the
sequence, and the steps before it stay done.  An `Attempt` is the state so reached together with
the fault that ended the sequence, if one did.
-/

namespace PackedLogic

/-- The state that some work reached, and the fault that ended it early. -/
structure Attempt (σ : Type) where
  state : σ
  fault? : Option Fault

namespace Attempt

variable {α σ τ : Type}

/-- Work that was completed. -/
def done (s : σ) : Attempt σ := ⟨s, none⟩

/-- Work that was refused in state `s`. -/
def failed (s : σ) (f : Fault) : Attempt σ := ⟨s, some f⟩

/-- The work was completed. -/
def isDone (a : Attempt σ) : Bool := a.fault?.isNone

/-- Goes on with `next` unless a fault has ended the work. -/
@[inline] def andThen (a : Attempt σ) (next : σ → Attempt σ) : Attempt σ :=
  match a with
  | ⟨s, none⟩ => next s
  | ⟨s, some f⟩ => ⟨s, some f⟩

/-- The same outcome seen through a function of the state. -/
def map (g : σ → τ) (a : Attempt σ) : Attempt τ := ⟨g a.state, a.fault?⟩

/-- One step that either reaches a new state or leaves `s` as it is. -/
def ofExcept (s : σ) (step : Except Fault σ) : Attempt σ :=
  match step with
  | .ok s' => done s'
  | .error f => failed s f

/-- Carries out one step for every element, in order, up to the first fault. -/
def each (step : α → σ → Attempt σ) : List α → σ → Attempt σ
  | [], s => done s
  | a :: as, s => (step a s).andThen (each step as)

/-- Carries out the same step `n` times, up to the first fault. -/
def times (step : σ → Attempt σ) : Nat → σ → Attempt σ
  | 0, s => done s
  | n + 1, s => (step s).andThen (times step n)

@[simp] theorem done_andThen (s : σ) (next : σ → Attempt σ) : (done s).andThen next = next s :=
  rfl

@[simp] theorem failed_andThen (s : σ) (f : Fault) (next : σ → Attempt σ) :
    (failed s f).andThen next = failed s f := rfl

theorem andThen_assoc (a : Attempt σ) (g h : σ → Attempt σ) :
    (a.andThen g).andThen h = a.andThen fun s => (g s).andThen h := by
  rcases a with ⟨s, _ | f⟩ <;> rfl

@[simp] theorem each_nil (step : α → σ → Attempt σ) (s : σ) : each step [] s = done s := rfl

@[simp] theorem each_cons (step : α → σ → Attempt σ) (a : α) (as : List α) (s : σ) :
    each step (a :: as) s = (step a s).andThen (each step as) := rfl

/-- A sequence may be cut anywhere: the second part starts where the first one ended. -/
theorem each_append (step : α → σ → Attempt σ) (as bs : List α) (s : σ) :
    each step (as ++ bs) s = (each step as s).andThen (each step bs) := by
  induction as generalizing s with
  | nil => rfl
  | cons a as ih =>
    rw [List.cons_append, each_cons, each_cons, andThen_assoc]
    exact congrArg _ (funext ih)

@[simp] theorem times_zero (step : σ → Attempt σ) (s : σ) : times step 0 s = done s := rfl

theorem times_succ (step : σ → Attempt σ) (n : Nat) (s : σ) :
    times step (n + 1) s = (step s).andThen (times step n) := rfl

/-- Repeating a step `m + n` times is repeating it `m` times and then `n` times. -/
theorem times_add (step : σ → Attempt σ) (m n : Nat) (s : σ) :
    times step (m + n) s = (times step m s).andThen (times step n) := by
  induction m generalizing s with
  | zero => simp
  | succ m ih =>
    rw [Nat.succ_add, times_succ, times_succ, andThen_assoc]
    exact congrArg _ (funext ih)

end Attempt

end PackedLogic
