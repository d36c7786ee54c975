import Mathlib.Logic.Function.Basic

/-! Fibers: the state a worker and the fiber itself both write, the saved context, and the body.

A callback given to a scheduler is identified by its serial number, counted over
the schedule calls of a run. A fiber built by user code has a body that is not
such a callback, and its `cb` is `none` here.
-/

set_option autoImplicit false

namespace HpsSf

abbrev FiberId := Nat

abbrev Callback := Nat

namespace Fiber

inductive State where
  | init | hold | exec | term | ready | except
  deriving DecidableEq, Repr

/-- What switching to the saved context would do. `makecontext` leaves a fresh
one; after the last `swapOut` of `MainFunc` only the `never reach` assertion is left. -/
inductive Context where
  | fresh | suspended | ended
  deriving DecidableEq, Repr

/-- TERM or EXCEPT: the body has returned or thrown. -/
def State.over : State → Bool
  | .term | .except => true
  | .init | .hold | .exec | .ready => false

/-- The states that `reset` and the destructor assert. -/
def State.resettable (state : State) : Bool :=
  state == .term || state == .init || state == .except

/-- The guard of `run`, as written: `!= TERM || != EXCEPT`. -/
def State.runnable (state : State) : Bool :=
  state != .term || state != .except

/-- No state is both TERM and EXCEPT, so the guard rejects nothing. -/
@[simp] theorem State.runnable_eq_true (state : State) : state.runnable = true := by
  cases state <;> rfl

end Fiber

structure Fiber where
  state : Fiber.State
  context : Fiber.Context
  cb : Option Callback
  /-- Built by a worker for a callback, not by user code. -/
  pooled : Bool
  deriving DecidableEq, Repr

namespace Fiber

/-- A fiber just constructed. -/
def create (cb : Option Callback) (pooled : Bool) : Fiber :=
  ⟨.init, .fresh, cb, pooled⟩

/-- `none` is a failed assertion. -/
def reset (fiber : Fiber) (cb : Option Callback) : Option Fiber :=
  if fiber.state.resettable then some ⟨.init, .fresh, cb, fiber.pooled⟩ else none

theorem reset_eq_some {fiber after : Fiber} {cb : Option Callback}
    (same : fiber.reset cb = some after) :
    fiber.state.resettable = true ∧ after = ⟨.init, .fresh, cb, fiber.pooled⟩ := by
  unfold reset at same
  split at same
  next able => exact ⟨able, (Option.some.inj same).symm⟩
  next => cases same

/-- The callback that is still to be finished by this fiber. -/
def carried (fiber : Fiber) : Option Callback :=
  if fiber.state.over then none else fiber.cb

end Fiber
end HpsSf
