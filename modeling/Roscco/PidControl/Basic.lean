import Mathlib.Algebra.Field.Rat
import Mathlib.Algebra.Order.Ring.Rat
import Roscco.Library.Machine

/-!
# The PID controller

`pid_control.cpp` in exact arithmetic, over any ordered field. The caller owns the state:
it is created once for a setpoint and passed to every step.
-/

namespace Roscco.PidControl

open Library

/-- `pid_terms`. -/
structure PidTerms (K : Type*) where
  max : K
  min : K
  pTerm : K
  iTerm : K
  dTerm : K
  iMax : K
  deriving DecidableEq, Repr

/-- `pid_state`. -/
structure PidState (K : Type*) where
  integral : K
  preError : K
  setpoint : K
  deriving DecidableEq, Repr

variable {K : Type*} [Field K] [LinearOrder K]

def createPIDState (setpoint : K) : PidState K where
  integral := 0
  preError := 0
  setpoint := setpoint

/-- One step of the controller: the state it leaves and its output. -/
def pidController (terms : PidTerms K) (state : PidState K) (position : K) : PidState K × K :=
  let error := position - state.setpoint
  let pOut := terms.pTerm * error
  let integral := state.integral + error
  let integral := if terms.iMax < integral then terms.iMax else integral
  let integral := if integral < -terms.iMax then -terms.iMax else integral
  let iOut := terms.iTerm * integral
  let derivative := error - state.preError
  let dOut := terms.dTerm * derivative
  let output := pOut + iOut + dOut
  let output :=
    if terms.max < output then terms.max
    else if output < terms.min then terms.min
    else output
  ({ state with integral, preError := error }, output)

/-- The controller over time: one state for a setpoint, and one output for each position. -/
def pid (terms : PidTerms K) (setpoint : K) : Machine (PidState K) K K where
  init := createPIDState setpoint
  step state position :=
    let (state, output) := pidController terms state position
    (state, [output])

/-- The integral stops at its limit, and the output at the maximum. -/
example : (pid (⟨10, -10, 1, 1, 0, 5⟩ : PidTerms ℚ) 1).trace [4, 4, 4, -9] = [6, 8, 8, -10] := by
  decide +kernel

end Roscco.PidControl
