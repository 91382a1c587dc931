import Mathlib.Tactic.Ring
import Roscco.Library.Saturation
import Roscco.PidControl.Basic

/-!
# Bounds and symmetry of the controller

Between ordered limits both chains of comparisons in `pidController` are saturations. The
saturated integral feeds the next step, so the range of what a run can reach is that of one
step, and with output limits symmetric about zero a run and its mirror image stay mirror
images of each other.

## Main results

* `pidController_eq` — one step as two saturations.
* `pid_bounded_symmetric` — bounds and symmetry of every run.
-/

namespace Roscco.PidControl

open Library

variable {K : Type*} [Field K] {terms : PidTerms K}

/-! ## Mirror images -/

/-- The output before it is limited. -/
def PidTerms.unlimited (terms : PidTerms K) (error integral preError : K) : K :=
  terms.pTerm * error + terms.iTerm * integral + terms.dTerm * (error - preError)

/-- The state of the mirrored run: the same distances on the other side of zero. -/
instance : Neg (PidState K) where
  neg state := ⟨-state.integral, -state.preError, -state.setpoint⟩

@[simp] theorem integral_neg (state : PidState K) : (-state).integral = -state.integral := rfl

@[simp] theorem preError_neg (state : PidState K) : (-state).preError = -state.preError := rfl

@[simp] theorem setpoint_neg (state : PidState K) : (-state).setpoint = -state.setpoint := rfl

theorem createPIDState_neg (setpoint : K) :
    createPIDState (-setpoint) = -createPIDState setpoint :=
  congrArg₂ (PidState.mk · · (-setpoint)) neg_zero.symm neg_zero.symm

theorem PidTerms.unlimited_neg (terms : PidTerms K) (error integral preError : K) :
    terms.unlimited (-error) (-integral) (-preError) =
      -terms.unlimited error integral preError := by
  simp only [PidTerms.unlimited]
  ring

/-! ## One step -/

variable [LinearOrder K]

theorem step_pid (terms : PidTerms K) (setpoint : K) (state : PidState K) (position : K) :
    (pid terms setpoint).step state position =
      ((pidController terms state position).1, [(pidController terms state position).2]) := rfl

@[simp] theorem next_pid (terms : PidTerms K) (setpoint : K) (state : PidState K) (position : K) :
    (pid terms setpoint).next state position = (pidController terms state position).1 := rfl

@[simp] theorem emit_pid (terms : PidTerms K) (setpoint : K) (state : PidState K) (position : K) :
    (pid terms setpoint).emit state position = [(pidController terms state position).2] := rfl

@[simp] theorem preError_pidController (terms : PidTerms K) (state : PidState K) (position : K) :
    (pidController terms state position).1.preError = position - state.setpoint := rfl

/-- No step changes the setpoint. -/
theorem setpoint_state (terms : PidTerms K) (setpoint : K) (positions : List K) :
    ((pid terms setpoint).state positions).setpoint = setpoint :=
  (pid terms setpoint).invariant (I := fun state => state.setpoint = setpoint) rfl
    (fun _ _ h => h) positions

/-- The running sum of errors, limited after every term. -/
def windup (iMax : K) (errors : List K) : K :=
  errors.foldl (fun sum error => saturate (-iMax) iMax (sum + error)) 0

theorem windup_snoc (iMax : K) (errors : List K) (error : K) :
    windup iMax (errors ++ [error]) = saturate (-iMax) iMax (windup iMax errors + error) := by
  simp [windup]

variable [IsStrictOrderedRing K]

/-- Between ordered limits a step is two saturations. -/
theorem pidController_eq (hlimits : terms.min ≤ terms.max) (hwindup : 0 ≤ terms.iMax)
    (state : PidState K) (position : K) :
    let error := position - state.setpoint
    let integral := saturate (-terms.iMax) terms.iMax (state.integral + error)
    pidController terms state position =
      (⟨integral, error, state.setpoint⟩,
        saturate terms.min terms.max (terms.unlimited error integral state.preError)) := by
  have horder : -terms.iMax ≤ terms.iMax := neg_le_self hwindup
  simp only [pidController, PidTerms.unlimited, saturate_eq_sequential horder,
    saturate_eq_nested hlimits]

/-- A step of the mirrored controller is the mirror image of the step. -/
theorem pidController_neg (hlimits : terms.min ≤ terms.max) (hwindup : 0 ≤ terms.iMax)
    (hsymmetric : terms.min = -terms.max) (state : PidState K) (position : K) :
    pidController terms (-state) (-position) =
      (-(pidController terms state position).1, -(pidController terms state position).2) := by
  have horder : -terms.iMax ≤ terms.iMax := neg_le_self hwindup
  have hmax : terms.max = -terms.min := by rw [hsymmetric, neg_neg]
  have herror : -position - (-state).setpoint = -(position - state.setpoint) := by
    rw [setpoint_neg]
    ring
  have hintegral : saturate (-terms.iMax) terms.iMax
      ((-state).integral + -(position - state.setpoint)) =
        -saturate (-terms.iMax) terms.iMax (state.integral + (position - state.setpoint)) := by
    rw [integral_neg, ← neg_add, ← saturate_neg horder, neg_neg]
  have houtput (x : K) :
      saturate terms.min terms.max (-x) = -saturate terms.min terms.max x := by
    rw [← saturate_neg hlimits, ← hsymmetric, ← hmax]
  simp only [pidController_eq hlimits hwindup, herror, hintegral, preError_neg,
    PidTerms.unlimited_neg, houtput]
  rfl

/-! ## Whole runs -/

/-- The state holds the limited sum of all errors and the last of them. -/
theorem state_pid (hlimits : terms.min ≤ terms.max) (hwindup : 0 ≤ terms.iMax) (setpoint : K)
    (positions : List K) :
    let errors := positions.map fun position => position - setpoint
    (pid terms setpoint).state positions =
      ⟨windup terms.iMax errors, errors.getLastD 0, setpoint⟩ := by
  induction positions using List.reverseRecOn with
  | nil => rfl
  | append_singleton positions position ih =>
    simp only [Machine.state_snoc, ih, next_pid, pidController_eq hlimits hwindup,
      List.map_append, List.map_singleton, windup_snoc, List.getLastD_concat]

/-- What a step leaves, from any state. -/
theorem pidController_bounded (hlimits : terms.min ≤ terms.max) (hwindup : 0 ≤ terms.iMax)
    (state : PidState K) (position : K) :
    let (next, output) := pidController terms state position
    (-terms.iMax ≤ next.integral ∧ next.integral ≤ terms.iMax) ∧
      terms.min ≤ output ∧ output ≤ terms.max := by
  have horder : -terms.iMax ≤ terms.iMax := neg_le_self hwindup
  rw [pidController_eq hlimits hwindup]
  exact ⟨⟨le_saturate _ _ _, saturate_le horder _⟩, le_saturate _ _ _, saturate_le hlimits _⟩

/-- Every run stays within the limits, and mirrored runs give mirrored outputs. -/
theorem pid_bounded_symmetric (terms : PidTerms K) (hlimits : terms.min ≤ terms.max)
    (hwindup : 0 ≤ terms.iMax) (setpoint : K) (positions : List K) :
    Historically (fun past position =>
      let state := (pid terms setpoint).state (past ++ [position])
      (-terms.iMax ≤ state.integral ∧ state.integral ≤ terms.iMax) ∧
      state.preError = position - setpoint ∧
      ∃ output, (pid terms setpoint).emit ((pid terms setpoint).state past) position = [output] ∧
        terms.min ≤ output ∧ output ≤ terms.max) positions ∧
    (terms.min = -terms.max →
      let mirrored := pid terms (-setpoint)
      let negated := positions.map fun position => -position
      mirrored.trace negated = ((pid terms setpoint).trace positions).map (fun output => -output) ∧
      (mirrored.state negated).integral = -((pid terms setpoint).state positions).integral ∧
      (mirrored.state negated).preError = -((pid terms setpoint).state positions).preError) := by
  refine ⟨?_, ?_⟩
  · intro past position _
    obtain ⟨hintegral, houtput⟩ := pidController_bounded hlimits hwindup
      ((pid terms setpoint).state past) position
    refine ⟨?_, ?_, _, rfl, houtput⟩
    · rw [Machine.state_snoc]
      exact hintegral
    · rw [Machine.state_snoc, next_pid, preError_pidController, setpoint_state]
  · intro hsymmetric
    obtain ⟨htrace, hstate⟩ := (pid terms setpoint).run_translate (pid terms (-setpoint))
      (f := fun state => -state) (g := fun position => -position) (k := fun output => -output)
      (createPIDState_neg setpoint)
      (fun state position => by
        rw [step_pid, pidController_neg hlimits hwindup hsymmetric]
        rfl) positions
    exact ⟨htrace, by rw [hstate, integral_neg], by rw [hstate, preError_neg]⟩

/-- Two large errors: the integral and the output stop at their limits, on either side. -/
theorem pid_bounded_symmetric_clamped :
    let terms : PidTerms ℚ := ⟨1, -1, 1, 1 / 4, 0, 5⟩
    (((pid terms 1).state [5, 5]).integral ≤ 5) ∧
      (pid terms (-1)).trace [-5, -5] =
        ((pid terms 1).trace [5, 5]).map fun output => -output := by
  intro terms
  have hlimits : terms.min ≤ terms.max := by decide +kernel
  have hwindup : 0 ≤ terms.iMax := by decide +kernel
  obtain ⟨hbounded, hmirrored⟩ := pid_bounded_symmetric terms hlimits hwindup 1 [5, 5]
  exact ⟨(hbounded [5] 5 List.prefix_rfl).1.2, (hmirrored rfl).1⟩

end Roscco.PidControl
