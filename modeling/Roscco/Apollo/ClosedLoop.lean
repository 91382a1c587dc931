import Mathlib.Tactic.Linarith
import Mathlib.Tactic.NormNum
import Roscco.Apollo.Basic
import Roscco.PidControl.Runs

/-!
# Closed-loop steering forgets

`closedLoopControl` creates the state of its controller anew in every call, so the integral
is that of one error and the derivative starts from zero each time. The torque of the first
command is that of a PID controller; a later one agrees with it only by coincidence, or
when both are limited on the same side.

## Main results

* `closedLoop_eq_pid_iff` — when a torque agrees with a controller that keeps its state.
-/

namespace Roscco.Apollo

open Library PidControl OsccToRos

variable {K : Type*} [Field K] [LinearOrder K]

/-! ## The torques of a run -/

def Event.isSteering : Event K → Bool
  | .steering _ _ => true
  | _ => false

def Output.torque : Output K → Option K
  | .steering command => some command.steeringTorque
  | _ => none

/-- The steering torques of a run, oldest first. -/
def torques (os : List (Output K)) : List K := os.filterMap Output.torque

/-- The steering angles that the steering commands of a run find. -/
def angles (vehicle : Vehicle) (ids : VehicleIds) (es : List (Event K)) : List K :=
  ((rosccoApollo vehicle ids).found (fun _ e => e.isSteering = true)
    (rosccoApollo vehicle ids).init es).map State.steeringAngleReport

/-- The torque that `closedLoopControl` writes to any command. -/
def closedLoopTorque (target angle : K) : K :=
  (pidController params (createPIDState target) angle).2

/-- With one target for all commands, each torque is that of `closedLoopControl` for the
angle measured last. -/
theorem torques_trace (vehicle : Vehicle) (ids : VehicleIds) {target : K} {es : List (Event K)}
    (htarget : ∀ input now, .steering input now ∈ es → input.steeringTarget = target) :
    torques ((rosccoApollo vehicle ids).trace es) =
      (angles vehicle ids es).map (closedLoopTorque target) := by
  rw [angles, List.map_map]
  refine (rosccoApollo vehicle ids).filterMap_traceFrom (fun s e he => ?_) _
  cases e with
  | steering input now =>
    obtain rfl := htarget input now he
    rfl
  | brake | throttle | canFrame => rfl

/-! ## Agreement -/

/-- The controller without memory agrees with the one that keeps its state: the limited sum
of all errors exceeds the last one by a quarter of the error before it, or both controllers
are limited on the same side. -/
def Agrees (target : K) (past : List K) (angle : K) : Prop :=
  let errors := past.map fun position => position - target
  let error := angle - target
  let integral := saturate (-params.iMax) params.iMax (windup params.iMax errors + error)
  let preError := errors.getLastD 0
  (-1000 < 21 * error ∧ 21 * error < 1000 ∧ 4 * (integral - error) = preError) ∨
    (1000 ≤ 21 * error ∧ 1000 ≤ 17 * error + 4 * integral - preError) ∨
    (21 * error ≤ -1000 ∧ 17 * error + 4 * integral - preError ≤ -1000)

instance (target : K) (past : List K) (angle : K) : Decidable (Agrees target past angle) :=
  inferInstanceAs (Decidable ((_ ∧ _ ∧ _) ∨ (_ ∧ _) ∨ (_ ∧ _)))

variable [IsStrictOrderedRing K]

theorem params_ordered :
    (params : PidTerms K).min ≤ params.max ∧ 0 ≤ (params : PidTerms K).iMax := by
  constructor <;> norm_num [params]

/-- A step with these parameters, in thousandths before the output is limited. -/
theorem torque_eq (state : PidState K) (angle : K) :
    let error := angle - state.setpoint
    let integral := saturate (-250) 250 (state.integral + error)
    (pidController params state angle).2 =
      saturate (-1) 1 ((17 * error + 4 * integral - state.preError) / 1000) := by
  intro error integral
  have hunlimited : (params : PidTerms K).unlimited error integral state.preError =
      (17 * error + 4 * integral - state.preError) / 1000 := by
    simp only [PidTerms.unlimited, params]
    ring
  rw [pidController_eq params_ordered.1 params_ordered.2, ← hunlimited]
  rfl

/-- The first sum is the error itself, unless the output is limited anyway. -/
theorem saturate_cases (error : K) :
    (-1000 < 21 * error ∧ 21 * error < 1000 ∧ saturate (-250) 250 error = error) ∨
      (1000 ≤ 21 * error ∧ 1000 ≤ 17 * error + 4 * saturate (-250) 250 error) ∨
      (21 * error ≤ -1000 ∧ 17 * error + 4 * saturate (-250) 250 error ≤ -1000) := by
  rcases lt_or_ge 250 error with hhigh | hhigh
  · rw [saturate_of_ge (by norm_num) hhigh.le]
    exact .inr (.inl ⟨by linarith, by linarith⟩)
  rcases lt_or_ge error (-250) with hlow | hlow
  · rw [saturate_of_le hlow.le]
    exact .inr (.inr ⟨by linarith, by linarith⟩)
  rw [saturate_of_mem hlow hhigh]
  rcases lt_or_ge (21 * error) 1000 with hmax | hmax
  · rcases lt_or_ge (-1000) (21 * error) with hmin | hmin
    · exact .inl ⟨hmin, hmax, rfl⟩
    · exact .inr (.inr ⟨hmin, by linarith⟩)
  · exact .inr (.inl ⟨hmax, by linarith⟩)

/-- When the two sums are limited to the same torque. -/
theorem saturate_sums_eq_iff (error integral preError : K) :
    saturate (-1) 1 ((17 * error + 4 * integral - preError) / 1000) =
        saturate (-1) 1 ((17 * error + 4 * saturate (-250) 250 error) / 1000) ↔
      (-1000 < 21 * error ∧ 21 * error < 1000 ∧ 4 * (integral - error) = preError) ∨
        (1000 ≤ 21 * error ∧ 1000 ≤ 17 * error + 4 * integral - preError) ∨
        (21 * error ≤ -1000 ∧ 17 * error + 4 * integral - preError ≤ -1000) := by
  rw [saturate_eq_saturate_iff (by norm_num), div_left_inj' (by norm_num),
    le_div_iff₀ (by norm_num), le_div_iff₀ (by norm_num), div_le_iff₀ (by norm_num),
    div_le_iff₀ (by norm_num)]
  rcases saturate_cases error with ⟨hmin, hmax, hsum⟩ | ⟨hmax, hfirst⟩ | ⟨hmin, hfirst⟩
  · rw [hsum]
    constructor
    · rintro (heq | ⟨-, h⟩ | ⟨-, h⟩)
      · exact .inl ⟨hmin, hmax, by linarith⟩
      · exact absurd h (by linarith)
      · exact absurd h (by linarith)
    · rintro (⟨-, -, heq⟩ | ⟨h, -⟩ | ⟨h, -⟩)
      · exact .inl (by linarith)
      · exact absurd h (by linarith)
      · exact absurd h (by linarith)
  · constructor
    · rintro (heq | ⟨h, -⟩ | ⟨-, h⟩)
      · exact .inr (.inl ⟨hmax, by linarith⟩)
      · exact .inr (.inl ⟨hmax, by linarith⟩)
      · exact absurd h (by linarith)
    · rintro (⟨-, h, -⟩ | ⟨-, h⟩ | ⟨h, -⟩)
      · exact absurd h (by linarith)
      · exact .inr (.inl ⟨by linarith, by linarith⟩)
      · exact absurd h (by linarith)
  · constructor
    · rintro (heq | ⟨-, h⟩ | ⟨h, -⟩)
      · exact .inr (.inr ⟨hmin, by linarith⟩)
      · exact absurd h (by linarith)
      · exact .inr (.inr ⟨hmin, by linarith⟩)
    · rintro (⟨h, -, -⟩ | ⟨h, -⟩ | ⟨-, h⟩)
      · exact absurd h (by linarith)
      · exact absurd h (by linarith)
      · exact .inr (.inr ⟨by linarith, by linarith⟩)

/-- One torque, after any commands with the same target. -/
theorem emit_eq_closedLoopTorque_iff (target : K) (past : List K) (angle : K) :
    (pid params target).emit ((pid params target).state past) angle =
      [closedLoopTorque target angle] ↔ Agrees target past angle := by
  have hfirst : closedLoopTorque target angle =
      saturate (-1) 1 ((17 * (angle - target) + 4 * saturate (-250) 250 (angle - target)) /
        1000) := by
    rw [closedLoopTorque, torque_eq]
    simp [createPIDState]
  rw [emit_pid, List.singleton_inj, state_pid params_ordered.1 params_ordered.2, torque_eq,
    hfirst, saturate_sums_eq_iff]
  rfl

/-- The first torque is that of the controller that keeps its state. -/
theorem agrees_nil (target angle : K) : Agrees target [] angle :=
  (emit_eq_closedLoopTorque_iff target [] angle).mp rfl

/-- Closed-loop steering is a PID controller over time exactly on the commands where
forgetting the state makes no difference. -/
theorem closedLoop_eq_pid_iff (vehicle : Vehicle) (ids : VehicleIds) (target : K) :
    (∀ past angle output, (pid params target).emit ((pid params target).state past) angle =
        [(closedLoopControl target output angle).steeringTorque] ↔ Agrees target past angle) ∧
    ∀ es, (∀ input now, .steering input now ∈ es → input.steeringTarget = target) →
      (torques ((rosccoApollo vehicle ids).trace es) =
          (pid params target).trace (angles vehicle ids es) ↔
        Historically (Agrees target) (angles vehicle ids es)) := by
  refine ⟨fun past angle _ => emit_eq_closedLoopTorque_iff target past angle, ?_⟩
  intro es htarget
  have hsingle (state : PidState K) (angle : K) :
      ∃ torque, (pid params target).emit state angle = [torque] := ⟨_, rfl⟩
  rw [torques_trace vehicle ids htarget, eq_comm, (pid params target).trace_eq_map_iff hsingle]
  simp only [emit_eq_closedLoopTorque_iff]

/-- Distinct identifiers, for runs on given frames. -/
def someIds : VehicleIds := ⟨0x371, 0x220, 0x2B0, 0x52A, by decide⟩

/-- A measured angle of 18, and two commands to steer to 0. -/
def twoCommands : List (Event ℚ) :=
  [.canFrame ⟨0x2B0, 8, #v[0xE8, 0x03, 0, 0, 0, 0, 0, 0]⟩, .steering ⟨0, 0, 0⟩ 1,
    .steering ⟨0, 0, 0⟩ 2]

theorem steeringTarget_twoCommands {input : ControlCommand ℚ} {now : Time}
    (h : .steering input now ∈ twoCommands) : input.steeringTarget = 0 := by
  simp only [twoCommands, List.mem_cons, List.not_mem_nil, reduceCtorEq, Event.steering.injEq,
    false_or, or_false] at h
  rcases h with ⟨rfl, -⟩ | ⟨rfl, -⟩ <;> rfl

/-- The first command agrees, the second does not. -/
theorem closedLoop_eq_pid_iff_first :
    (pid params 0).emit ((pid params 0).state []) (18 : ℚ) =
      [(closedLoopControl 0 ⟨0, 0⟩ 18).steeringTorque] ∧
    torques ((rosccoApollo .kiaNiro someIds).trace twoCommands) ≠
      (pid params 0).trace (angles .kiaNiro someIds twoCommands) := by
  obtain ⟨hone, hrun⟩ := closedLoop_eq_pid_iff .kiaNiro someIds (0 : ℚ)
  refine ⟨(hone [] 18 ⟨0, 0⟩).mpr (agrees_nil 0 18), fun h => ?_⟩
  have hagrees := (hrun twoCommands fun _ _ => steeringTarget_twoCommands).mp h
  exact absurd hagrees (by decide +kernel)

/-- The second torque for an angle that does not move repeats the first. -/
theorem not_closedLoop_eq_pid :
    ¬ ∀ (target : ℚ) (es : List (Event ℚ)),
      (∀ input now, .steering input now ∈ es → input.steeringTarget = target) →
      torques ((rosccoApollo .kiaNiro someIds).trace es) =
        (pid params target).trace (angles .kiaNiro someIds es) := by
  intro h
  have heq := h 0 twoCommands fun _ _ => steeringTarget_twoCommands
  exact absurd heq (by decide +kernel)

end Roscco.Apollo
