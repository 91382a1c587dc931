import Roscco.Apollo.ClosedLoop

/-!
# What the Apollo bridge remembers

Of all frames the bridge keeps the last one of each kind, and of all commands nothing. Its
chassis reports are conversions of these four frames, and since the controller starts anew with
every command, closed-loop steering is a proportional law: the torque is the limited multiple of
one error, with the gains of all three terms added up.

## Main results

* `answers_from_last_frames` — every output of every run, from the last frames alone.
-/

namespace Roscco.Apollo

open Library PidControl OsccToRos

variable {K : Type*} [Field K] [LinearOrder K]

/-! ## Quantities -/

/-- The four quantities that the vehicle reports. -/
inductive Quantity where
  | throttle
  | brake
  | steeringAngle
  | speed
  deriving DecidableEq, Repr

def State.get (s : State K) : Quantity → K
  | .throttle => s.throttleReport
  | .brake => s.brakeReport
  | .steeringAngle => s.steeringAngleReport
  | .speed => s.speedReport

def VehicleIds.id (ids : VehicleIds) : Quantity → BitVec 32
  | .throttle => ids.KIA_SOUL_OBD_THROTTLE_PRESSURE_CAN_ID
  | .brake => ids.KIA_SOUL_OBD_BRAKE_PRESSURE_CAN_ID
  | .steeringAngle => ids.KIA_SOUL_OBD_STEERING_WHEEL_ANGLE_CAN_ID
  | .speed => ids.KIA_SOUL_OBD_SPEED_CAN_ID

/-- What a bridge that has seen nothing else reads from a frame. -/
def reading (vehicle : Vehicle) (ids : VehicleIds) (frame : CanFrameData) (quantity : Quantity) :
    K :=
  (State.update vehicle ids ⟨0, 0, 0, 0⟩ frame).get quantity

/-- The frame, if it is about the quantity. -/
def Event.about (ids : VehicleIds) (quantity : Quantity) : Event K → Option CanFrameData
  | .canFrame input => if input.canId = ids.id quantity then some input else none
  | .steering _ _ | .brake _ _ | .throttle _ _ => none

/-- The reading of the last frame about a quantity, zero before the first. -/
def measured (vehicle : Vehicle) (ids : VehicleIds) (es : List (Event K)) (quantity : Quantity) :
    K :=
  (es.filterMap (Event.about ids quantity)).getLast?.elim 0 (reading vehicle ids · quantity)

/-- A frame sets the quantity that it is about, to what it reads for it, and no other. -/
theorem get_update (vehicle : Vehicle) (ids : VehicleIds) (s : State K) (frame : CanFrameData)
    (quantity : Quantity) :
    (s.update vehicle ids frame).get quantity =
      if frame.canId = ids.id quantity then reading vehicle ids frame quantity
      else s.get quantity := by
  have hdistinct := ids.distinct
  simp only [List.nodup_cons, List.mem_cons, List.not_mem_nil, or_false, not_or] at hdistinct
  cases quantity <;> simp only [reading, State.update, VehicleIds.id] <;> split_ifs <;>
    first | rfl | grind

theorem measured_snoc (vehicle : Vehicle) (ids : VehicleIds) (es : List (Event K)) (e : Event K)
    (quantity : Quantity) :
    measured vehicle ids (es ++ [e]) quantity =
      (e.about ids quantity).elim (measured vehicle ids es quantity)
        (reading vehicle ids · quantity) := by
  cases h : e.about ids quantity <;> simp [measured, h]

/-- The bridge remembers the last frame of each kind, and nothing else. -/
theorem get_state (vehicle : Vehicle) (ids : VehicleIds) (es : List (Event K))
    (quantity : Quantity) :
    ((rosccoApollo vehicle ids).state es).get quantity = measured vehicle ids es quantity := by
  induction es using List.reverseRecOn with
  | nil => cases quantity <;> rfl
  | append_singleton es e ih =>
    rw [Machine.state_snoc, measured_snoc, ← ih]
    cases e with
    | steering | brake | throttle => rfl
    | canFrame input =>
      refine (get_update vehicle ids _ input quantity).trans ?_
      simp only [Event.about]
      split <;> rfl

/-! ## The proportional law -/

/-- A controller that has just been created multiplies the same error by all three terms. -/
def gain : K := params.pTerm + params.iTerm + params.dTerm

variable [IsStrictOrderedRing K]

theorem gain_mul (error : K) : gain * error = 21 * error / 1000 := by
  simp only [gain, params]
  ring

theorem closedLoopTorque_eq (target angle : K) :
    closedLoopTorque target angle = saturate (-1) 1 (gain * (angle - target)) := by
  have hsums := torque_eq (createPIDState target) angle
  simp only [createPIDState, zero_add, sub_zero] at hsums
  rw [closedLoopTorque, createPIDState, hsums, gain_mul]
  rcases saturate_cases (angle - target) with ⟨-, -, hsum⟩ | ⟨hmax, hfirst⟩ | ⟨hmin, hfirst⟩
  · rw [hsum]
    congr 1
    ring
  · rw [saturate_of_ge (by norm_num), saturate_of_ge (by norm_num)] <;> linarith
  · rw [saturate_of_le, saturate_of_le] <;> linarith

/-- What the bridge answers, from the last frames alone. -/
def answer (vehicle : Vehicle) (ids : VehicleIds) (past : List (Event K)) : Event K → Output K
  | .steering input now =>
    let error := measured vehicle ids past .steeringAngle - input.steeringTarget
    .steering ⟨now, saturate (-1) 1 (gain * error)⟩
  | .brake input now => .brake (brakeCallback input now)
  | .throttle input now => .throttle (throttleCallback input now)
  | .canFrame input =>
    let measured := measured vehicle ids (past ++ [.canFrame input])
    .chassis ⟨measured .steeringAngle, measured .throttle, measured .brake, measured .speed⟩

/-- In every run each command and each frame is answered from the last frame of each kind. A
torque is the error between the last measured angle and the target times `gain`, 21 thousandths,
limited to [-1, 1]; earlier commands, targets and angles have no part in it. -/
theorem answers_from_last_frames (vehicle : Vehicle) (ids : VehicleIds) (es : List (Event K)) :
    Historically (fun past e =>
      (rosccoApollo vehicle ids).emit ((rosccoApollo vehicle ids).state past) e =
        [answer vehicle ids past e]) es := by
  intro past e _
  cases e with
  | steering input now =>
    have hangle := get_state vehicle ids past .steeringAngle
    calc (rosccoApollo vehicle ids).emit ((rosccoApollo vehicle ids).state past)
          (.steering input now)
        = [.steering ⟨now, closedLoopTorque input.steeringTarget
            (((rosccoApollo vehicle ids).state past).get .steeringAngle)⟩] := rfl
      _ = _ := by rw [hangle, closedLoopTorque_eq]; rfl
  | brake | throttle => rfl
  | canFrame input =>
    have hstate := get_state vehicle ids (past ++ [.canFrame input])
    simp only [answer, ← hstate, Machine.state_snoc]
    rfl

/-- The second of two commands is answered like the first. -/
theorem answers_from_last_frames_second :
    (rosccoApollo .kiaNiro someIds).emit
        ((rosccoApollo .kiaNiro someIds).state (twoCommands.take 2)) (.steering ⟨0, 0, 0⟩ 2) =
      [answer .kiaNiro someIds (twoCommands.take 2) (.steering ⟨0, 0, 0⟩ 2)] :=
  answers_from_last_frames .kiaNiro someIds twoCommands (twoCommands.take 2)
    (.steering ⟨0, 0, 0⟩ 2) List.prefix_rfl

end Roscco.Apollo
