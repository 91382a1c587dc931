import Roscco.OsccToRos.Reports
import Roscco.PidControl.Basic

/-!
# The Apollo bridge

`RosccoApollo` turns Apollo control commands into ROSCCO commands and CAN frames into
chassis reports, in exact arithmetic. The CAN identifiers come from OSCC's `vehicles.h`, so
they are parameters, as is the vehicle that the bridge is compiled for.
-/

namespace Roscco.Apollo

open Library PidControl OsccToRos

/-- The vehicles with a conversion of their own. -/
inductive Vehicle where
  | kiaSoulEv
  | kiaNiro
  deriving DecidableEq, Repr

/-- The identifiers of the OBD frames; as labels of one `switch` they are distinct. -/
structure VehicleIds where
  KIA_SOUL_OBD_THROTTLE_PRESSURE_CAN_ID : BitVec 32
  KIA_SOUL_OBD_BRAKE_PRESSURE_CAN_ID : BitVec 32
  KIA_SOUL_OBD_STEERING_WHEEL_ANGLE_CAN_ID : BitVec 32
  KIA_SOUL_OBD_SPEED_CAN_ID : BitVec 32
  distinct : [KIA_SOUL_OBD_THROTTLE_PRESSURE_CAN_ID, KIA_SOUL_OBD_BRAKE_PRESSURE_CAN_ID,
    KIA_SOUL_OBD_STEERING_WHEEL_ANGLE_CAN_ID, KIA_SOUL_OBD_SPEED_CAN_ID].Nodup

/-! ## Messages -/

/-- What the bridge reads of an `apollo::control::ControlCommand`. -/
structure ControlCommand (K : Type*) where
  steeringTarget : K
  brake : K
  throttle : K

structure BrakeCommand (K : Type*) where
  stamp : Time
  brakePosition : K

structure ThrottleCommand (K : Type*) where
  stamp : Time
  throttlePosition : K

structure SteeringCommand (K : Type*) where
  stamp : Time
  steeringTorque : K

structure Chassis (K : Type*) where
  steeringPercentage : K
  throttlePercentage : K
  brakePercentage : K
  speedMps : K

inductive Output (K : Type*) where
  | brake (command : BrakeCommand K)
  | throttle (command : ThrottleCommand K)
  | steering (command : SteeringCommand K)
  | chassis (report : Chassis K)

/-- The callbacks; `now` is the time that one reads for its stamp. -/
inductive Event (K : Type*) where
  | steering (input : ControlCommand K) (now : Time)
  | brake (input : ControlCommand K) (now : Time)
  | throttle (input : ControlCommand K) (now : Time)
  | canFrame (input : CanFrameData)

/-! ## Callbacks -/

/-- The last report of each kind. -/
structure State (K : Type*) where
  steeringAngleReport : K
  throttleReport : K
  brakeReport : K
  speedReport : K

variable {K : Type*} [Field K]

def THROTTLE_RATIO : K := 0.393

def STEERING_RATIO : K := 0.018

def BRAKE_RATIO : Vehicle → K
  | .kiaSoulEv => 0.12
  | .kiaNiro => 0.033

def SPEED_RATIO : Vehicle → K
  | .kiaSoulEv => 0.002
  | .kiaNiro => 0.3

variable [LinearOrder K]

/-- The `params` of `closedLoopControl`. -/
def params : PidTerms K where
  max := 1
  min := -1
  pTerm := 0.016
  iTerm := 0.004
  dTerm := 0.001
  iMax := 250

/-- The controller's state lives only as long as the call. -/
def closedLoopControl (setpoint : K) (output : SteeringCommand K) (steeringAngleReport : K) :
    SteeringCommand K :=
  let state := createPIDState setpoint
  { output with steeringTorque := (pidController params state steeringAngleReport).2 }

def steeringCallback (s : State K) (input : ControlCommand K) (now : Time) : SteeringCommand K :=
  closedLoopControl input.steeringTarget ⟨now, 0⟩ s.steeringAngleReport

def brakeCallback (input : ControlCommand K) (now : Time) : BrakeCommand K where
  stamp := now
  brakePosition := input.brake / 100

def throttleCallback (input : ControlCommand K) (now : Time) : ThrottleCommand K where
  stamp := now
  throttlePosition := input.throttle / 100

/-- `canFrameCallback` on the member that the identifier selects. -/
def State.update (vehicle : Vehicle) (ids : VehicleIds) (s : State K) (frame : CanFrameData) :
    State K :=
  let data (i : Nat) : K := (frame.data[i]!).toNat
  if frame.canId = ids.KIA_SOUL_OBD_THROTTLE_PRESSURE_CAN_ID then
    let throttleReport := match vehicle with
      | .kiaSoulEv => data 4
      | .kiaNiro => data 7
    { s with throttleReport := throttleReport * THROTTLE_RATIO }
  else if frame.canId = ids.KIA_SOUL_OBD_BRAKE_PRESSURE_CAN_ID then
    let brakeReport := match vehicle with
      | .kiaSoulEv => data 4 + data 5 * 256
      | .kiaNiro => data 3 + data 4 * 256
    { s with brakeReport := brakeReport * BRAKE_RATIO vehicle }
  else if frame.canId = ids.KIA_SOUL_OBD_STEERING_WHEEL_ANGLE_CAN_ID then
    let steeringAngleReport := data 0 + data 1 * 256
    let steeringAngleReport :=
      if 60000 < steeringAngleReport then steeringAngleReport - 65535 else steeringAngleReport
    { s with steeringAngleReport := steeringAngleReport * STEERING_RATIO }
  else if frame.canId = ids.KIA_SOUL_OBD_SPEED_CAN_ID then
    let speedReport := match vehicle with
      | .kiaSoulEv => data 3 + data 2 * 128
      | .kiaNiro => data 0
    { s with speedReport := speedReport * SPEED_RATIO vehicle }
  else s

/-- Every frame is answered with a chassis report, whether it changed a member or not. -/
def canFrameCallback (vehicle : Vehicle) (ids : VehicleIds) (s : State K) (input : CanFrameData) :
    State K × Chassis K :=
  let s := s.update vehicle ids input
  (s, ⟨s.steeringAngleReport, s.throttleReport, s.brakeReport, s.speedReport⟩)

def step (vehicle : Vehicle) (ids : VehicleIds) (s : State K) :
    Event K → State K × List (Output K)
  | .steering input now => (s, [.steering (steeringCallback s input now)])
  | .brake input now => (s, [.brake (brakeCallback input now)])
  | .throttle input now => (s, [.throttle (throttleCallback input now)])
  | .canFrame input =>
    let (s, report) := canFrameCallback vehicle ids s input
    (s, [.chassis report])

/-- The bridge: every order of callbacks is a run. -/
def rosccoApollo (vehicle : Vehicle) (ids : VehicleIds) :
    Machine (State K) (Event K) (Output K) where
  init := ⟨0, 0, 0, 0⟩
  step := step vehicle ids

end Roscco.Apollo
