import Roscco.Library.Machine
import Roscco.Rclcpp

/-!
# From ROS commands to OSCC

`RosToOscc` clamps every command to the configured limits of its channel and hands it to
the OSCC API. The node keeps no state between messages. Its calls of `std::clamp` are
observed next to its OSCC calls, because `std::clamp` has a precondition.
-/

namespace Roscco.RosToOscc

open Library

/-! ## Configuration -/

inductive Channel where
  | brake
  | steering
  | throttle
  deriving DecidableEq, Repr

structure Config where
  brakeMin : DeclaredDouble 0 1
  brakeMax : DeclaredDouble 0 1
  throttleMin : DeclaredDouble 0 1
  throttleMax : DeclaredDouble 0 1
  steeringMin : DeclaredDouble (-1) 0
  steeringMax : DeclaredDouble 0 1

/-- The constructor's declarations, with their defaults and ranges. Nothing relates a
minimum to its maximum. -/
def Config.declare (node : Overrides) : Option Config := do
  let brakeMin ← declareDouble node "limits.brake_min" 0 0 1
  let brakeMax ← declareDouble node "limits.brake_max" 1 0 1
  let throttleMin ← declareDouble node "limits.throttle_min" 0 0 1
  let throttleMax ← declareDouble node "limits.throttle_max" 1 0 1
  let steeringMin ← declareDouble node "limits.steering_torque_min" (-1) (-1) 0
  let steeringMax ← declareDouble node "limits.steering_torque_max" 1 0 1
  pure ⟨brakeMin, brakeMax, throttleMin, throttleMax, steeringMin, steeringMax⟩

/-- The configuration of a bridge started without overrides: full authority. -/
def Config.default : Config where
  brakeMin := ⟨0, by norm_num⟩
  brakeMax := ⟨1, one_mem_fraction⟩
  throttleMin := ⟨0, by norm_num⟩
  throttleMax := ⟨1, one_mem_fraction⟩
  steeringMin := ⟨-1, by norm_num⟩
  steeringMax := ⟨1, one_mem_fraction⟩

/-- Every default passes its own range check. -/
theorem Config.declare_default : Config.declare {} = some Config.default := by
  simp (disch := norm_num) only [Config.declare, declareDouble_default, Option.bind_eq_bind,
    Option.bind_some]
  rfl

/-- The configured minimum of a channel. -/
def Config.lower (cfg : Config) : Channel → ℚ
  | .brake => cfg.brakeMin.1
  | .steering => cfg.steeringMin.1
  | .throttle => cfg.throttleMin.1

/-- The configured maximum of a channel. -/
def Config.upper (cfg : Config) : Channel → ℚ
  | .brake => cfg.brakeMax.1
  | .steering => cfg.steeringMax.1
  | .throttle => cfg.throttleMax.1

/-! ## Events and observations -/

/-- `oscc_result_t`. -/
inductive OsccResult where
  | ok
  | error
  | warning
  deriving DecidableEq, Repr

inductive Log where
  | minimumExceedsMaximum
  | commandLimits (brakeMin brakeMax throttleMin throttleMax steeringMin steeringMax : ℚ)
  | nonFinite (what : String)
  | clamped (what : String) (value clamped lo hi : Double)
  | osccError (action : String)
  | osccWarning (action : String)
  | osccControl (enable : Bool)
  deriving DecidableEq, Repr

inductive Output where
  /-- A call of `std::clamp`. -/
  | clampCall (value lo hi : Double)
  /-- A call of `oscc_publish_brake_position` or one of its two siblings. -/
  | osccPublish (channel : Channel) (value : Double)
  | osccEnable
  | osccDisable
  /-- A log statement; those of a throttled kind may not be printed. -/
  | log (line : Log)
  deriving DecidableEq, Repr

/-- One message. `result` is what the OSCC call made for it returns. -/
inductive Event where
  | brakeCommand (brakePosition : Double) (result : OsccResult)
  | steeringCommand (steeringTorque : Double) (result : OsccResult)
  | throttleCommand (throttlePosition : Double) (result : OsccResult)
  | enableDisable (enableControl : Bool) (result : OsccResult)

/-! ## The callbacks -/

/-- What the constructor logs: a minimum above its maximum is an error, and nothing more. -/
def startLogs (cfg : Config) : List Log :=
  (if cfg.brakeMax.1 < cfg.brakeMin.1 ∨ cfg.throttleMax.1 < cfg.throttleMin.1 ∨
      cfg.steeringMax.1 < cfg.steeringMin.1 then [.minimumExceedsMaximum] else []) ++
    [.commandLimits cfg.brakeMin.1 cfg.brakeMax.1 cfg.throttleMin.1 cfg.throttleMax.1
      cfg.steeringMin.1 cfg.steeringMax.1]

def clamp (value lo hi : Double) (what : String) : Double × List Output :=
  if value.isFinite = false then
    (Double.clamp 0 lo hi, [.log (.nonFinite what), .clampCall 0 lo hi])
  else
    let clamped := Double.clamp value lo hi
    (clamped, .clampCall value lo hi ::
      if clamped ≠ value then [.log (.clamped what value clamped lo hi)] else [])

def report (result : OsccResult) (action : String) : Bool × List Output :=
  match result with
  | .error => (false, [.log (.osccError action)])
  | .warning => (false, [.log (.osccWarning action)])
  | .ok => (true, [])

/-- The body that the three command callbacks share. -/
def commandCallback (channel : Channel) (what action : String) (requested : Double) (lo hi : ℚ)
    (result : OsccResult) : List Output :=
  let (value, out) := clamp requested lo hi what
  out ++ .osccPublish channel value :: (report result action).2

def brakeCommandCallback (cfg : Config) (brakePosition : Double) (result : OsccResult) :
    List Output :=
  commandCallback .brake "brake" "send the brake position" brakePosition cfg.brakeMin.1
    cfg.brakeMax.1 result

def steeringCommandCallback (cfg : Config) (steeringTorque : Double) (result : OsccResult) :
    List Output :=
  commandCallback .steering "steering" "send the steering torque" steeringTorque
    cfg.steeringMin.1 cfg.steeringMax.1 result

def throttleCommandCallback (cfg : Config) (throttlePosition : Double) (result : OsccResult) :
    List Output :=
  commandCallback .throttle "throttle" "send the throttle position" throttlePosition
    cfg.throttleMin.1 cfg.throttleMax.1 result

def enableDisableCallback (enableControl : Bool) (result : OsccResult) : List Output :=
  let (ok, out) := report result "enable or disable control"
  (if enableControl then .osccEnable else .osccDisable) :: out ++
    if ok then [.log (.osccControl enableControl)] else []

/-- What one message makes the bridge do. -/
def handle (cfg : Config) : Event → List Output
  | .brakeCommand brakePosition result => brakeCommandCallback cfg brakePosition result
  | .steeringCommand steeringTorque result => steeringCommandCallback cfg steeringTorque result
  | .throttleCommand throttlePosition result =>
    throttleCommandCallback cfg throttlePosition result
  | .enableDisable enableControl result => enableDisableCallback enableControl result

/-- The bridge: every sequence of messages is a run. -/
def rosToOscc (cfg : Config) : Machine Unit Event Output where
  init := ()
  step _ e := ((), handle cfg e)

end Roscco.RosToOscc
