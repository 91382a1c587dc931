import Roscco.Library.Machine
import Roscco.Rclcpp

/-!
# Gamepad teleop

`RosccoTeleop`: joy messages set the command fields and edge-detect the START and BACK
buttons, a timer publishes the commands and watches for lost joy input. One event is one
callback with the clock readings it takes; everything sent or logged is observed, and so
is a read past the end of a joy array, which C++ leaves undefined.
-/

namespace Roscco.Teleop

open Library

/-! ## Arithmetic helpers -/

def exponentialAverage (average setpoint factor : Double) : Double :=
  setpoint * factor + (1 - factor) * average

def linearTransform (value high₁ low₁ high₂ low₂ : Double) : Double :=
  low₂ + (value - low₁) * (high₂ - low₂) / (high₁ - low₁)

def kParkedThreshold : Double := .finite (99 / 100)
def kTriggerMin : Double := 1
def kTriggerMax : Double := -1
def kStickMin : Double := 1
def kStickMax : Double := -1

/-! ## Configuration -/

structure Config where
  brakeAxis : DeclaredInt 0 31
  throttleAxis : DeclaredInt 0 31
  steeringAxis : DeclaredInt 0 31
  startButton : DeclaredInt 0 31
  backButton : DeclaredInt 0 31
  smoothingFactor : DeclaredDouble (1 / 100) 1
  joyTimeoutS : DeclaredDouble (1 / 20) 5
  maxBrake : DeclaredDouble 0 1
  maxThrottle : DeclaredDouble 0 1
  maxSteering : DeclaredDouble 0 1

/-- The constructor's declarations, with their defaults and ranges. -/
def Config.declare (node : Overrides) : Option Config := do
  let brakeAxis ← declareInt node "brake_axis" 2 0 31
  let throttleAxis ← declareInt node "throttle_axis" 5 0 31
  let steeringAxis ← declareInt node "steering_axis" 0 0 31
  let startButton ← declareInt node "start_button" 7 0 31
  let backButton ← declareInt node "back_button" 6 0 31
  let smoothingFactor ← declareDouble node "steering_smoothing_factor" (1 / 10) (1 / 100) 1
  let joyTimeoutS ← declareDouble node "joy_timeout" (3 / 10) (1 / 20) 5
  let maxBrake ← declareDouble node "max_brake" 1 0 1
  let maxThrottle ← declareDouble node "max_throttle" 1 0 1
  let maxSteering ← declareDouble node "max_steering_torque" 1 0 1
  pure ⟨brakeAxis, throttleAxis, steeringAxis, startButton, backButton, smoothingFactor,
    joyTimeoutS, maxBrake, maxThrottle, maxSteering⟩

/-- The configuration of a node started without overrides. -/
def Config.default : Config where
  brakeAxis := ⟨2, by decide⟩
  throttleAxis := ⟨5, by decide⟩
  steeringAxis := ⟨0, by decide⟩
  startButton := ⟨7, by decide⟩
  backButton := ⟨6, by decide⟩
  smoothingFactor := ⟨1 / 10, by norm_num⟩
  joyTimeoutS := ⟨3 / 10, by norm_num⟩
  maxBrake := ⟨1, one_mem_fraction⟩
  maxThrottle := ⟨1, one_mem_fraction⟩
  maxSteering := ⟨1, one_mem_fraction⟩

/-- Every default passes its own range check. -/
theorem Config.declare_default : Config.declare {} = some Config.default := by
  simp (disch := norm_num) only [Config.declare, declareInt_default, declareDouble_default,
    Option.bind_eq_bind, Option.bind_some]
  rfl

/-! ## State, events and observations -/

/-- The two arrays of a `sensor_msgs/Joy` message. -/
structure Joy where
  axes : List Double
  buttons : List Int

structure State where
  brake : Double := 0
  throttle : Double := 0
  steering : Double := 0
  steeringAverage : Double := 0
  armed : Bool := false
  enabled : Bool := false
  previousStart : Int := 0
  previousBack : Int := 0
  lastJoy : Time := 0
  deriving DecidableEq, Repr

inductive Log where
  | notEnough (axes buttons : Nat)
  | triggersArmed
  | pullBrakeTrigger
  | pullThrottleTrigger
  | control (enabled : Bool)
  | joyTimedOut
  deriving DecidableEq, Repr

inductive Output where
  | enableDisable (stamp : Time) (enableControl : Bool)
  | brakeCommand (stamp : Time) (brakePosition : Double)
  | throttleCommand (stamp : Time) (throttlePosition : Double)
  | steeringCommand (stamp : Time) (steeringTorque : Double)
  /-- A log statement; those of a throttled kind may not be printed. -/
  | log (line : Log)
  /-- A joy array was read past its end. -/
  | undefinedRead
  deriving DecidableEq, Repr

/-- One callback. `received` and `checked` are the readings of `now()` that set or test
`last_joy_`; `stamp` is the reading that stamps what the callback sends. -/
inductive Event where
  | joy (message : Joy) (received stamp : Time)
  | tick (checked stamp : Time)

/-! ## The joy callback -/

/-- `static_cast<int>` of a container size. -/
def toInt (size : Nat) : Int := Int.bmod size (2 ^ 32)

def Config.maxAxis (cfg : Config) : Int :=
  max (max cfg.brakeAxis.1 cfg.throttleAxis.1) cfg.steeringAxis.1

def Config.maxButton (cfg : Config) : Int := max cfg.startButton.1 cfg.backButton.1

/-- The guard of `joyCallback`: not enough axes or buttons for the configured indices. -/
def Joy.tooShort (joy : Joy) (cfg : Config) : Prop :=
  toInt joy.axes.length ≤ cfg.maxAxis ∨ toInt joy.buttons.length ≤ cfg.maxButton

instance (joy : Joy) (cfg : Config) : Decidable (joy.tooShort cfg) :=
  inferInstanceAs (Decidable (_ ∨ _))

/-- `joy->axes[index]`; `none` past the end. -/
def Joy.axis (joy : Joy) (index : Int) : Option Double := joy.axes[index.toNat]?

/-- `joy->buttons[index]`; `none` past the end. -/
def Joy.button (joy : Joy) (index : Int) : Option Int := joy.buttons[index.toNat]?

def setEnabled (s : State) (enable : Bool) (stamp : Time) : State × List Output :=
  ({ s with enabled := enable }, [.enableDisable stamp enable, .log (.control enable)])

/-- `joyCallback` while the triggers are not armed: only parked triggers get past it. -/
def joyUnarmed (cfg : Config) (s : State) (joy : Joy) : Option (State × List Output) := do
  let brakeTrigger ← joy.axis cfg.brakeAxis.1
  let throttleTrigger ← joy.axis cfg.throttleAxis.1
  if kParkedThreshold < brakeTrigger ∧ kParkedThreshold < throttleTrigger then
    pure ({ s with armed := true }, [.log .triggersArmed])
  else
    pure (s, (if brakeTrigger ≤ kParkedThreshold then [.log .pullBrakeTrigger] else []) ++
      (if throttleTrigger ≤ kParkedThreshold then [.log .pullThrottleTrigger] else []))

/-- `joyCallback` once armed: the commands follow the axes, the buttons are edge-detected. -/
def joyArmed (cfg : Config) (s : State) (joy : Joy) (stamp : Time) :
    Option (State × List Output) := do
  let brakeTrigger ← joy.axis cfg.brakeAxis.1
  let throttleTrigger ← joy.axis cfg.throttleAxis.1
  let steeringStick ← joy.axis cfg.steeringAxis.1
  let back ← joy.button cfg.backButton.1
  let start ← joy.button cfg.startButton.1
  let s := { s with
    brake := cfg.maxBrake.1 * linearTransform brakeTrigger kTriggerMax kTriggerMin 1 0
    throttle := cfg.maxThrottle.1 * linearTransform throttleTrigger kTriggerMax kTriggerMin 1 0
    steering := cfg.maxSteering.1 * linearTransform steeringStick kStickMax kStickMin 1 (-1) }
  let (s, out) :=
    if s.previousBack = 0 ∧ back ≠ 0 then setEnabled s false stamp
    else if s.previousStart = 0 ∧ start ≠ 0 then setEnabled s true stamp
    else (s, [])
  pure ({ s with previousBack := back, previousStart := start }, out)

def joyCallback (cfg : Config) (s : State) (joy : Joy) (received stamp : Time) :
    Option (State × List Output) :=
  if joy.tooShort cfg then
    some (s, [.log (.notEnough joy.axes.length joy.buttons.length)])
  else
    let s := { s with lastJoy := received }
    if s.armed then joyArmed cfg s joy stamp else joyUnarmed cfg s joy

/-! ## The timer callback -/

/-- The watchdog condition of `publishCommands`. -/
def watchdogTrips (cfg : Config) (s : State) (checked : Time) : Prop :=
  s.enabled = true ∧ 0 < s.lastJoy ∧ .finite cfg.joyTimeoutS.1 < seconds (checked - s.lastJoy)

instance (cfg : Config) (s : State) (checked : Time) : Decidable (watchdogTrips cfg s checked) :=
  inferInstanceAs (Decidable (_ ∧ _ ∧ _))

/-- The body of the watchdog: zero the commands, disarm and disable. -/
def timeOut (s : State) (stamp : Time) : State × List Output :=
  let (s, out) := setEnabled
    { s with brake := 0, throttle := 0, steering := 0, steeringAverage := 0, armed := false }
    false stamp
  (s, .log .joyTimedOut :: out)

def publishCommands (cfg : Config) (s : State) (checked stamp : Time) : State × List Output :=
  let (s, out) := if watchdogTrips cfg s checked then timeOut s stamp else (s, [])
  if s.enabled then
    let average := exponentialAverage s.steeringAverage s.steering cfg.smoothingFactor.1
    ({ s with steeringAverage := average },
      out ++ [.brakeCommand stamp s.brake, .throttleCommand stamp s.throttle,
        .steeringCommand stamp average])
  else (s, out)

def step (cfg : Config) (s : State) : Event → State × List Output
  | .joy message received stamp =>
    (joyCallback cfg s message received stamp).getD (s, [.undefinedRead])
  | .tick checked stamp => publishCommands cfg s checked stamp

/-- The node: every interleaving of joy messages and timer ticks is a run. -/
def teleop (cfg : Config) : Machine State Event Output where
  init := {}
  step := step cfg

end Roscco.Teleop
