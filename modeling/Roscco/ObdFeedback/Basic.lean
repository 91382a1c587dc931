import Roscco.Library.Machine
import Roscco.ObdFeedback.SignalSpec
import Roscco.Rclcpp

/-!
# Feedback from OBD frames

`ObdFeedback` turns raw CAN frames into steering angle and brake pedal reports, one
configured signal each, and warns when a signal has gone quiet. Scaling is exact.
-/

namespace Roscco.ObdFeedback

open Library

/-! ## Frames -/

/-- `struct can_frame`. -/
structure CanFrame where
  canId : BitVec 32
  canDlc : BitVec 8
  data : Vector (BitVec 8) 8
  deriving DecidableEq, Repr, Inhabited

def CAN_EFF_FLAG : BitVec 32 := 0x80000000
def CAN_SFF_MASK : BitVec 32 := 0x7FF
def CAN_EFF_MASK : BitVec 32 := 0x1FFFFFFF

/-- The identifier of a frame without its flag bits. -/
def plainId (frame : CanFrame) : BitVec 32 :=
  if frame.canId &&& CAN_EFF_FLAG ≠ 0 then frame.canId &&& CAN_EFF_MASK
  else frame.canId &&& CAN_SFF_MASK

/-! ## Configuration -/

/-- The parameters of one signal. -/
structure SignalParams where
  enabled : Bool
  canId : DeclaredInt 0 0x1FFFFFFF
  startBit : DeclaredInt 0 63
  bitLength : DeclaredInt 1 64
  littleEndian : Bool
  isSigned : Bool
  scale : DeclaredDouble (-1000) 1000
  offset : DeclaredDouble (-100000) 100000

structure Config where
  steering : SignalParams
  steeringMin : DeclaredDouble (-10000) 0
  steeringMax : DeclaredDouble 0 10000
  brakePedal : SignalParams
  brakePressThreshold : DeclaredDouble (-100000) 100000
  brakeActiveHigh : Bool
  feedbackTimeout : DeclaredDouble (1 / 20) 60

/-- The declarations of one signal under its name, with the defaults that the two signals
do not share. -/
def SignalParams.declare (node : Overrides) (signal : String) (canId bitLength : Int)
    (isSigned : Bool) (scale : ℚ) : Option SignalParams := do
  let enabled ← declareBool node (signal ++ ".enabled") true
  let canId ← declareInt node (signal ++ ".can_id") canId 0 0x1FFFFFFF
  let startBit ← declareInt node (signal ++ ".start_bit") 0 0 63
  let bitLength ← declareInt node (signal ++ ".bit_length") bitLength 1 64
  let littleEndian ← declareBool node (signal ++ ".little_endian") true
  let isSigned ← declareBool node (signal ++ ".is_signed") isSigned
  let scale ← declareDouble node (signal ++ ".scale") scale (-1000) 1000
  let offset ← declareDouble node (signal ++ ".offset") 0 (-100000) 100000
  pure ⟨enabled, canId, startBit, bitLength, littleEndian, isSigned, scale, offset⟩

/-- The constructor's declarations, with their defaults and ranges. -/
def Config.declare (node : Overrides) : Option Config := do
  let steering ← SignalParams.declare node "steering_feedback" 0x2B0 16 true (1 / 10)
  let steeringMin ← declareDouble node "steering_feedback.min_angle" (-720) (-10000) 0
  let steeringMax ← declareDouble node "steering_feedback.max_angle" 720 0 10000
  let brakePedal ← SignalParams.declare node "brake_pedal_feedback" 0x220 1 false 1
  let brakePressThreshold ←
    declareDouble node "brake_pedal_feedback.press_threshold" (1 / 2) (-100000) 100000
  let brakeActiveHigh ← declareBool node "brake_pedal_feedback.active_high" true
  let feedbackTimeout ← declareDouble node "feedback_timeout" 1 (1 / 20) 60
  pure ⟨steering, steeringMin, steeringMax, brakePedal, brakePressThreshold, brakeActiveHigh,
    feedbackTimeout⟩

/-- The configuration of a node started without overrides: the Kia Soul signals. -/
def Config.default : Config where
  steering := ⟨true, ⟨0x2B0, by decide⟩, ⟨0, by decide⟩, ⟨16, by decide⟩, true, true,
    ⟨1 / 10, by norm_num⟩, ⟨0, by norm_num⟩⟩
  steeringMin := ⟨-720, by norm_num⟩
  steeringMax := ⟨720, by norm_num⟩
  brakePedal := ⟨true, ⟨0x220, by decide⟩, ⟨0, by decide⟩, ⟨1, by decide⟩, true, false,
    ⟨1, by norm_num⟩, ⟨0, by norm_num⟩⟩
  brakePressThreshold := ⟨1 / 2, by norm_num⟩
  brakeActiveHigh := true
  feedbackTimeout := ⟨1, by norm_num⟩

/-- Every default passes its own range check. -/
theorem Config.declare_default : Config.declare {} = some Config.default := by
  simp (disch := norm_num) only [Config.declare, SignalParams.declare, declareBool_default,
    declareInt_default, declareDouble_default, Option.bind_eq_bind, Option.bind_some]
  rfl

/-! ## State, events and observations -/

/-- The two configured signals. -/
inductive Signal where
  | steering
  | brakePedal
  deriving DecidableEq, Repr

/-- What the constructor leaves in the object, the time stamps of the signals apart. -/
structure Node where
  steering : SignalSpec
  steeringMin : ℚ
  steeringMax : ℚ
  brakePedal : SignalSpec
  brakePressThreshold : ℚ
  brakeActiveHigh : Bool
  feedbackTimeout : ℚ

structure State where
  lastSteering : Time := 0
  lastBrake : Time := 0
  deriving DecidableEq, Repr

structure SteeringAngleReport where
  stamp : Time
  canId : BitVec 32
  angle : ℚ
  raw : Int
  inRange : Bool
  deriving DecidableEq, Repr

structure BrakePedalReport where
  stamp : Time
  canId : BitVec 32
  pressed : Bool
  value : ℚ
  raw : Int
  deriving DecidableEq, Repr

inductive Log where
  | doesNotFit (signal : Signal) (spec : SignalSpec)
  | feedback (signal : Signal) (spec : SignalSpec)
  | emptyRange
  | outsideRange (angle steeringMin steeringMax : ℚ)
  | tooShort (signal : Signal) (id : BitVec 32) (dlc : BitVec 8)
  | stale (signal : Signal) (canId : BitVec 32) (feedbackTimeout : ℚ)
  deriving DecidableEq, Repr

inductive Output where
  | steeringAngle (report : SteeringAngleReport)
  | brakePedal (report : BrakePedalReport)
  /-- A log statement; those of a throttled kind may not be printed. -/
  | log (line : Log)
  /-- An operation that C++ leaves undefined. -/
  | undefined
  deriving DecidableEq, Repr

inductive Event where
  | process (frame : CanFrame) (stamp : Time)
  | checkStaleness (now : Time)

/-! ## The constructor -/

def SignalParams.spec (params : SignalParams) : SignalSpec where
  enabled := params.enabled
  canId := BitVec.ofInt 32 params.canId.1
  startBit := params.startBit.1
  bitLength := params.bitLength.1
  littleEndian := params.littleEndian
  isSigned := params.isSigned
  scale := params.scale.1
  offset := params.offset.1

/-- An enabled signal that does not fit in a full frame is disabled. -/
def checkFit (signal : Signal) (spec : SignalSpec) : SignalSpec × List Log :=
  if spec.enabled then
    if spec.fitsIn 8 then (spec, [.feedback signal spec])
    else ({ spec with enabled := false }, [.doesNotFit signal spec])
  else (spec, [])

def Node.construct (cfg : Config) : Node × List Log :=
  let (steering, steeringLog) := checkFit .steering cfg.steering.spec
  let (brakePedal, brakePedalLog) := checkFit .brakePedal cfg.brakePedal.spec
  let node := {
    steering
    steeringMin := cfg.steeringMin.1
    steeringMax := cfg.steeringMax.1
    brakePedal
    brakePressThreshold := cfg.brakePressThreshold.1
    brakeActiveHigh := cfg.brakeActiveHigh
    feedbackTimeout := cfg.feedbackTimeout.1 }
  (node, steeringLog ++ brakePedalLog ++
    if cfg.steeringMax.1 ≤ cfg.steeringMin.1 then [.emptyRange] else [])

/-! ## Frames and staleness -/

/-- The report on a decoded steering angle. -/
def publishSteering (node : Node) (s : State) (frame : CanFrame) (stamp : Time) (raw : Int) :
    State × List Output :=
  let angle := raw * node.steering.scale + node.steering.offset
  let inRange := decide (node.steeringMin ≤ angle ∧ angle ≤ node.steeringMax)
  ({ s with lastSteering := stamp },
    (if inRange then [] else [.log (.outsideRange angle node.steeringMin node.steeringMax)]) ++
      [.steeringAngle ⟨stamp, plainId frame, angle, raw, inRange⟩])

/-- The report on a decoded brake pedal. -/
def publishBrakePedal (node : Node) (s : State) (frame : CanFrame) (stamp : Time) (raw : Int) :
    State × List Output :=
  let value := raw * node.brakePedal.scale + node.brakePedal.offset
  let above := decide (node.brakePressThreshold ≤ value)
  let pressed := if node.brakeActiveHigh then above else !above
  ({ s with lastBrake := stamp },
    [.brakePedal ⟨stamp, plainId frame, pressed, value, raw⟩])

namespace Decoder

variable {m : Type → Type} [Monad m]

/-- The shape that the two halves of `process` share: a frame with the identifier of an
enabled signal is decoded and published, or logged when it is too short. -/
def processSignal (d : Decoder m) (signal : Signal) (spec : SignalSpec) (s : State)
    (frame : CanFrame) (publish : Int → State × List Output) : m (State × List Output) :=
  let id := plainId frame
  if spec.enabled ∧ id = spec.canId then
    if spec.fitsIn frame.canDlc then
      publish <$> d.decodeRaw spec frame.data.toList frame.canDlc
    else pure (s, [.log (.tooShort signal id frame.canDlc)])
  else pure (s, [])

def process (d : Decoder m) (node : Node) (s : State) (frame : CanFrame) (stamp : Time) :
    m (State × List Output) := do
  let (s, steeringOut) ←
    d.processSignal .steering node.steering s frame (publishSteering node s frame stamp)
  let (s, brakePedalOut) ←
    d.processSignal .brakePedal node.brakePedal s frame (publishBrakePedal node s frame stamp)
  pure (s, steeringOut ++ brakePedalOut)

end Decoder

abbrev processSignal (signal : Signal) (spec : SignalSpec) (s : State) (frame : CanFrame)
    (publish : Int → State × List Output) : Option (State × List Output) :=
  partialDecoder.processSignal signal spec s frame publish

/-- `process`, if no operation of the decoder is undefined. -/
abbrev process (node : Node) (s : State) (frame : CanFrame) (stamp : Time) :
    Option (State × List Output) :=
  partialDecoder.process node s frame stamp

/-- A signal that has been seen, but not within the timeout. -/
def stale (node : Node) (spec : SignalSpec) (last now : Time) : Prop :=
  spec.enabled = true ∧ 0 < last ∧ .finite node.feedbackTimeout < seconds (now - last)

instance (node : Node) (spec : SignalSpec) (last now : Time) :
    Decidable (stale node spec last now) :=
  inferInstanceAs (Decidable (_ ∧ _ ∧ _))

def checkStaleness (node : Node) (s : State) (now : Time) : List Output :=
  (if stale node node.steering s.lastSteering now then
      [.log (.stale .steering node.steering.canId node.feedbackTimeout)] else []) ++
    (if stale node node.brakePedal s.lastBrake now then
      [.log (.stale .brakePedal node.brakePedal.canId node.feedbackTimeout)] else [])

def step (node : Node) (s : State) : Event → State × List Output
  | .process frame stamp => (process node s frame stamp).getD (s, [.undefined])
  | .checkStaleness now => (s, checkStaleness node s now)

/-- The feedback component: every sequence of frames and staleness checks is a run. -/
def obdFeedback (node : Node) : Machine State Event Output where
  init := {}
  step := step node

end Roscco.ObdFeedback
