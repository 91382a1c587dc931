import Roscco.Library.Component
import Roscco.Library.Transport
import Roscco.RosToOscc.Limits
import Roscco.Teleop.LastCommands

/-!
# From the gamepad to OSCC

The teleop node and the command bridge, connected by four topics. What carries the messages of
a topic is not part of the two nodes: each topic is a transport, and the results say what they
rely on it for. Nothing relates the messages of two topics, so every interleaving of the teleop
callbacks, the deliveries and the moves of the transports is a run.

## Main definitions

* `Network` — the transports of the four topics.
* `commandLink` — both nodes and the messages between them.
-/

namespace Roscco.CommandLink

open Library
open RosToOscc (Channel OsccResult)

/-- The topic that a channel of the bridge subscribes to. -/
def topic : Channel → Teleop.Topic
  | .brake => .brake
  | .steering => .steering
  | .throttle => .throttle

/-- The message that reaches the bridge, with the return of the OSCC call made for it. -/
def message : Channel → Double → OsccResult → RosToOscc.Event
  | .brake, value, result => .brakeCommand value result
  | .steering, value, result => .steeringCommand value result
  | .throttle, value, result => .throttleCommand value result

/-- What carries the messages of each topic. -/
structure Network where
  commands : Channel → Transport Double
  enableDisable : Transport Bool

/-- Publishers and subscriptions that have found each other, with the history of
`rclcpp::QoS(10)` between them. -/
def Network.matched : Network := ⟨fun _ => .history 10 Double, .history 10 Bool⟩

variable {net : Network}

/-- The teleop node and what lies between the two nodes. -/
structure State (net : Network) where
  teleop : Teleop.State
  commands : (channel : Channel) → (net.commands channel).Medium
  enableDisable : net.enableDisable.Medium

namespace State

/-- The commands that can still reach the bridge, the oldest first. -/
def commandsInFlight (s : State net) (channel : Channel) : List Double :=
  (net.commands channel).flight (s.commands channel)

/-- The messages on `enable_disable` that can still reach the bridge. -/
def enablesInFlight (s : State net) : List Bool := net.enableDisable.flight s.enableDisable

end State

inductive Output where
  | teleop (output : Teleop.Output)
  | bridge (output : RosToOscc.Output)
  deriving DecidableEq, Repr

inductive Event (net : Network) where
  /-- A callback of the teleop node. -/
  | teleop (event : Teleop.Event)
  /-- The bridge receives the next command of a channel, if there is one. -/
  | command (channel : Channel) (result : OsccResult)
  /-- The bridge receives the next message on `enable_disable`, if there is one. -/
  | enableDisable (result : OsccResult)
  /-- Something happens between the two nodes. -/
  | moveCommand (channel : Channel) (move : (net.commands channel).Move)
  | moveEnableDisable (move : net.enableDisable.Move)

/-- A callback of the teleop node, and what it publishes. -/
def publish (cfg : Teleop.Config) (s : State net) (e : Teleop.Event) : State net × List Output :=
  let (teleop, out) := Teleop.step cfg s.teleop e
  ({ teleop
     commands := fun channel =>
       (net.commands channel).sendAll (s.commands channel) (Teleop.values (topic channel) out)
     enableDisable := net.enableDisable.sendAll s.enableDisable (Teleop.enables out) },
    out.map .teleop)

def deliverCommand (limits : RosToOscc.Config) (s : State net) (channel : Channel)
    (result : OsccResult) : State net × List Output :=
  match (net.commands channel).take (s.commands channel) with
  | none => (s, [])
  | some (value, rest) =>
    ({ s with commands := Function.update s.commands channel rest },
      (RosToOscc.handle limits (message channel value result)).map .bridge)

def deliverEnableDisable (limits : RosToOscc.Config) (s : State net) (result : OsccResult) :
    State net × List Output :=
  match net.enableDisable.take s.enableDisable with
  | none => (s, [])
  | some (enable, rest) =>
    ({ s with enableDisable := rest },
      (RosToOscc.handle limits (.enableDisable enable result)).map .bridge)

def step (cfg : Teleop.Config) (limits : RosToOscc.Config) (s : State net) :
    Event net → State net × List Output
  | .teleop e => publish cfg s e
  | .command channel result => deliverCommand limits s channel result
  | .enableDisable result => deliverEnableDisable limits s result
  | .moveCommand channel a =>
    let moved := (net.commands channel).move (s.commands channel) a
    ({ s with commands := Function.update s.commands channel moved }, [])
  | .moveEnableDisable a =>
    ({ s with enableDisable := net.enableDisable.move s.enableDisable a }, [])

/-- Both nodes and the topics between them. -/
def commandLink (net : Network) (cfg : Teleop.Config) (limits : RosToOscc.Config) :
    Machine (State net) (Event net) Output where
  init := ⟨{}, fun channel => (net.commands channel).init, net.enableDisable.init⟩
  step := step cfg limits

/-! ## Views of a run -/

/-- What the teleop node did. -/
def teleopOutputs (os : List Output) : List Teleop.Output :=
  os.filterMap fun | .teleop o => some o | .bridge _ => none

/-- What the bridge did. -/
def bridgeOutputs (os : List Output) : List RosToOscc.Output :=
  os.filterMap fun | .bridge o => some o | .teleop _ => none

/-- The callback of the teleop node that an event is. -/
def Event.teleop? : Event net → Option Teleop.Event
  | .teleop e => some e
  | .command _ _ | .enableDisable _ | .moveCommand _ _ | .moveEnableDisable _ => none

/-- The callbacks of the teleop node. -/
def teleopEvents (es : List (Event net)) : List Teleop.Event := es.filterMap Event.teleop?

/-- The calls of `oscc_enable` and `oscc_disable`. -/
def switches (os : List RosToOscc.Output) : List Bool :=
  os.filterMap fun | .osccEnable => some true | .osccDisable => some false | _ => none

@[simp] theorem teleopOutputs_append (os ps : List Output) :
    teleopOutputs (os ++ ps) = teleopOutputs os ++ teleopOutputs ps := List.filterMap_append

@[simp] theorem bridgeOutputs_append (os ps : List Output) :
    bridgeOutputs (os ++ ps) = bridgeOutputs os ++ bridgeOutputs ps := List.filterMap_append

@[simp] theorem switches_append (os ps : List RosToOscc.Output) :
    switches (os ++ ps) = switches os ++ switches ps := List.filterMap_append

@[simp] theorem teleopOutputs_teleop (os : List Teleop.Output) :
    teleopOutputs (os.map .teleop) = os := by
  simp [teleopOutputs, List.filterMap_map]

@[simp] theorem teleopOutputs_bridge (os : List RosToOscc.Output) :
    teleopOutputs (os.map .bridge) = [] := by
  simp [teleopOutputs]

@[simp] theorem bridgeOutputs_teleop (os : List Teleop.Output) :
    bridgeOutputs (os.map .teleop) = [] := by
  simp [bridgeOutputs]

@[simp] theorem bridgeOutputs_bridge (os : List RosToOscc.Output) :
    bridgeOutputs (os.map .bridge) = os := by
  simp [bridgeOutputs, List.filterMap_map]

end Roscco.CommandLink
