import Mathlib.Logic.Function.Basic
import Roscco.OsccToRos.Reports

/-!
# From OSCC reports to ROS topics

`OsccToRos`: five callbacks, run from a signal handler, put reports into five queues, and
`drain` moves them onto five topics. A callback completes between two steps of `drain`;
`drain` is cut at every access to a queue or to the drop counter and at every call. The
returns of `push` are observed, so a run says which reports were accepted.
-/

namespace Roscco.OsccToRos

open Library SignalQueue

abbrev Item (topic : Topic) := Stamped (Report topic)

/-- Where `drain` is, with the locals that are live there. -/
inductive Drain where
  | idle
  /-- Inside the `pop` of the loop condition. -/
  | popping (topic : Topic) (popper : Popper (Item topic))
  /-- The pop succeeded; the publication comes next. -/
  | publishing (topic : Topic) (item : Item topic)
  /-- The fault report is published; its log line comes next. -/
  | loggingFault (report : OsccFaultReport)
  /-- The frame is published; `feedback_->process` comes next. -/
  | processing (frame : ObdFeedback.CanFrame) (stamp : Stamp)
  | checkingStaleness
  | loadingDrops
  /-- `dropped_` is loaded; the comparison comes next. -/
  | comparingDrops (drops : BitVec 64)

structure State where
  queues : (topic : Topic) → SignalQueue (Item topic) (depth topic)
  dropped : BitVec 64
  lastReportedDrops : BitVec 64
  feedback : ObdFeedback.State
  drain : Drain

inductive Output where
  /-- `push` returned true. -/
  | accepted (topic : Topic) (item : Item topic)
  /-- `push` returned false. -/
  | refused (topic : Topic) (item : Item topic)
  | published (topic : Topic) (message : Message topic)
  | faultLog (faultOriginId : BitVec 32) (dtcs : BitVec 8)
  | feedback (output : ObdFeedback.Output)
  /-- The throttled warning is reached at this clock time. -/
  | dropWarning (now : Time) (drops : BitVec 64)

inductive Event where
  /-- A callback, with the clock reading that `enqueue` would take. -/
  | callback (topic : Topic) (report : Option (Report topic)) (clock : Timespec)
  /-- The next step of `drain`, with the node's clock. Between two drains it starts one. -/
  | drain (now : Time)

/-! ## The callbacks -/

def enqueue (s : State) (topic : Topic) (report : Option (Report topic)) (clock : Timespec) :
    State × List Output :=
  match report with
  | none => (s, [])
  | some data =>
    let item : Item topic := ⟨data, clock⟩
    let (queue, ok) := (s.queues topic).push item
    let s := { s with queues := Function.update s.queues topic queue }
    if ok then (s, [.accepted topic item])
    else ({ s with dropped := s.dropped + 1 }, [.refused topic item])

/-! ## The drain -/

/-- The order of the five loops. -/
def Topic.next : Topic → Option Topic
  | .brake => some .steering
  | .steering => some .throttle
  | .throttle => some .fault
  | .fault => some .obd
  | .obd => none

/-- What follows the last pop of a loop. -/
def Drain.afterLoop (topic : Topic) : Drain :=
  topic.next.elim .checkingStaleness (.popping · .idle)

/-- What follows a publication. -/
def Drain.afterPublish : (topic : Topic) → Item topic → Drain
  | .brake, _ => .popping .brake .idle
  | .steering, _ => .popping .steering .idle
  | .throttle, _ => .popping .throttle .idle
  | .fault, item => .loggingFault item.data
  | .obd, item => .processing item.data (.ofTime (toRosTime item.stamp))

/-- One step of the pop in a loop condition, and where its return leads. -/
def popStep (s : State) (topic : Topic) (popper : Popper (Item topic)) : State :=
  let (queue, popper, out) := SignalQueue.popStep (s.queues topic) popper
  { s with
    queues := Function.update s.queues topic queue
    drain := match out with
      | .popped item :: _ => .publishing topic item
      | .empty :: _ => .afterLoop topic
      | _ => .popping topic popper }

def drainStep (node : ObdFeedback.Node) (s : State) (now : Time) : State × List Output :=
  match s.drain with
  | .idle => ({ s with drain := .popping .brake .idle }, [])
  | .popping topic popper => (popStep s topic popper, [])
  | .publishing topic item =>
    ({ s with drain := .afterPublish topic item }, [.published topic (toMessage topic item)])
  | .loggingFault report =>
    ({ s with drain := .popping .fault .idle }, [.faultLog report.faultOriginId report.dtcs])
  | .processing frame stamp =>
    let (feedback, out) := ObdFeedback.step node s.feedback (.process frame stamp.toTime)
    ({ s with feedback, drain := .popping .obd .idle }, out.map .feedback)
  | .checkingStaleness =>
    let (feedback, out) := ObdFeedback.step node s.feedback (.checkStaleness now)
    ({ s with feedback, drain := .loadingDrops }, out.map .feedback)
  | .loadingDrops => ({ s with drain := .comparingDrops s.dropped }, [])
  | .comparingDrops drops =>
    if drops ≠ s.lastReportedDrops then
      ({ s with lastReportedDrops := drops, drain := .idle }, [.dropWarning now drops])
    else ({ s with drain := .idle }, [])

def step (node : ObdFeedback.Node) (s : State) : Event → State × List Output
  | .callback topic report clock => enqueue s topic report clock
  | .drain now => drainStep node s now

/-- The bridge: every interleaving of callbacks with the steps of drains is a run. -/
def osccToRos (node : ObdFeedback.Node) : Machine State Event Output where
  init := {
    queues := fun topic => .empty (Item topic) (depth topic)
    dropped := 0
    lastReportedDrops := 0
    feedback := {}
    drain := .idle }
  step := step node

end Roscco.OsccToRos
