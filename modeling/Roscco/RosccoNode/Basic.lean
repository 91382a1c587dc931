import Roscco.OsccToRos.Draining
import Roscco.RosToOscc.Limits

/-!
# The roscco node

`main` of `roscco_node`: it opens OSCC, constructs the report publisher and then the command
subscriber, spins until it is interrupted, and takes everything down in the other direction.
OSCC calls the report callbacks from a signal handler whenever they are attached; the timer and
the subscriptions run on the executor, one callback after another. A parameter that is rejected
throws, and nothing in `main` catches it.
-/

namespace Roscco.RosccoNode

open Library
open OsccToRos (Topic Report)
open RosToOscc (Channel OsccResult)

/-- A call of the OSCC API. -/
inductive OsccCall where
  | osccOpen (canChannel : Int)
  | osccSubscribe (topic : Topic)
  /-- The subscription of a null pointer. -/
  | osccUnsubscribe (topic : Topic)
  | osccPublish (channel : Channel) (value : Double)
  | osccEnable
  | osccDisable
  | osccClose (canChannel : Int)
  deriving DecidableEq, Repr

inductive Log where
  | couldNotOpen (canChannel : Int)
  | opened (canChannel : Int)
  | feedback (line : ObdFeedback.Log)
  | limits (line : RosToOscc.Log)
  | couldNotDisable
  | couldNotClose
  deriving DecidableEq, Repr

inductive Output where
  /-- A call made by `main`, or by a constructor or destructor that it runs. -/
  | call (call : OsccCall)
  | publisher (output : OsccToRos.Output)
  | subscriber (output : RosToOscc.Output)
  | log (line : Log)

/-- What `main` does next, with the locals that are live there. -/
inductive Phase where
  | opening
  | constructingPublisher (canChannel : DeclaredInt 0 15)
  /-- Inside the constructor of the publisher, at its call for this topic. -/
  | subscribing (canChannel : DeclaredInt 0 15) (node : ObdFeedback.Node) (topic : Topic)
  | constructingSubscriber (canChannel : DeclaredInt 0 15) (node : ObdFeedback.Node)
  | spinning (canChannel : DeclaredInt 0 15) (node : ObdFeedback.Node) (limits : RosToOscc.Config)
  | disabling (canChannel : DeclaredInt 0 15)
  /-- Inside the destructor of the publisher, at its call for this topic. -/
  | unsubscribing (canChannel : DeclaredInt 0 15) (topic : Topic)
  | closing (canChannel : DeclaredInt 0 15)
  | returned (code : Int)
  /-- An exception has left `main`. -/
  | terminated

structure State where
  phase : Phase
  /-- The report callbacks that OSCC holds. -/
  attached : Topic → Bool
  publisher : OsccToRos.State

inductive Event where
  /-- The next step of `main`, with what the OSCC call in it returns. -/
  | main (result : OsccResult)
  /-- `spin` returns. -/
  | interrupt
  /-- OSCC has a report in the signal handler. -/
  | report (topic : Topic) (report : Option (Report topic)) (clock : Timespec)
  /-- The next step of the drain timer's callback. -/
  | drain (now : Time)
  /-- A subscription's callback. -/
  | message (message : RosToOscc.Event)

/-- The next step of `main`. -/
def mainStep (parameters : Overrides) (s : State) (result : OsccResult) : State × List Output :=
  match s.phase with
  | .opening =>
    match declareInt parameters "can_channel" 0 0 15,
        declareInt parameters "drain_period_ms" 5 1 100 with
    | some canChannel, some _ =>
      if result = .ok then
        ({ s with phase := .constructingPublisher canChannel },
          [.call (.osccOpen canChannel.1), .log (.opened canChannel.1)])
      else
        ({ s with phase := .returned 1 },
          [.call (.osccOpen canChannel.1), .log (.couldNotOpen canChannel.1)])
    | _, _ => ({ s with phase := .terminated }, [])
  | .constructingPublisher canChannel =>
    match ObdFeedback.Config.declare parameters with
    | some cfg =>
      let (node, lines) := ObdFeedback.Node.construct cfg
      ({ s with phase := .subscribing canChannel node .brake }, lines.map (.log ∘ .feedback))
    | none => ({ s with phase := .terminated }, [])
  | .subscribing canChannel node topic =>
    ({ s with
       attached := Function.update s.attached topic true
       phase := topic.next.elim (.constructingSubscriber canChannel node)
         (.subscribing canChannel node) },
      [.call (.osccSubscribe topic)])
  | .constructingSubscriber canChannel node =>
    match RosToOscc.Config.declare parameters with
    | some limits =>
      ({ s with phase := .spinning canChannel node limits },
        (RosToOscc.startLogs limits).map (.log ∘ .limits))
    | none => ({ s with phase := .terminated }, [])
  | .disabling canChannel =>
    ({ s with phase := .unsubscribing canChannel .brake },
      .call .osccDisable :: if result = .ok then [] else [.log .couldNotDisable])
  | .unsubscribing canChannel topic =>
    ({ s with
       attached := Function.update s.attached topic false
       phase := topic.next.elim (.closing canChannel) (.unsubscribing canChannel) },
      [.call (.osccUnsubscribe topic)])
  | .closing canChannel =>
    ({ s with phase := .returned 0 },
      .call (.osccClose canChannel.1) :: if result = .ok then [] else [.log .couldNotClose])
  | .spinning _ _ _ | .returned _ | .terminated => (s, [])

/-- What the executor runs, which is one callback at a time: a message waits for the end of the
drain, and so does the end of `spin`. -/
def spinStep (node : ObdFeedback.Node) (limits : RosToOscc.Config)
    (canChannel : DeclaredInt 0 15) (s : State) : Event → State × List Output
  | .drain now =>
    let (publisher, out) := OsccToRos.drainStep node s.publisher now
    ({ s with publisher }, out.map .publisher)
  | .message m =>
    if s.publisher.drain = .idle then (s, (RosToOscc.handle limits m).map .subscriber)
    else (s, [])
  | .interrupt =>
    if s.publisher.drain = .idle then ({ s with phase := .disabling canChannel }, [])
    else (s, [])
  | .main _ | .report _ _ _ => (s, [])

def step (parameters : Overrides) (s : State) : Event → State × List Output
  | .main result => mainStep parameters s result
  | .report topic report clock =>
    if s.attached topic then
      let (publisher, out) := OsccToRos.enqueue s.publisher topic report clock
      ({ s with publisher }, out.map .publisher)
    else (s, [])
  | e@(.drain _) | e@(.message _) | e@.interrupt =>
    match s.phase with
    | .spinning canChannel node limits => spinStep node limits canChannel s e
    | _ => (s, [])

/-- The process: every interleaving of `main`, its executor and the signal handler is a run.
An event that cannot happen in a state changes nothing. -/
def rosccoNode (parameters : Overrides) : Machine State Event Output where
  init := {
    phase := .opening
    attached := fun _ => false
    publisher := {
      queues := fun topic => .empty (OsccToRos.Item topic) (OsccToRos.depth topic)
      dropped := 0
      lastReportedDrops := 0
      feedback := {}
      drain := .idle } }
  step := step parameters

end Roscco.RosccoNode
