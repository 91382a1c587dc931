import Roscco.Library.Component
import Roscco.RosccoNode.Basic

/-!
# The two bridges inside the node

The publisher gets the reports that arrive while its callbacks are attached, and drains while
the node spins; the subscriber gets the messages that the executor runs between two drains. So
a run of the node is a run of both bridges, and what holds of them holds in the node until it
exits, when the reports still queued are lost.

## Main results

* `node_components` — the publisher and the subscriber run inside the node.
* `node_keeps_reports` — what becomes of the reports that OSCC delivers.
-/

namespace Roscco.RosccoNode

open Library
open OsccToRos (Topic osccToRos inFlight queued accepted published refused Carries)
open RosToOscc (rosToOscc)

variable {parameters : Overrides} {s : State} {e : Event}

/-! ## The parts of a run -/

def publisherOutputs (os : List Output) : List OsccToRos.Output :=
  os.filterMap fun | .publisher o => some o | _ => none

def subscriberOutputs (os : List Output) : List RosToOscc.Output :=
  os.filterMap fun | .subscriber o => some o | _ => none

def Phase.spins : Phase → Bool
  | .spinning _ _ _ => true
  | _ => false

/-- What an event does to the publisher. -/
def Event.toPublisher (s : State) : Event → List OsccToRos.Event
  | .report topic r clock => if s.attached topic then [.callback topic r clock] else []
  | .drain now => if s.phase.spins then [.drain now] else []
  | .main _ | .interrupt | .message _ => []

/-- What an event does to the subscriber. -/
def Event.toSubscriber (s : State) : Event → List RosToOscc.Event
  | .message m => if s.phase.spins ∧ s.publisher.drain = .idle then [m] else []
  | .main _ | .interrupt | .report _ _ _ | .drain _ => []

def publisherEvents (parameters : Overrides) (es : List Event) : List OsccToRos.Event :=
  (rosccoNode parameters).passed (fun s e => e.toPublisher s) (rosccoNode parameters).init es

def subscriberEvents (parameters : Overrides) (es : List Event) : List RosToOscc.Event :=
  (rosccoNode parameters).passed (fun s e => e.toSubscriber s) (rosccoNode parameters).init es

/-- The feedback component that the publisher constructs; any one if its parameters are
rejected. -/
def feedbackNode (parameters : Overrides) : ObdFeedback.Node :=
  (ObdFeedback.Node.construct ((ObdFeedback.Config.declare parameters).getD .default)).1

/-- The limits that the subscriber declares; any if they are rejected. -/
def commandLimits (parameters : Overrides) : RosToOscc.Config :=
  (RosToOscc.Config.declare parameters).getD .default

/-- What has been constructed comes from the parameters. -/
def Constructed (parameters : Overrides) : Phase → Prop
  | .subscribing _ node _ | .constructingSubscriber _ node => node = feedbackNode parameters
  | .spinning _ node limits => node = feedbackNode parameters ∧ limits = commandLimits parameters
  | _ => True

/-- Outside `spin` no drain is under way. -/
structure Inv (parameters : Overrides) (s : State) : Prop where
  constructed : Constructed parameters s.phase
  idle : s.phase.spins = false → s.publisher.drain = .idle

@[simp] theorem publisherOutputs_publisher (os : List OsccToRos.Output) :
    publisherOutputs (os.map .publisher) = os := by
  simp [publisherOutputs, List.filterMap_map]

@[simp] theorem subscriberOutputs_subscriber (os : List RosToOscc.Output) :
    subscriberOutputs (os.map .subscriber) = os := by
  simp [subscriberOutputs, List.filterMap_map]

/-! ## One step -/

/-- `main` leaves the publisher's queues alone, and neither bridge is observed. -/
theorem mainStep_quiet (parameters : Overrides) (s : State) (result : RosToOscc.OsccResult) :
    (mainStep parameters s result).1.publisher = s.publisher ∧
      publisherOutputs (mainStep parameters s result).2 = [] ∧
      subscriberOutputs (mainStep parameters s result).2 = [] := by
  cases hphase : s.phase with
  | opening =>
    simp only [mainStep, hphase]
    split
    · split <;> simp [publisherOutputs, subscriberOutputs]
    · simp [publisherOutputs, subscriberOutputs]
  | constructingPublisher | constructingSubscriber =>
    simp only [mainStep, hphase]
    split <;> simp [publisherOutputs, subscriberOutputs]
  | disabling | closing =>
    simp only [mainStep, hphase]
    split <;> simp [publisherOutputs, subscriberOutputs]
  | subscribing | unsubscribing | spinning | returned | terminated =>
    simp [mainStep, hphase, publisherOutputs, subscriberOutputs]

theorem constructed_mainStep (h : Constructed parameters s.phase)
    (result : RosToOscc.OsccResult) :
    Constructed parameters (mainStep parameters s result).1.phase := by
  cases hphase : s.phase with
  | opening =>
    simp only [mainStep, hphase]
    split
    · split <;> trivial
    · trivial
  | constructingPublisher c =>
    simp only [mainStep, hphase]
    split
    · next cfg hcfg => simp [Constructed, feedbackNode, hcfg]
    · trivial
  | constructingSubscriber c node =>
    rw [hphase] at h
    simp only [mainStep, hphase]
    split
    · next limits hlimits => exact ⟨h, by simp [commandLimits, hlimits]⟩
    · trivial
  | subscribing c node topic =>
    rw [hphase] at h
    simp only [mainStep, hphase]
    cases topic.next <;> exact h
  | unsubscribing c topic =>
    simp only [mainStep, hphase]
    cases topic.next <;> trivial
  | disabling | closing | returned | terminated =>
    simp only [mainStep, hphase]
    trivial
  | spinning =>
    simp only [mainStep, hphase]
    rwa [hphase] at h

/-- Only `interrupt` ends `spin`. -/
theorem spins_mainStep (result : RosToOscc.OsccResult)
    (h : (mainStep parameters s result).1.phase.spins = false) : s.phase.spins = false := by
  cases hphase : s.phase with
  | spinning => simp [mainStep, hphase, Phase.spins] at h
  | _ => rfl

theorem mainStep_inv (h : Inv parameters s) (result : RosToOscc.OsccResult) :
    Inv parameters (mainStep parameters s result).1 where
  constructed := constructed_mainStep h.constructed result
  idle hspins := by
    rw [(mainStep_quiet parameters s result).1]
    exact h.idle (spins_mainStep result hspins)

/-- One event keeps the invariant. -/
theorem inv_next (parameters : Overrides) (s : State) (e : Event) (h : Inv parameters s) :
    Inv parameters ((rosccoNode parameters).next s e) := by
  simp only [rosccoNode, Machine.next]
  cases e with
  | main result => exact mainStep_inv h result
  | report topic r clock =>
    simp only [step]
    split
    · exact ⟨h.constructed, fun hspins =>
        (OsccToRos.enqueue_drain s.publisher r clock).trans (h.idle hspins)⟩
    · exact h
  | drain now =>
    simp only [step]
    split
    · next c node limits hphase =>
      exact ⟨h.constructed, fun hspins => by simp [spinStep, hphase, Phase.spins] at hspins⟩
    · exact h
  | message m =>
    simp only [step]
    split
    · simp only [spinStep]
      split <;> exact h
    · exact h
  | interrupt =>
    simp only [step]
    split
    · simp only [spinStep]
      split
      · next hidle => exact ⟨trivial, fun _ => hidle⟩
      · exact h
    · exact h

/-- The publisher is a component of the node. -/
theorem publisher_step (parameters : Overrides) (s : State) (e : Event) (h : Inv parameters s) :
    ((rosccoNode parameters).next s e).publisher =
        (osccToRos (feedbackNode parameters)).stateFrom s.publisher (e.toPublisher s) ∧
      publisherOutputs ((rosccoNode parameters).emit s e) =
        (osccToRos (feedbackNode parameters)).traceFrom s.publisher (e.toPublisher s) := by
  simp only [rosccoNode, Machine.next, Machine.emit]
  cases e with
  | main result =>
    obtain ⟨hstate, hout, -⟩ := mainStep_quiet parameters s result
    exact ⟨hstate, hout⟩
  | report topic r clock =>
    by_cases hattached : s.attached topic
    · simp [step, Event.toPublisher, hattached, osccToRos, OsccToRos.step, Machine.next,
        Machine.emit]
    · simp [step, Event.toPublisher, hattached, publisherOutputs]
  | drain now =>
    cases hphase : s.phase with
    | spinning c node limits =>
      have hnode : node = feedbackNode parameters := by
        have hconstructed := h.constructed
        rw [hphase] at hconstructed
        exact hconstructed.1
      simp [step, spinStep, hphase, Event.toPublisher, Phase.spins, osccToRos, OsccToRos.step,
        Machine.next, Machine.emit, hnode]
    | _ => simp [step, hphase, Event.toPublisher, Phase.spins, publisherOutputs]
  | message m =>
    cases hphase : s.phase with
    | spinning c node limits =>
      simp only [step, hphase, spinStep, Event.toPublisher]
      split <;> simp [publisherOutputs]
    | _ => simp [step, hphase, Event.toPublisher, publisherOutputs]
  | interrupt =>
    cases hphase : s.phase with
    | spinning c node limits =>
      simp only [step, hphase, spinStep, Event.toPublisher]
      split <;> simp [publisherOutputs]
    | _ => simp [step, hphase, Event.toPublisher, publisherOutputs]

/-- So is the subscriber, which has no state. -/
theorem subscriber_step (parameters : Overrides) (s : State) (e : Event) (h : Inv parameters s) :
    subscriberOutputs ((rosccoNode parameters).emit s e) =
      (rosToOscc (commandLimits parameters)).traceFrom () (e.toSubscriber s) := by
  simp only [rosccoNode, Machine.emit]
  cases e with
  | main result => exact (mainStep_quiet parameters s result).2.2
  | report topic r clock =>
    simp only [step]
    split <;> simp [Event.toSubscriber, subscriberOutputs]
  | drain now =>
    cases hphase : s.phase <;>
      simp [step, spinStep, hphase, Event.toSubscriber, subscriberOutputs]
  | message m =>
    cases hphase : s.phase with
    | spinning c node limits =>
      have hlimits : limits = commandLimits parameters := by
        have hconstructed := h.constructed
        rw [hphase] at hconstructed
        exact hconstructed.2
      by_cases hidle : s.publisher.drain = .idle
      · simp [step, spinStep, hphase, Event.toSubscriber, Phase.spins, rosToOscc, hidle,
          Machine.emit, hlimits]
      · simp [step, spinStep, hphase, Event.toSubscriber, hidle, subscriberOutputs]
    | _ => simp [step, hphase, Event.toSubscriber, Phase.spins, subscriberOutputs]
  | interrupt =>
    cases hphase : s.phase with
    | spinning c node limits =>
      simp only [step, hphase, spinStep, Event.toSubscriber]
      split <;> simp [subscriberOutputs]
    | _ => simp [step, hphase, Event.toSubscriber, subscriberOutputs]

/-! ## Runs -/

theorem inv_init (parameters : Overrides) : Inv parameters (rosccoNode parameters).init :=
  ⟨trivial, fun _ => rfl⟩

theorem inv_state (parameters : Overrides) (es : List Event) :
    Inv parameters ((rosccoNode parameters).state es) :=
  (rosccoNode parameters).invariant (inv_init parameters) (inv_next parameters) es

/-- The publisher runs inside the node. -/
theorem publisher_run (parameters : Overrides) (es : List Event) :
    ((rosccoNode parameters).state es).publisher =
        (osccToRos (feedbackNode parameters)).state (publisherEvents parameters es) ∧
      publisherOutputs ((rosccoNode parameters).trace es) =
        (osccToRos (feedbackNode parameters)).trace (publisherEvents parameters es) :=
  Machine.component_run State.publisher rfl (inv_next parameters) (publisher_step parameters)
    (inv_init parameters) es

/-- Both bridges run inside the node: the publisher on the reports that arrive while its
callbacks are attached and on the drains of the spinning executor, the subscriber on the
messages that the executor runs between two drains. -/
theorem node_components (parameters : Overrides) (es : List Event) :
    ((rosccoNode parameters).state es).publisher =
        (osccToRos (feedbackNode parameters)).state (publisherEvents parameters es) ∧
      publisherOutputs ((rosccoNode parameters).trace es) =
        (osccToRos (feedbackNode parameters)).trace (publisherEvents parameters es) ∧
      subscriberOutputs ((rosccoNode parameters).trace es) =
        (rosToOscc (commandLimits parameters)).trace (subscriberEvents parameters es) := by
  obtain ⟨hstate, hout⟩ := publisher_run parameters es
  obtain ⟨-, hsubscriber⟩ := Machine.component_run (c := rosToOscc (commandLimits parameters))
    (fun _ => ()) rfl (inv_next parameters)
    (fun s e h => ⟨rfl, subscriber_step parameters s e h⟩) (inv_init parameters) es
  exact ⟨hstate, hout, hsubscriber⟩

/-- No report that OSCC has delivered to an attached callback is lost without being counted:
it is published, popped and about to be published, or still queued. Once `spin` has returned no
report is between queue and topic, so at the exit exactly the queued ones are left behind. -/
theorem node_keeps_reports (parameters : Overrides) (es : List Event)
    (hclock : ∀ e ∈ publisherEvents parameters es, e.ClockOk) :
    let s := (rosccoNode parameters).state es
    let out := publisherOutputs ((rosccoNode parameters).trace es)
    let delivered := fun topic => OsccToRos.reports topic (publisherEvents parameters es)
    (∀ topic, (accepted topic out).Sublist (delivered topic) ∧
      ∃ done, accepted topic out = done ++ inFlight topic s.publisher ++ queued topic s.publisher ∧
        List.Forall₂ (Carries topic) done (published topic out)) ∧
    (s.phase.spins = false → ∀ topic, inFlight topic s.publisher = []) ∧
    ∑ topic, (delivered topic).length = ∑ topic, (accepted topic out).length + refused out ∧
    s.publisher.dropped = BitVec.ofNat 64 (refused out) := by
  intro s out delivered
  obtain ⟨hstate, hout⟩ := publisher_run parameters es
  have hs : s.publisher =
    (osccToRos (feedbackNode parameters)).state (publisherEvents parameters es) := hstate
  have ho : out =
    (osccToRos (feedbackNode parameters)).trace (publisherEvents parameters es) := hout
  obtain ⟨hcount, hdropped⟩ :=
    OsccToRos.reports_accounted (feedbackNode parameters) (publisherEvents parameters es)
  rw [← ho] at hcount hdropped
  refine ⟨fun topic => ?_, fun hspins topic => ?_, hcount, by rw [hs, hdropped]⟩
  · have hsublist := OsccToRos.accepted_sublist (feedbackNode parameters)
      (publisherEvents parameters es) topic
    obtain ⟨done, haccepted, hpublished⟩ :=
      OsccToRos.accepted_eq (feedbackNode parameters) (publisherEvents parameters es) topic
    rw [← ho] at hsublist haccepted hpublished
    rw [← hs] at haccepted
    refine ⟨hsublist, done, haccepted, ?_⟩
    rw [hpublished, List.forall₂_map_right_iff, List.forall₂_same]
    intro item hitem
    apply OsccToRos.carries_toMessage
    apply OsccToRos.clockInRange_of_mem_reports hclock
    apply hsublist.subset
    rw [haccepted]
    simp [hitem]
  · have hidle := (inv_state parameters es).idle hspins
    simp [inFlight, s, hidle]

/-- A brake report that arrives right before the interrupt is still queued when `main` returns. -/
theorem node_keeps_reports_queued :
    let es : List Event := List.replicate 8 (.main .ok) ++
      [.report .brake (some (⟨#v[5, 172], 1, 0, 0, #v[0, 0, 0]⟩ : OsccToRos.OsccReport))
        ⟨1700000000, 5⟩, .interrupt] ++ List.replicate 7 (.main .ok)
    let s := (rosccoNode {}).state es
    (queued .brake s.publisher).length = 1 ∧
      (s.phase.spins = false → ∀ topic, inFlight topic s.publisher = []) := by
  intro es s
  exact ⟨by decide +kernel, (node_keeps_reports {} es (by decide +kernel)).2.1⟩

end Roscco.RosccoNode
