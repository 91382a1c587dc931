import Roscco.Library.Component
import Roscco.ObdFeedback.Streams
import Roscco.OsccToRos.Conservation

/-!
# Feedback in step with the frames

`drain` publishes every OBD frame and then hands it to the feedback component, with the stamp
of the message. So the feedback component runs on the messages of `can_frame`: whoever decodes
them gets the feedback topics, and the staleness checks are about the last feedback messages.

## Main results

* `feedback_follows_frames` — the feedback topics are the decoded frames.
* `staleness_follows_feedback` — when a drain reaches the warning about a silent signal.
-/

namespace Roscco.OsccToRos

open Library SignalQueue
open ObdFeedback (Signal SignalReport)

variable {node : ObdFeedback.Node} {s : State} {signal : Signal}

/-! ## The component -/

/-- What a message on `can_frame` says to the feedback component. -/
def Message.process (message : Message .obd) : ObdFeedback.Event :=
  let data : CanFrameData := message.data
  .process ⟨data.canId, data.canDlc, data.data⟩ message.stamp.toTime

/-- What an event makes the feedback component do. -/
def Event.passes (s : State) : Event → List ObdFeedback.Event
  | .callback _ _ _ => []
  | .drain now =>
    match s.drain with
    | .processing frame stamp => [.process frame stamp.toTime]
    | .checkingStaleness => [.checkStaleness now]
    | _ => []

/-- What the feedback component published and logged. -/
def feedbackOutputs (os : List Output) : List ObdFeedback.Output :=
  os.filterMap fun | .feedback o => some o | _ => none

/-- The frame that is published and about to be processed. -/
def handed (s : State) : List ObdFeedback.Event :=
  match s.drain with
  | .processing frame stamp => [.process frame stamp.toTime]
  | _ => []

/-- The report that a message on `can_frame` deserves. -/
def Message.decoded (node : ObdFeedback.Node) (signal : Signal) (message : Message .obd) :
    Option (SignalReport signal) :=
  message.process.decoded node signal

/-- The message of an item says what `drain` hands on for it. -/
theorem process_toMessage (item : Item .obd) :
    (toMessage .obd item).process =
      .process item.data (Stamp.ofTime (toRosTime item.stamp)).toTime := by
  have hdata := (sameFields_fillData .obd item.data).2.2
  exact congrArg (fun data => ObdFeedback.Event.process
    { (item.data : ObdFeedback.CanFrame) with data }
    (Stamp.ofTime (toRosTime item.stamp)).toTime) hdata

@[simp] theorem feedbackOutputs_map_feedback (os : List ObdFeedback.Output) :
    feedbackOutputs (os.map .feedback) = os := by
  simp [feedbackOutputs, List.filterMap_map]

theorem mem_feedbackOutputs {os : List Output} {o : ObdFeedback.Output} :
    o ∈ feedbackOutputs os ↔ .feedback o ∈ os := by
  rw [feedbackOutputs, List.mem_filterMap]
  constructor
  · rintro ⟨x, hx, heq⟩
    cases x with
    | feedback o' =>
      obtain rfl : o' = o := by simpa using heq
      exact hx
    | _ => simp at heq
  · exact fun h => ⟨_, h, rfl⟩

/-- A callback is none of the feedback component's business. -/
theorem enqueue_feedback (s : State) {topic : Topic} (report : Option (Report topic))
    (clock : Timespec) :
    (enqueue s topic report clock).1.feedback = s.feedback ∧
      feedbackOutputs (enqueue s topic report clock).2 = [] ∧
      published .obd (enqueue s topic report clock).2 = [] := by
  cases report with
  | none => exact ⟨rfl, rfl, rfl⟩
  | some data =>
    simp only [enqueue]
    split <;> exact ⟨rfl, rfl, rfl⟩

/-- The feedback component is a component of the bridge. -/
theorem feedback_step (node : ObdFeedback.Node) (s : State) (e : Event) :
    ((osccToRos node).next s e).feedback =
        (ObdFeedback.obdFeedback node).stateFrom s.feedback (e.passes s) ∧
      feedbackOutputs ((osccToRos node).emit s e) =
        (ObdFeedback.obdFeedback node).traceFrom s.feedback (e.passes s) := by
  cases e with
  | callback topic report clock =>
    obtain ⟨hstate, hout, -⟩ := enqueue_feedback s report clock
    exact ⟨hstate, hout⟩
  | drain now =>
    simp only [osccToRos, Machine.next, Machine.emit, step]
    cases hdrain : s.drain with
    | processing frame stamp | checkingStaleness =>
      simp [drainStep, hdrain, Event.passes, ObdFeedback.obdFeedback, Machine.next, Machine.emit]
    | comparingDrops drops =>
      simp only [drainStep, hdrain, Event.passes]
      split <;> exact ⟨rfl, rfl⟩
    | idle | popping | publishing | loggingFault | loadingDrops =>
      simp [drainStep, hdrain, Event.passes, feedbackOutputs, popStep]

/-! ## The frames -/

/-- The frames among the events of the feedback component. -/
def frames (fs : List ObdFeedback.Event) : List ObdFeedback.Event :=
  fs.filter fun | .process _ _ => true | .checkStaleness _ => false

@[simp] theorem frames_append (fs gs : List ObdFeedback.Event) :
    frames (fs ++ gs) = frames fs ++ frames gs := List.filter_append fs gs

/-- Only frames deserve reports. -/
theorem filterMap_frames (node : ObdFeedback.Node) (signal : Signal)
    (fs : List ObdFeedback.Event) :
    (frames fs).filterMap (ObdFeedback.Event.decoded node signal) =
      fs.filterMap (ObdFeedback.Event.decoded node signal) := by
  rw [frames, List.filterMap_filter]
  congr 1
  funext f
  cases f <;> rfl

theorem handed_afterLoop (topic : Topic) (h : s.drain = .afterLoop topic) : handed s = [] := by
  cases topic <;> simp [handed, h, Drain.afterLoop, Topic.next]

/-- Popping hands nothing on. -/
theorem handed_popStep {topic : Topic} (popper : Popper (Item topic)) :
    handed (popStep s topic popper) = [] := by
  cases popper with
  | idle | checked | copied => rfl
  | loaded tail =>
    by_cases hempty : tail = (s.queues topic).head
    · exact handed_afterLoop topic (by simp [popStep, SignalQueue.popStep, hempty])
    · simp [popStep, SignalQueue.popStep, hempty, handed]

/-- A frame that is published is handed on, and a frame that is handed on is processed. -/
theorem handed_step (node : ObdFeedback.Node) (s : State) (e : Event) :
    handed s ++ (published .obd ((osccToRos node).emit s e)).map Message.process =
      frames (e.passes s) ++ handed ((osccToRos node).next s e) := by
  cases e with
  | callback topic report clock =>
    obtain ⟨-, -, hpublished⟩ := enqueue_feedback s report clock
    have hdrain := enqueue_drain s report clock
    change handed s ++ (published .obd (enqueue s topic report clock).2).map Message.process =
      frames [] ++ handed (enqueue s topic report clock).1
    rw [hpublished, handed, handed, hdrain]
    exact List.append_nil _
  | drain now =>
    change handed s ++ (published .obd (drainStep node s now).2).map Message.process =
      frames ((Event.drain now).passes s) ++ handed (drainStep node s now).1
    cases hdrain : s.drain with
    | popping topic popper =>
      simpa [drainStep, hdrain, handed, Event.passes, frames, published] using
        (handed_popStep popper).symm
    | publishing topic item =>
      cases topic with
      | obd =>
        simpa [drainStep, hdrain, handed, Event.passes, frames, published, Drain.afterPublish]
          using process_toMessage item
      | brake | steering | throttle | fault =>
        simp [drainStep, hdrain, handed, Event.passes, frames, published, Drain.afterPublish,
          onTopic]
    | processing | checkingStaleness =>
      simp [drainStep, hdrain, handed, Event.passes, frames]
    | comparingDrops drops =>
      simp only [drainStep, hdrain, handed, Event.passes]
      split <;> rfl
    | idle | loggingFault | loadingDrops =>
      simp [drainStep, hdrain, handed, Event.passes, frames, published]

/-! ## Runs -/

/-- The run of the feedback component that a run of the bridge makes. -/
def feedbackEvents (node : ObdFeedback.Node) (es : List Event) : List ObdFeedback.Event :=
  (osccToRos node).passed (fun s e => e.passes s) (osccToRos node).init es

theorem feedback_run (node : ObdFeedback.Node) (es : List Event) :
    ((osccToRos node).state es).feedback =
        (ObdFeedback.obdFeedback node).state (feedbackEvents node es) ∧
      feedbackOutputs ((osccToRos node).trace es) =
        (ObdFeedback.obdFeedback node).trace (feedbackEvents node es) :=
  Machine.component_run State.feedback (C := fun _ => True) rfl (fun _ _ _ => trivial)
    (fun s e _ => feedback_step node s e) trivial es

/-- The feedback component has processed every published frame but the one handed on. -/
theorem published_eq (node : ObdFeedback.Node) (es : List Event) :
    (published .obd ((osccToRos node).trace es)).map Message.process =
      frames (feedbackEvents node es) ++ handed ((osccToRos node).state es) := by
  induction es using List.reverseRecOn with
  | nil => rfl
  | append_singleton es e ih =>
    have hstep := handed_step node ((osccToRos node).state es) e
    have hevents : feedbackEvents node (es ++ [e]) =
        feedbackEvents node es ++ e.passes ((osccToRos node).state es) := by
      simp [feedbackEvents, Machine.state]
    rw [Machine.trace_snoc, published_append, List.map_append, ih, Machine.state_snoc, hevents,
      frames_append, List.append_assoc, hstep, List.append_assoc]

/-- The feedback topics are the decoded messages of `can_frame`: in every reachable state each
of them has, in order, exactly the reports that the published frames deserve, up to the one
frame that is handed on; and once the frames in flight and in the queue have gone the same way,
those that the accepted frames deserve. -/
theorem feedback_follows_frames (node : ObdFeedback.Node) (es : List Event) (signal : Signal) :
    let s := (osccToRos node).state es
    let out := (osccToRos node).trace es
    let processed := ObdFeedback.reports signal (feedbackOutputs out)
    (handed s).length ≤ 1 ∧
      (published .obd out).filterMap (Message.decoded node signal) =
        processed ++ (handed s).filterMap (ObdFeedback.Event.decoded node signal) ∧
      ((accepted .obd out).map (toMessage .obd)).filterMap (Message.decoded node signal) =
        processed ++ (handed s).filterMap (ObdFeedback.Event.decoded node signal) ++
          ((inFlight .obd s ++ queued .obd s).map (toMessage .obd)).filterMap
            (Message.decoded node signal) := by
  intro s out processed
  have hhanded : (handed s).length ≤ 1 := by
    unfold handed
    split <;> simp
  have hpublished : (published .obd out).filterMap (Message.decoded node signal) =
      processed ++ (handed s).filterMap (ObdFeedback.Event.decoded node signal) := by
    have hprocessed : processed =
        (feedbackEvents node es).filterMap (ObdFeedback.Event.decoded node signal) := by
      rw [← ObdFeedback.reports_trace, ← (feedback_run node es).2]
    calc (published .obd out).filterMap (Message.decoded node signal)
        = ((published .obd out).map Message.process).filterMap
            (ObdFeedback.Event.decoded node signal) := by
          rw [List.filterMap_map]
          rfl
      _ = _ := by
          rw [published_eq, List.filterMap_append, filterMap_frames, hprocessed]
  refine ⟨hhanded, hpublished, ?_⟩
  obtain ⟨done, haccepted, hdone⟩ := accepted_eq node es .obd
  rw [← hpublished, hdone, haccepted, List.append_assoc, List.map_append, List.filterMap_append]

/-! ## Staleness -/

/-- The log statement about a stale signal is reached. `RCLCPP_WARN_THROTTLE` prints it at most
once in 5 s. -/
def staleReached (node : ObdFeedback.Node) (signal : Signal) : Output :=
  .feedback (.log (.stale signal (node.spec signal).canId node.feedbackTimeout))

/-- The clock of a callback reads later than the epoch. -/
def Event.ClockPositive : Event → Prop
  | .callback _ _ clock => 0 < toRosTime clock
  | .drain _ => True

instance : DecidablePred Event.ClockPositive
  | .callback _ _ clock => inferInstanceAs (Decidable (0 < toRosTime clock))
  | .drain _ => isTrue trivial

instance (drain : Drain) : Decidable (drain = .checkingStaleness) :=
  match drain with
  | .checkingStaleness => isTrue rfl
  | .idle | .popping _ _ | .publishing _ _ | .loggingFault _ | .processing _ _ | .loadingDrops
  | .comparingDrops _ => isFalse (by simp)

@[simp] theorem toTime_ofTime (time : Time) : (Stamp.ofTime time).toTime = time :=
  Int.ediv_mul_add_emod time 1000000000

/-- The feedback component reaches the statement in staleness checks only, for the signals that
are stale. -/
theorem stale_mem_emit_iff (node : ObdFeedback.Node) (t : ObdFeedback.State)
    (f : ObdFeedback.Event) (signal : Signal) :
    .log (.stale signal (node.spec signal).canId node.feedbackTimeout) ∈
        (ObdFeedback.obdFeedback node).emit t f ↔
      ∃ now, f = .checkStaleness now ∧
        ObdFeedback.stale node (node.spec signal) (t.last signal) now := by
  cases f with
  | process frame stamp =>
    constructor
    · intro hmem
      obtain ⟨s', r, ho, hhalf | hhalf⟩ := ObdFeedback.mem_emit_process hmem (by simp)
      · cases hhalf with
        | ignored | tooShort => simp at ho
        | published raw =>
          simp only [ObdFeedback.publishSteering] at ho
          split at ho <;> simp at ho
      · cases hhalf <;> simp [ObdFeedback.publishBrakePedal] at ho
    · rintro ⟨now, heq, -⟩
      simp at heq
  | checkStaleness now =>
    change _ ∈ ObdFeedback.checkStaleness node t now ↔ _
    cases signal <;>
      simp [ObdFeedback.checkStaleness, ObdFeedback.Node.spec, ObdFeedback.State.last]

/-- The clock of every queued item was read in its callback. -/
theorem clockPositive_of_mem_reports {es : List Event} (hclock : ∀ e ∈ es, e.ClockPositive)
    {topic : Topic} {item : Item topic} (hitem : item ∈ reports topic es) :
    0 < toRosTime item.stamp := by
  obtain ⟨e, he, hreport⟩ := List.mem_filterMap.mp hitem
  cases e with
  | drain now => simp [Event.report] at hreport
  | callback topic' report clock =>
    cases report with
    | none => simp [Event.report] at hreport
    | some data =>
      obtain ⟨data', -, rfl⟩ := Option.map_eq_some_iff.mp hreport
      exact hclock _ he

/-- With positive clocks every frame is processed with a positive stamp. -/
theorem stampOk_of_clockPositive (node : ObdFeedback.Node) {es : List Event}
    (hclock : ∀ e ∈ es, e.ClockPositive) : ∀ f ∈ feedbackEvents node es, f.StampOk := by
  intro f hf
  cases f with
  | checkStaleness now => trivial
  | process frame stamp =>
    have hframe : .process frame stamp ∈ frames (feedbackEvents node es) :=
      List.mem_filter.mpr ⟨hf, rfl⟩
    have hmem : .process frame stamp ∈
        (published .obd ((osccToRos node).trace es)).map Message.process := by
      rw [published_eq]
      exact List.mem_append_left _ hframe
    obtain ⟨done, haccepted, hdone⟩ := accepted_eq node es .obd
    rw [hdone, List.map_map] at hmem
    obtain ⟨item, hitem, heq⟩ := List.mem_map.mp hmem
    have hreported : item ∈ reports .obd es := by
      apply (accepted_sublist node es .obd).subset
      rw [haccepted]
      simp [hitem]
    rw [Function.comp_apply, process_toMessage, toTime_ofTime] at heq
    obtain ⟨-, rfl⟩ := ObdFeedback.Event.process.inj heq
    exact clockPositive_of_mem_reports hclock hreported

/-- The bridge reaches the throttled warning that a signal is stale exactly in the staleness check
of a drain, when the signal is enabled and the last report on its topic is older than the
timeout. -/
theorem staleness_follows_feedback (node : ObdFeedback.Node) (es : List Event)
    (hclock : ∀ e ∈ es, e.ClockPositive) (signal : Signal) :
    Historically (fun past e =>
      staleReached node signal ∈ (osccToRos node).emit ((osccToRos node).state past) e ↔
        ∃ now, e = .drain now ∧ ((osccToRos node).state past).drain = .checkingStaleness ∧
          (node.spec signal).enabled = true ∧
          ∃ r ∈ (ObdFeedback.reports signal
              (feedbackOutputs ((osccToRos node).trace past))).getLast?,
            .finite node.feedbackTimeout < seconds (now - r.stamp)) es := by
  intro past e hsplit
  have hpast : ∀ x ∈ past, x.ClockPositive := fun x hx =>
    hclock x (hsplit.subset (List.mem_append_left _ hx))
  obtain ⟨hstate, htrace⟩ := feedback_run node past
  have hstale := ObdFeedback.stale_iff node signal (stampOk_of_clockPositive node hpast)
  rw [← hstate, ← htrace] at hstale
  rw [staleReached, ← mem_feedbackOutputs, (feedback_step node _ e).2]
  cases e with
  | callback => simp [Event.passes]
  | drain now =>
    simp only [Event.passes, Event.drain.injEq, ← hstale, exists_eq_left']
    cases hdrain : ((osccToRos node).state past).drain with
    | checkingStaleness => simp [stale_mem_emit_iff]
    | processing => simp [stale_mem_emit_iff]
    | idle | popping | publishing | loggingFault | loadingDrops | comparingDrops => simp

/-- One steering frame, and a drain two seconds later: the drain processes the frame and then
reaches the warning about it. -/
theorem staleness_follows_feedback_old_frame :
    let node := (ObdFeedback.Node.construct .default).1
    let past : List Event := .callback .obd
        (some (⟨0x2B0, 8, Vector.replicate 8 7⟩ : ObdFeedback.CanFrame)) ⟨1700000000, 9⟩ ::
      List.replicate 17 (.drain 1700000002000000000)
    staleReached node .steering ∈
      (osccToRos node).emit ((osccToRos node).state past) (.drain 1700000002000000000) := by
  intro node past
  have hcheck : ((osccToRos node).state past).drain = .checkingStaleness := by decide +kernel
  have hlast : ∃ r ∈ (ObdFeedback.reports .steering
      (feedbackOutputs ((osccToRos node).trace past))).getLast?,
      .finite node.feedbackTimeout < seconds (1700000002000000000 - r.stamp) := by decide +kernel
  exact (staleness_follows_feedback node (past ++ [.drain 1700000002000000000])
    (by decide +kernel) .steering past (.drain 1700000002000000000) List.prefix_rfl).mpr
    ⟨1700000002000000000, rfl, hcheck, by decide +kernel, hlast⟩

end Roscco.OsccToRos
