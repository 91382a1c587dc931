import Roscco.ObdFeedback.Operations

/-!
# The feedback topics are the decoded frames

Each of the two signals has its own stream of reports: one for every frame that carries
the identifier of the enabled signal and is long enough, computed from that frame alone.
Nothing of the other signal enters it. The time stamps that the staleness checks look at
are those of the last reports.

## Main results

* `process_spec` — what one frame does to both signals; `process` is total.
* `feedback_streams` — the reports and the staleness of every run.
* `frame_kind_ignored` — remote and error frames are treated like data frames.
-/

namespace Roscco.ObdFeedback

open Library

variable {node : Node} {s : State} {signal : Signal}

/-! ## One signal at a time -/

/-- The type of the reports on a signal. -/
def SignalReport : Signal → Type
  | .steering => SteeringAngleReport
  | .brakePedal => BrakePedalReport

def SignalReport.stamp : {signal : Signal} → SignalReport signal → Time
  | .steering, report => SteeringAngleReport.stamp report
  | .brakePedal, report => BrakePedalReport.stamp report

def SignalReport.raw : {signal : Signal} → SignalReport signal → Int
  | .steering, report => SteeringAngleReport.raw report
  | .brakePedal, report => BrakePedalReport.raw report

/-- The scaled value: the steering angle, or the brake pedal value. -/
def SignalReport.scaled : {signal : Signal} → SignalReport signal → ℚ
  | .steering, report => SteeringAngleReport.angle report
  | .brakePedal, report => BrakePedalReport.value report

def Node.spec (node : Node) : Signal → SignalSpec
  | .steering => node.steering
  | .brakePedal => node.brakePedal

/-- `last_steering_` or `last_brake_`. -/
def State.last (s : State) : Signal → Time
  | .steering => s.lastSteering
  | .brakePedal => s.lastBrake

def Output.report : (signal : Signal) → Output → Option (SignalReport signal)
  | .steering, .steeringAngle report => some report
  | .brakePedal, .brakePedal report => some report
  | _, _ => none

/-- The messages on the topic of a signal. -/
def reports (signal : Signal) (os : List Output) : List (SignalReport signal) :=
  os.filterMap (Output.report signal)

/-- The frame carries the identifier of the enabled signal and is long enough. -/
def SignalSpec.Selects (spec : SignalSpec) (frame : CanFrame) : Prop :=
  (spec.enabled = true ∧ plainId frame = spec.canId) ∧ spec.fitsIn frame.canDlc = true

instance (spec : SignalSpec) (frame : CanFrame) : Decidable (spec.Selects frame) :=
  inferInstanceAs (Decidable (_ ∧ _))

/-- The report on a raw value. -/
def Node.report (node : Node) (frame : CanFrame) (stamp : Time) (raw : Int) :
    (signal : Signal) → SignalReport signal
  | .steering =>
    let angle := raw * node.steering.scale + node.steering.offset
    (⟨stamp, plainId frame, angle, raw, decide (node.steeringMin ≤ angle ∧
      angle ≤ node.steeringMax)⟩ : SteeringAngleReport)
  | .brakePedal =>
    let value := raw * node.brakePedal.scale + node.brakePedal.offset
    let above := decide (node.brakePressThreshold ≤ value)
    (⟨stamp, plainId frame, if node.brakeActiveHigh then above else !above, value, raw⟩ :
      BrakePedalReport)

/-- The report that a frame deserves, from this frame alone. -/
def Node.decoded (node : Node) (signal : Signal) (frame : CanFrame) (stamp : Time) :
    Option (SignalReport signal) :=
  if (node.spec signal).Selects frame then
    ((node.spec signal).decodeRaw frame.data.toList frame.canDlc).map
      (node.report frame stamp · signal)
  else none

variable {frame : CanFrame} {stamp : Time}

/-- Exactly the selected frames deserve a report. -/
theorem isSome_decoded :
    (node.decoded signal frame stamp).isSome = true ↔ (node.spec signal).Selects frame := by
  unfold Node.decoded
  split
  · next h =>
    obtain ⟨raw, hraw⟩ := exists_decodeRaw h.2 frame.data
    simp [h, hraw]
  · next h => simp [h]

@[simp] theorem reports_append (os ps : List Output) :
    reports signal (os ++ ps) = reports signal os ++ reports signal ps := List.filterMap_append

/-! ## One frame -/

/-- What one half of `process` does: the report of its own signal goes out and its stamp is
remembered, the other signal is left alone. -/
structure HalfSpec (node : Node) (signal : Signal) (s : State) (frame : CanFrame) (stamp : Time)
    (r : State × List Output) : Prop where
  reports : reports signal r.2 = (node.decoded signal frame stamp).toList
  last : r.1.last signal = if (node.spec signal).Selects frame then stamp else s.last signal
  otherReports : ∀ other ≠ signal, ObdFeedback.reports other r.2 = []
  otherLast : ∀ other ≠ signal, r.1.last other = s.last other

theorem HalfSpec.of_not_selects (h : ¬ (node.spec signal).Selects frame) {out : List Output}
    (hout : ∀ signal, ObdFeedback.reports signal out = []) :
    HalfSpec node signal s frame stamp (s, out) where
  reports := by rw [hout, Node.decoded, if_neg h]; rfl
  last := (if_neg h).symm
  otherReports := fun _ _ => hout _
  otherLast := fun _ _ => rfl

theorem HalfSpec.of_selects (h : (node.spec signal).Selects frame) {raw : Int}
    (hraw : (node.spec signal).decodeRaw frame.data.toList frame.canDlc = some raw)
    {r : State × List Output}
    (hreports : ObdFeedback.reports signal r.2 = [node.report frame stamp raw signal])
    (hlast : r.1.last signal = stamp)
    (hother : ∀ other ≠ signal,
      ObdFeedback.reports other r.2 = [] ∧ r.1.last other = s.last other) :
    HalfSpec node signal s frame stamp r where
  reports := by rw [hreports, Node.decoded, if_pos h, hraw]; rfl
  last := by rw [hlast, if_pos h]
  otherReports := fun other h => (hother other h).1
  otherLast := fun other h => (hother other h).2

/-- Either half meets its specification when its publishing function does. -/
theorem processSignal_half {publish : Int → State × List Output}
    (hpublish : ∀ raw, ObdFeedback.reports signal (publish raw).2 =
        [node.report frame stamp raw signal] ∧ (publish raw).1.last signal = stamp ∧
      ∀ other ≠ signal, ObdFeedback.reports other (publish raw).2 = [] ∧
        (publish raw).1.last other = s.last other) :
    ∃ r, processSignal signal (node.spec signal) s frame publish = some r ∧
      HalfSpec node signal s frame stamp r := by
  by_cases hid : (node.spec signal).enabled = true ∧ plainId frame = (node.spec signal).canId
  · cases hfits : (node.spec signal).fitsIn frame.canDlc with
    | true =>
      obtain ⟨raw, hraw⟩ := exists_decodeRaw hfits frame.data
      refine ⟨publish raw, by simp [Decoder.processSignal, hid, hfits, hraw], ?_⟩
      obtain ⟨hreports, hlast, hother⟩ := hpublish raw
      exact .of_selects ⟨hid, hfits⟩ hraw hreports hlast hother
    | false =>
      refine ⟨(s, [.log (.tooShort signal (plainId frame) frame.canDlc)]), ?_, ?_⟩
      · simp [Decoder.processSignal, hid, hfits]
      · refine .of_not_selects (fun h => by simp [h.2] at hfits) fun signal => ?_
        cases signal <;> rfl
  · refine ⟨(s, []), by simp [Decoder.processSignal, hid], ?_⟩
    exact .of_not_selects (fun h => hid h.1) fun _ => rfl

theorem steering_half (node : Node) (s : State) (frame : CanFrame) (stamp : Time) :
    ∃ r, processSignal .steering node.steering s frame (publishSteering node s frame stamp) =
      some r ∧ HalfSpec node .steering s frame stamp r := by
  refine processSignal_half fun raw => ⟨?_, rfl, ?_⟩
  · simp only [publishSteering, reports_append]
    split <;> rfl
  · rintro (_ | _) h
    · contradiction
    · refine ⟨?_, rfl⟩
      simp only [publishSteering, reports_append]
      split <;> rfl

theorem brakePedal_half (node : Node) (s : State) (frame : CanFrame) (stamp : Time) :
    ∃ r, processSignal .brakePedal node.brakePedal s frame (publishBrakePedal node s frame stamp) =
      some r ∧ HalfSpec node .brakePedal s frame stamp r := by
  refine processSignal_half fun raw => ⟨rfl, rfl, ?_⟩
  rintro (_ | _) h
  · exact ⟨rfl, rfl⟩
  · contradiction

/-- What `process` does to a signal: its report goes out, and its stamp is remembered. -/
structure Processed (node : Node) (s t : State) (out : List Output) (frame : CanFrame)
    (stamp : Time) (signal : Signal) : Prop where
  reports : reports signal out = (node.decoded signal frame stamp).toList
  last : t.last signal = if (node.spec signal).Selects frame then stamp else s.last signal

/-- `process` never fails, and treats either signal as if the other were not there. -/
theorem process_spec (node : Node) (s : State) (frame : CanFrame) (stamp : Time) :
    ∃ t out, process node s frame stamp = some (t, out) ∧
      ∀ signal, Processed node s t out frame stamp signal := by
  obtain ⟨⟨s', out⟩, hsteering, hs⟩ := steering_half node s frame stamp
  obtain ⟨⟨t, out'⟩, hbrake, hb⟩ := brakePedal_half node s' frame stamp
  refine ⟨t, out ++ out', by simp [Decoder.process, hsteering, hbrake], ?_⟩
  intro signal
  cases signal with
  | steering =>
    constructor
    · rw [reports_append, hs.reports, hb.otherReports .steering (by decide), List.append_nil]
    · rw [hb.otherLast .steering (by decide)]
      exact hs.last
  | brakePedal =>
    constructor
    · rw [reports_append, hs.otherReports .brakePedal (by decide), hb.reports, List.nil_append]
    · rw [hb.last, hs.otherLast .brakePedal (by decide)]

/-! ## Runs -/

variable {e : Event} {es : List Event}

/-- The report that an event deserves. -/
def Event.decoded (node : Node) (signal : Signal) : Event → Option (SignalReport signal)
  | .process frame stamp => node.decoded signal frame stamp
  | .checkStaleness _ => none

/-- The event is a frame that the signal selects. -/
def Event.selected (node : Node) (signal : Signal) : Event → Bool
  | .process frame _ => decide ((node.spec signal).Selects frame)
  | .checkStaleness _ => false

/-- The stamp of a frame is positive. -/
def Event.StampOk : Event → Prop
  | .process _ stamp => 0 < stamp
  | .checkStaleness _ => True

instance : DecidablePred Event.StampOk
  | .process _ stamp => inferInstanceAs (Decidable (0 < stamp))
  | .checkStaleness _ => isTrue trivial

theorem isSome_event_decoded : (e.decoded node signal).isSome = e.selected node signal := by
  cases e with
  | process frame stamp =>
    rw [Bool.eq_iff_iff]
    exact isSome_decoded.trans decide_eq_true_iff.symm
  | checkStaleness now => rfl

theorem stamp_of_mem_decoded {r : SignalReport signal} (h : r ∈ node.decoded signal frame stamp) :
    r.stamp = stamp := by
  unfold Node.decoded at h
  split at h
  · obtain ⟨raw, -, rfl⟩ := Option.map_eq_some_iff.mp h
    cases signal <;> rfl
  · simp at h

theorem exists_decoded (h : (node.spec signal).Selects frame) (stamp : Time) :
    ∃ r, node.decoded signal frame stamp = some r ∧ r.stamp = stamp := by
  obtain ⟨r, hr⟩ := Option.isSome_iff_exists.mp (isSome_decoded.mpr h)
  exact ⟨r, hr, stamp_of_mem_decoded hr⟩

/-- What one event does to one signal. -/
theorem step_spec (node : Node) (s : State) (e : Event) (signal : Signal) :
    reports signal ((obdFeedback node).emit s e) = (e.decoded node signal).toList ∧
      ((obdFeedback node).next s e).last signal =
        ((e.decoded node signal).map SignalReport.stamp).getD (s.last signal) := by
  cases e with
  | checkStaleness now =>
    refine ⟨?_, rfl⟩
    have hemit : (obdFeedback node).emit s (.checkStaleness now) = checkStaleness node s now := rfl
    rw [hemit, checkStaleness, reports_append]
    split <;> split <;> cases signal <;> rfl
  | process frame stamp =>
    obtain ⟨t, out, hprocess, hsignals⟩ := process_spec node s frame stamp
    have hemit : (obdFeedback node).emit s (.process frame stamp) = out := by
      simp [obdFeedback, Machine.emit, step, hprocess]
    have hnext : (obdFeedback node).next s (.process frame stamp) = t := by
      simp [obdFeedback, Machine.next, step, hprocess]
    obtain ⟨hreports, hlast⟩ := hsignals signal
    refine ⟨by rw [hemit, hreports]; rfl, ?_⟩
    rw [hnext, hlast, Event.decoded]
    by_cases hselects : (node.spec signal).Selects frame
    · obtain ⟨r, hr, hstamp⟩ := exists_decoded hselects stamp
      rw [if_pos hselects, hr, Option.map_some, Option.getD_some, hstamp]
    · simp [hselects, Node.decoded]

/-- The reports of a run are the reports that its events deserve. -/
theorem reports_trace (node : Node) (signal : Signal) (es : List Event) :
    reports signal ((obdFeedback node).trace es) = es.filterMap (Event.decoded node signal) := by
  induction es using List.reverseRecOn with
  | nil => rfl
  | append_singleton es e ih =>
    rw [Machine.trace_snoc, reports_append, ih, (step_spec node _ e signal).1,
      List.filterMap_append]
    cases h : e.decoded node signal <;> simp [h]

/-- The remembered stamp is that of the last report. -/
theorem last_state (node : Node) (signal : Signal) (es : List Event) :
    ((obdFeedback node).state es).last signal =
      ((reports signal ((obdFeedback node).trace es)).getLast?.map SignalReport.stamp).getD 0 := by
  refine (obdFeedback node).invariant_run (I := fun es s => s.last signal =
    ((reports signal ((obdFeedback node).trace es)).getLast?.map SignalReport.stamp).getD 0)
    (by cases signal <;> rfl) ?_ es
  intro es e ih
  obtain ⟨hreports, hlast⟩ := step_spec node ((obdFeedback node).state es) e signal
  rw [hlast, Machine.trace_snoc, reports_append, hreports, ih]
  cases e.decoded node signal <;> simp

theorem stamp_pos_of_mem_reports {r : SignalReport signal} (hstamps : ∀ e ∈ es, e.StampOk)
    (h : r ∈ reports signal ((obdFeedback node).trace es)) : 0 < r.stamp := by
  rw [reports_trace] at h
  obtain ⟨e, he, hr⟩ := List.mem_filterMap.mp h
  cases e with
  | checkStaleness now => simp [Event.decoded] at hr
  | process frame stamp =>
    rw [stamp_of_mem_decoded hr]
    exact hstamps _ he

/-- A signal is stale when its last report is too old. -/
theorem stale_iff (node : Node) (signal : Signal) (hstamps : ∀ e ∈ es, e.StampOk) (now : Time) :
    stale node (node.spec signal) (((obdFeedback node).state es).last signal) now ↔
      (node.spec signal).enabled = true ∧
        ∃ r ∈ (reports signal ((obdFeedback node).trace es)).getLast?,
          .finite node.feedbackTimeout < seconds (now - r.stamp) := by
  rw [stale, last_state]
  cases hlast : (reports signal ((obdFeedback node).trace es)).getLast? with
  | none => simp
  | some r =>
    have hpos := stamp_pos_of_mem_reports hstamps (List.mem_of_getLast? hlast)
    simp [hpos]

/-- Only the selected frames matter. -/
theorem filterMap_decoded_filter (node : Node) (signal : Signal) (es : List Event) :
    (es.filter (Event.selected node signal)).filterMap (Event.decoded node signal) =
      es.filterMap (Event.decoded node signal) := by
  rw [List.filterMap_filter]
  congr 1
  funext e
  rw [← isSome_event_decoded]
  cases e.decoded node signal <;> rfl

/-! ## Configurations -/

/-- Two configurations that agree on the parameters of a signal. -/
def Config.SameOn : Signal → Config → Config → Prop
  | .steering, cfg, cfg' => cfg'.steering = cfg.steering ∧ cfg'.steeringMin = cfg.steeringMin ∧
      cfg'.steeringMax = cfg.steeringMax
  | .brakePedal, cfg, cfg' => cfg'.brakePedal = cfg.brakePedal ∧
      cfg'.brakePressThreshold = cfg.brakePressThreshold ∧
      cfg'.brakeActiveHigh = cfg.brakeActiveHigh

/-- The reports on a signal are made from its own parameters. -/
theorem decoded_of_sameOn {cfg cfg' : Config} (h : Config.SameOn signal cfg cfg') :
    (Node.construct cfg').1.decoded signal = (Node.construct cfg).1.decoded signal := by
  funext frame stamp
  cases signal with
  | steering =>
    obtain ⟨hspec, hmin, hmax⟩ := h
    simp only [Node.decoded, Node.spec, Node.report, Node.construct, hspec, hmin, hmax]
    rfl
  | brakePedal =>
    obtain ⟨hspec, hthreshold, hactive⟩ := h
    simp only [Node.decoded, Node.spec, Node.report, Node.construct, hspec, hthreshold, hactive]
    rfl

/-- The reports on a signal are those its selected frames deserve, in order, whatever the
other signal and all other frames; its staleness is the age of its last report. -/
theorem feedback_streams (cfg : Config) (signal : Signal) (es : List Event)
    (hstamps : ∀ e ∈ es, e.StampOk) :
    let node := (Node.construct cfg).1
    let published := reports signal ((obdFeedback node).trace es)
    published = es.filterMap (Event.decoded node signal) ∧
    (∀ frame stamp, (node.decoded signal frame stamp).isSome = true ↔
      (node.spec signal).Selects frame) ∧
    (∀ cfg', Config.SameOn signal cfg cfg' →
      reports signal ((obdFeedback (Node.construct cfg').1).trace es) = published) ∧
    (∀ es', es'.filter (Event.selected node signal) = es.filter (Event.selected node signal) →
      reports signal ((obdFeedback node).trace es') = published) ∧
    ∀ now, stale node (node.spec signal) (((obdFeedback node).state es).last signal) now ↔
      (node.spec signal).enabled = true ∧
        ∃ r ∈ published.getLast?, .finite node.feedbackTimeout < seconds (now - r.stamp) := by
  intro node published
  refine ⟨reports_trace node signal es, fun _ _ => isSome_decoded, ?_, ?_,
    stale_iff node signal hstamps⟩
  · intro cfg' hsame
    have hdecoded : Event.decoded (Node.construct cfg').1 signal = Event.decoded node signal := by
      funext e
      cases e with
      | process frame stamp => exact congrFun (congrFun (decoded_of_sameOn hsame) frame) stamp
      | checkStaleness now => rfl
    change _ = reports signal ((obdFeedback node).trace es)
    rw [reports_trace, reports_trace, hdecoded]
  · intro es' hfilter
    change _ = reports signal ((obdFeedback node).trace es)
    rw [reports_trace, reports_trace, ← filterMap_decoded_filter, hfilter,
      filterMap_decoded_filter]

/-- A steering frame, and a brake pedal frame without payload: one report, on the steering. -/
theorem feedback_streams_short :
    let node := (Node.construct .default).1
    let es : List Event := [
      .process ⟨0x2B0, 8, #v[0x10, 0x27, 0, 0, 0, 0, 0, 0]⟩ 1000000000,
      .process ⟨0x220, 0, Vector.replicate 8 0⟩ 1010000000]
    reports .steering ((obdFeedback node).trace es) =
        es.filterMap (Event.decoded node .steering) ∧
      reports .brakePedal ((obdFeedback node).trace es) =
        es.filterMap (Event.decoded node .brakePedal) := by
  intro node es
  exact ⟨(feedback_streams .default .steering es (by decide)).1,
    (feedback_streams .default .brakePedal es (by decide)).1⟩

/-! ## Frame kinds -/

def CAN_RTR_FLAG : BitVec 32 := 0x40000000
def CAN_ERR_FLAG : BitVec 32 := 0x20000000

/-- A remote request or an error frame. -/
def CanFrame.IsControl (frame : CanFrame) : Prop :=
  frame.canId &&& CAN_RTR_FLAG ≠ 0 ∨ frame.canId &&& CAN_ERR_FLAG ≠ 0

instance : DecidablePred CanFrame.IsControl :=
  fun _ => inferInstanceAs (Decidable (_ ∨ _))

/-- The data frame with the same identifier and payload. -/
def CanFrame.asData (frame : CanFrame) : CanFrame :=
  { frame with canId := frame.canId &&& ~~~(CAN_RTR_FLAG ||| CAN_ERR_FLAG) }

def Event.asData : Event → Event
  | .process frame stamp => .process frame.asData stamp
  | .checkStaleness now => .checkStaleness now

/-- The identifier does not tell the kinds of frames apart. -/
@[simp] theorem plainId_asData (frame : CanFrame) : plainId frame.asData = plainId frame := by
  have heff : ~~~(CAN_RTR_FLAG ||| CAN_ERR_FLAG) &&& CAN_EFF_FLAG = CAN_EFF_FLAG := by decide
  have hextended : ~~~(CAN_RTR_FLAG ||| CAN_ERR_FLAG) &&& CAN_EFF_MASK = CAN_EFF_MASK := by decide
  have hstandard : ~~~(CAN_RTR_FLAG ||| CAN_ERR_FLAG) &&& CAN_SFF_MASK = CAN_SFF_MASK := by decide
  simp only [plainId, CanFrame.asData, BitVec.and_assoc, heff, hextended, hstandard]

/-- One event does what its data frame does. -/
theorem step_asData (node : Node) (s : State) (e : Event) :
    (obdFeedback node).step s e.asData = (obdFeedback node).step s e := by
  cases e with
  | checkStaleness now => rfl
  | process frame stamp =>
    have hsignal (signal : Signal) (spec : SignalSpec) (s : State)
        (publish : Int → State × List Output) :
        processSignal signal spec s frame.asData publish =
          processSignal signal spec s frame publish := by
      simp only [Decoder.processSignal, plainId_asData]
      rfl
    have hsteering : publishSteering node s frame.asData stamp =
        publishSteering node s frame stamp := by
      funext raw
      simp only [publishSteering, plainId_asData]
    have hbrake (s : State) : publishBrakePedal node s frame.asData stamp =
        publishBrakePedal node s frame stamp := by
      funext raw
      simp only [publishBrakePedal, plainId_asData]
    simp only [obdFeedback, step, Event.asData, Decoder.process, hsignal, hsteering, hbrake]

/-- Remote requests and error frames are treated like the data frames with the same
identifier, length and payload: both flags are masked off before the comparison. -/
theorem frame_kind_ignored (cfg : Config) (es : List Event) :
    let node := (Node.construct cfg).1
    ((obdFeedback node).trace (es.map Event.asData) = (obdFeedback node).trace es ∧
      (obdFeedback node).state (es.map Event.asData) = (obdFeedback node).state es) ∧
    ∀ frame stamp signal,
      let s := (obdFeedback node).state es
      (reports signal ((obdFeedback node).emit s (.process frame stamp))).length =
          (if (node.spec signal).Selects frame then 1 else 0) ∧
        ((obdFeedback node).next s (.process frame stamp)).last signal =
          if (node.spec signal).Selects frame then stamp else s.last signal := by
  intro node
  refine ⟨(obdFeedback node).run_map (step_asData node) es, ?_⟩
  intro frame stamp signal s
  obtain ⟨hreports, hlast⟩ := step_spec node s (.process frame stamp) signal
  rw [hreports, hlast, Event.decoded]
  by_cases hselects : (node.spec signal).Selects frame
  · obtain ⟨r, hr, hstamp⟩ := exists_decoded hselects stamp
    simp [hselects, hr, hstamp]
  · simp [hselects, Node.decoded]

/-- A remote request for the steering angle is answered with a steering angle. -/
theorem not_only_data_frames : ¬ ∀ (cfg : Config) (es : List Event) frame stamp,
    frame.IsControl → ∀ signal, reports signal ((obdFeedback (Node.construct cfg).1).emit
      ((obdFeedback (Node.construct cfg).1).state es) (.process frame stamp)) = [] := by
  intro h
  have hreports := h .default [] ⟨0x2B0 ||| CAN_RTR_FLAG, 8, Vector.replicate 8 0⟩ 1000000000
    (by decide) .steering
  revert hreports
  decide +kernel

end Roscco.ObdFeedback
