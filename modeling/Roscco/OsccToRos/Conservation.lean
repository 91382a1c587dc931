import Mathlib.Algebra.BigOperators.Group.Finset.Basic
import Mathlib.Data.Fintype.BigOperators
import Roscco.OsccToRos.Basic
import Roscco.SignalQueue.Refinement

/-!
# The bridge conserves reports

On every topic the accepted reports are, in order, the published ones, at most one that
is popped and about to be published, and those still queued. A report that is not
accepted is counted.
-/

namespace Roscco.OsccToRos

open Library SignalQueue

variable {node : ObdFeedback.Node} {s t : State} {topic : Topic}

/-! ## Views of a run, one topic at a time -/

/-- A value of some topic, when it is of this one. -/
def onTopic {F : Topic → Type} (topic : Topic) {topic' : Topic} (x : F topic') :
    Option (F topic) :=
  if h : topic' = topic then some (h ▸ x) else none

@[simp] theorem onTopic_self {F : Topic → Type} (x : F topic) : onTopic topic x = some x := by
  simp [onTopic]

theorem onTopic_of_ne {F : Topic → Type} {topic' : Topic} (h : topic' ≠ topic) (x : F topic') :
    onTopic topic x = none := by
  simp [onTopic, h]

/-- The non-null report of this kind that an event delivers. -/
def Event.report (topic : Topic) : Event → Option (Item topic)
  | .callback _ (some data) clock => (onTopic topic data).map (⟨·, clock⟩)
  | .callback _ none _ | .drain _ => none

/-- The non-null reports of this kind that a run delivers, with their arrival times. -/
def reports (topic : Topic) (es : List Event) : List (Item topic) :=
  es.filterMap (Event.report topic)

/-- The reports of this kind that their queue took. -/
def accepted (topic : Topic) (os : List Output) : List (Item topic) :=
  os.filterMap fun | .accepted _ item => onTopic topic item | _ => none

/-- The messages on this topic. -/
def published (topic : Topic) (os : List Output) : List (Message topic) :=
  os.filterMap fun | .published _ message => onTopic topic message | _ => none

/-- The number of reports of any kind that found their queue full. -/
def refused (os : List Output) : ℕ := os.countP fun | .refused _ _ => true | _ => false

/-- The report of this kind that is popped and about to be published. -/
def inFlight (topic : Topic) (s : State) : List (Item topic) :=
  match s.drain with
  | .publishing _ item => (onTopic topic item).toList
  | _ => []

/-- The reports of this kind that are still queued, the oldest first. -/
def queued (topic : Topic) (s : State) : List (Item topic) := (s.queues topic).contents

theorem reports_snoc (es : List Event) (e : Event) :
    reports topic (es ++ [e]) = reports topic es ++ (e.report topic).toList := by
  cases h : e.report topic <;> simp [reports, h]

@[simp] theorem accepted_append (os ps : List Output) :
    accepted topic (os ++ ps) = accepted topic os ++ accepted topic ps := List.filterMap_append

@[simp] theorem published_append (os ps : List Output) :
    published topic (os ++ ps) = published topic os ++ published topic ps := List.filterMap_append

@[simp] theorem refused_append (os ps : List Output) :
    refused (os ++ ps) = refused os + refused ps := List.countP_append

theorem length_inFlight_le : (inFlight topic s).length ≤ 1 := by
  unfold inFlight
  split
  · exact Option.length_toList_le
  · exact Nat.zero_le _

/-! ## One step -/

/-- A pop under way agrees with its queue. -/
def DrainOk (queues : (topic : Topic) → SignalQueue (Item topic) (depth topic)) : Drain → Prop
  | .popping topic popper => PopperOk (queues topic) popper
  | _ => True

/-- Every queue has its indices in bounds, and a pop under way agrees with its queue. -/
structure Inv (s : State) : Prop where
  bounded : ∀ topic, (s.queues topic).Bounded
  drain : DrainOk s.queues s.drain

/-- What one step does to one topic: some items leave, published, and the others stay in
order, with the newly accepted ones behind them. -/
def Moves (topic : Topic) (s t : State) (out : List Output) : Prop :=
  ∃ gone, inFlight topic s ++ queued topic s ++ accepted topic out =
      gone ++ inFlight topic t ++ queued topic t ∧
    published topic out = gone.map (toMessage topic)

/-- A step that moves nothing on a topic. -/
theorem Moves.of_eq {out : List Output} (hflight : inFlight topic t = inFlight topic s)
    (hqueued : queued topic t = queued topic s) (haccepted : accepted topic out = [])
    (hpublished : published topic out = []) : Moves topic s t out :=
  ⟨[], by simp [hflight, hqueued, haccepted], by simp [hpublished]⟩

theorem Moves.trans {u : State} {out out' : List Output} (hst : Moves topic s t out)
    (htu : Moves topic t u out') : Moves topic s u (out ++ out') := by
  obtain ⟨gone, hitems, hpublished⟩ := hst
  obtain ⟨gone', hitems', hpublished'⟩ := htu
  refine ⟨gone ++ gone', ?_, by simp [hpublished, hpublished']⟩
  calc inFlight topic s ++ queued topic s ++ accepted topic (out ++ out')
      = (inFlight topic s ++ queued topic s ++ accepted topic out) ++ accepted topic out' := by
        simp
    _ = gone ++ (inFlight topic t ++ queued topic t ++ accepted topic out') := by simp [hitems]
    _ = gone ++ gone' ++ inFlight topic u ++ queued topic u := by simp [hitems']

theorem bounded_update {topic' : Topic} {q : SignalQueue (Item topic') (depth topic')}
    (h : Inv s) (hq : q.Bounded) (topic : Topic) :
    (Function.update s.queues topic' q topic).Bounded := by
  by_cases htopic : topic = topic'
  · subst htopic
    simpa using hq
  · simpa [htopic] using h.bounded topic

/-! ### Callbacks -/

@[simp] theorem enqueue_drain (s : State) (report : Option (Report topic)) (clock : Timespec) :
    (enqueue s topic report clock).1.drain = s.drain := by
  cases report with
  | none => rfl
  | some data =>
    simp only [enqueue]
    split <;> rfl

theorem enqueue_inv (h : Inv s) (report : Option (Report topic)) (clock : Timespec) :
    Inv (enqueue s topic report clock).1 := by
  cases report with
  | none => exact h
  | some data =>
    have hqueues : (enqueue s topic (some data) clock).1.queues =
        Function.update s.queues topic ((s.queues topic).push ⟨data, clock⟩).1 := by
      simp only [enqueue]
      split <;> rfl
    obtain ⟨hbounded, -, -⟩ := push_spec (c := .idle) (h.bounded topic) trivial ⟨data, clock⟩
    constructor
    · rw [hqueues]
      exact bounded_update h hbounded
    · rw [hqueues, enqueue_drain]
      have hok := h.drain
      cases hd : s.drain with
      | popping topic' popper =>
        rw [hd] at hok
        by_cases htopic : topic' = topic
        · subst htopic
          obtain ⟨-, hpopper, -⟩ := push_spec (h.bounded topic') hok ⟨data, clock⟩
          simpa [DrainOk] using hpopper
        · simpa [DrainOk, htopic] using hok
      | idle | publishing | loggingFault | processing | checkingStaleness | loadingDrops
      | comparingDrops => trivial

theorem enqueue_moves (h : Inv s) {topic' : Topic} (report : Option (Report topic'))
    (clock : Timespec) (topic : Topic) :
    Moves topic s (enqueue s topic' report clock).1 (enqueue s topic' report clock).2 := by
  cases report with
  | none => exact .of_eq rfl rfl rfl rfl
  | some data =>
    have hcontents := contents_push (h.bounded topic') ⟨data, clock⟩
    by_cases htopic : topic' = topic
    · subst htopic
      cases hok : ((s.queues topic').push ⟨data, clock⟩).2 <;>
        rw [hok] at hcontents <;>
        exact ⟨[], by simp [enqueue, hok, accepted, queued, inFlight, hcontents],
          by simp [enqueue, hok, published]⟩
    · cases hok : ((s.queues topic').push ⟨data, clock⟩).2 <;>
        exact .of_eq (by simp [enqueue, hok, inFlight])
          (by simp [enqueue, hok, queued, Ne.symm htopic])
          (by simp [enqueue, hok, accepted, onTopic_of_ne htopic])
          (by simp [enqueue, hok, published])

/-! ### Steps of `drain` -/

theorem drainOk_afterLoop (queues : (topic : Topic) → SignalQueue (Item topic) (depth topic)) :
    DrainOk queues (.afterLoop topic) := by
  cases topic <;> trivial

theorem drainOk_afterPublish (queues : (topic : Topic) → SignalQueue (Item topic) (depth topic))
    (item : Item topic) : DrainOk queues (.afterPublish topic item) := by
  cases topic <;> trivial

/-- What one step of the pop in a loop condition can do: go on, find the queue empty and
leave the loop, or take the oldest item. -/
inductive PopStep (topic : Topic) (s : State) : State → Prop
  | within (q : SignalQueue (Item topic) (depth topic)) (popper : Popper (Item topic))
    (hbounded : q.Bounded) (hpopper : PopperOk q popper) (hqueued : q.contents = queued topic s) :
    PopStep topic s
      { s with queues := Function.update s.queues topic q, drain := .popping topic popper }
  | ended (q : SignalQueue (Item topic) (depth topic)) (hbounded : q.Bounded)
    (hqueued : q.contents = queued topic s) (hempty : queued topic s = []) :
    PopStep topic s
      { s with queues := Function.update s.queues topic q, drain := .afterLoop topic }
  | took (q : SignalQueue (Item topic) (depth topic)) (item : Item topic) (hbounded : q.Bounded)
    (hqueued : queued topic s = item :: q.contents) :
    PopStep topic s
      { s with queues := Function.update s.queues topic q, drain := .publishing topic item }

theorem popStep_spec (h : Inv s) {popper : Popper (Item topic)}
    (hdrain : s.drain = .popping topic popper) : PopStep topic s (popStep s topic popper) := by
  have hok : PopperOk (s.queues topic) popper := by
    simpa [DrainOk, hdrain] using h.drain
  obtain ⟨hbounded, -, hpopper, heffect⟩ :=
    SignalQueue.popStep_spec (p := .idle) (h.bounded topic) trivial hok
  have hout := popStep_out (s.queues topic) popper
  rw [popStep]
  generalize SignalQueue.popStep (s.queues topic) popper = r
    at hbounded hpopper heffect hout
  obtain ⟨q, popper', out⟩ := r
  have hconserves : Fifo.pops out ++ q.contents = queued topic s ++ Fifo.pushes out :=
    heffect.conserves
  rcases hout with rfl | rfl | ⟨item, rfl⟩
  · exact .within q popper' hbounded hpopper (by simpa using hconserves)
  · exact .ended q hbounded (by simpa using hconserves) heffect.eq_nil_of_empty
  · exact .took q item hbounded (by simpa using hconserves.symm)

theorem PopStep.inv (hstep : PopStep topic s t) (h : Inv s) : Inv t := by
  cases hstep with
  | within q popper hbounded hpopper =>
    exact ⟨bounded_update h hbounded, by simpa [DrainOk] using hpopper⟩
  | ended q hbounded => exact ⟨bounded_update h hbounded, drainOk_afterLoop _⟩
  | took q item hbounded => exact ⟨bounded_update h hbounded, trivial⟩

theorem inFlight_afterLoop (hdrain : t.drain = .afterLoop topic) (topic' : Topic) :
    inFlight topic' t = [] := by
  cases topic <;> simp [inFlight, hdrain, Drain.afterLoop, Topic.next]

/-- A topic other than that of the pop keeps its queue. -/
theorem PopStep.queued_of_ne (hstep : PopStep topic s t) {topic' : Topic} (h : topic' ≠ topic) :
    queued topic' t = queued topic' s := by
  cases hstep <;> simp [queued, h]

theorem PopStep.moves (hstep : PopStep topic s t) (hidle : ∀ topic', inFlight topic' s = [])
    (topic' : Topic) : Moves topic' s t [] := by
  by_cases htopic : topic = topic'
  · subst htopic
    cases hstep with
    | within q popper _ _ hqueued =>
      exact .of_eq (by rw [hidle]; rfl) (by simpa [queued] using hqueued) rfl rfl
    | ended q _ hqueued =>
      exact .of_eq (by rw [hidle, inFlight_afterLoop rfl]) (by simpa [queued] using hqueued) rfl rfl
    | took q item _ hqueued =>
      refine ⟨[], ?_, rfl⟩
      rw [hidle, hqueued]
      simp [inFlight, queued, accepted]
  · have hqueued := hstep.queued_of_ne (Ne.symm htopic)
    cases hstep with
    | within => exact .of_eq (by rw [hidle]; rfl) hqueued rfl rfl
    | ended => exact .of_eq (by rw [hidle, inFlight_afterLoop rfl]) hqueued rfl rfl
    | took =>
      refine .of_eq ?_ hqueued rfl rfl
      rw [hidle]
      simp [inFlight, onTopic_of_ne htopic]

@[simp] theorem accepted_map_feedback (os : List ObdFeedback.Output) :
    accepted topic (os.map .feedback) = [] := by
  simp [accepted]

@[simp] theorem published_map_feedback (os : List ObdFeedback.Output) :
    published topic (os.map .feedback) = [] := by
  simp [published]

@[simp] theorem refused_map_feedback (os : List ObdFeedback.Output) :
    refused (os.map .feedback) = 0 := by
  simp [refused]

theorem drainStep_inv (h : Inv s) (now : Time) : Inv (drainStep node s now).1 := by
  cases hdrain : s.drain with
  | popping topic popper =>
    simpa only [drainStep, hdrain] using (popStep_spec h hdrain).inv h
  | publishing topic item =>
    simp only [drainStep, hdrain]
    exact ⟨h.bounded, drainOk_afterPublish _ item⟩
  | comparingDrops drops =>
    simp only [drainStep, hdrain]
    split <;> exact ⟨h.bounded, trivial⟩
  | idle | loggingFault | processing | checkingStaleness | loadingDrops =>
    simp only [drainStep, hdrain]
    exact ⟨h.bounded, trivial⟩

/-- A publication takes the item in flight away. -/
theorem moves_publishing {topic' : Topic} {item : Item topic'}
    (hdrain : s.drain = .publishing topic' item) (topic : Topic) :
    Moves topic s { s with drain := .afterPublish topic' item }
      [.published topic' (toMessage topic' item)] := by
  have hafter : inFlight topic { s with drain := .afterPublish topic' item } = [] := by
    cases topic' <;> rfl
  by_cases htopic : topic' = topic
  · subst htopic
    refine ⟨[item], ?_, by simp [published]⟩
    rw [hafter]
    simp [inFlight, hdrain, accepted, queued]
  · refine .of_eq ?_ rfl rfl (by simp [published, onTopic_of_ne htopic])
    rw [hafter]
    simp [inFlight, hdrain, onTopic_of_ne htopic]

theorem drainStep_moves (h : Inv s) (now : Time) (topic : Topic) :
    Moves topic s (drainStep node s now).1 (drainStep node s now).2 := by
  have hidle (hdrain : ∀ topic' item, s.drain ≠ .publishing topic' item) (topic' : Topic) :
      inFlight topic' s = [] := by
    unfold inFlight
    split
    · exact absurd ‹_› (hdrain _ _)
    · rfl
  cases hdrain : s.drain with
  | popping topic' popper =>
    have hempty := hidle (by simp [hdrain])
    simpa only [drainStep, hdrain] using (popStep_spec h hdrain).moves hempty topic
  | publishing topic' item =>
    simpa only [drainStep, hdrain] using moves_publishing hdrain topic
  | comparingDrops drops =>
    simp only [drainStep, hdrain]
    split <;> exact .of_eq (by simp [inFlight, hdrain]) rfl rfl rfl
  | processing | checkingStaleness =>
    simp only [drainStep, hdrain]
    exact .of_eq (by simp [inFlight, hdrain]) rfl (accepted_map_feedback _)
      (published_map_feedback _)
  | idle | loggingFault | loadingDrops =>
    simp only [drainStep, hdrain]
    exact .of_eq (by simp [inFlight, hdrain]) rfl rfl rfl

/-- A step of `drain` takes in no report. -/
theorem drainStep_quiet (node : ObdFeedback.Node) (s : State) (now : Time) :
    (∀ topic, accepted topic (drainStep node s now).2 = []) ∧
      refused (drainStep node s now).2 = 0 ∧ (drainStep node s now).1.dropped = s.dropped := by
  cases hdrain : s.drain with
  | comparingDrops drops =>
    simp only [drainStep, hdrain]
    split <;> exact ⟨fun _ => rfl, rfl, rfl⟩
  | processing | checkingStaleness => simp [drainStep, hdrain]
  | idle | popping | publishing | loggingFault | loadingDrops =>
    simp [drainStep, hdrain, accepted, refused, popStep]

/-! ## Accounting -/

theorem sum_length_onTopic {F : Topic → Type} {topic' : Topic} (x : F topic') :
    ∑ topic, (onTopic topic x).toList.length = 1 := by
  rw [Finset.sum_eq_single topic']
  · simp
  · intro topic _ htopic
    simp [onTopic_of_ne (Ne.symm htopic)]
  · simp

theorem report_callback {topic' : Topic} (data : Report topic') (clock : Timespec) :
    (Event.callback topic' (some data) clock).report topic =
      onTopic topic (F := Item) ⟨data, clock⟩ := by
  by_cases htopic : topic' = topic
  · subst htopic
    simp [Event.report]
  · simp [Event.report, onTopic_of_ne htopic]

/-- `enqueue` of a non-null report accepts it, or refuses and counts it. -/
theorem enqueue_accounts (s : State) {topic' : Topic} (data : Report topic') (clock : Timespec) :
    let r := enqueue s topic' (some data) clock
    ((∀ topic, accepted topic r.2 = (onTopic topic (F := Item) ⟨data, clock⟩).toList) ∧
        refused r.2 = 0 ∧ r.1.dropped = s.dropped) ∨
      ((∀ topic, accepted topic r.2 = []) ∧ refused r.2 = 1 ∧ r.1.dropped = s.dropped + 1) := by
  intro r
  cases hok : ((s.queues topic').push ⟨data, clock⟩).2 with
  | true =>
    refine .inl ⟨?_, ?_, ?_⟩
    · intro topic
      cases h : onTopic topic (F := Item) ⟨data, clock⟩ <;> simp [r, enqueue, hok, accepted, h]
    · simp [r, enqueue, hok, refused]
    · simp [r, enqueue, hok]
  | false =>
    refine .inr ⟨?_, ?_, ?_⟩
    · intro topic
      simp [r, enqueue, hok, accepted]
    · simp [r, enqueue, hok, refused]
    · simp [r, enqueue, hok]

/-- Every report that an event delivers is accepted or refused, and the counter counts the
refused ones. -/
theorem step_accounts (node : ObdFeedback.Node) (s : State) (e : Event) :
    (∀ topic, (accepted topic ((osccToRos node).emit s e)).Sublist (e.report topic).toList) ∧
      ∑ topic, (e.report topic).toList.length =
        ∑ topic, (accepted topic ((osccToRos node).emit s e)).length +
          refused ((osccToRos node).emit s e) ∧
      ((osccToRos node).next s e).dropped =
        s.dropped + BitVec.ofNat 64 (refused ((osccToRos node).emit s e)) := by
  cases e with
  | drain now =>
    obtain ⟨haccepted, hrefused, hdropped⟩ := drainStep_quiet node s now
    have hemit : (osccToRos node).emit s (.drain now) = (drainStep node s now).2 := rfl
    have hnext : (osccToRos node).next s (.drain now) = (drainStep node s now).1 := rfl
    simp [hemit, hnext, haccepted, hrefused, hdropped, Event.report]
  | callback topic' report clock =>
    have hemit : (osccToRos node).emit s (.callback topic' report clock) =
      (enqueue s topic' report clock).2 := rfl
    have hnext : (osccToRos node).next s (.callback topic' report clock) =
      (enqueue s topic' report clock).1 := rfl
    rw [hemit, hnext]
    cases report with
    | none => simp [enqueue, accepted, refused, Event.report]
    | some data =>
      simp only [report_callback, sum_length_onTopic]
      rcases enqueue_accounts s data clock with
        ⟨haccepted, hrefused, hdropped⟩ | ⟨haccepted, hrefused, hdropped⟩
      · simp [haccepted, hrefused, hdropped, sum_length_onTopic]
      · simp [haccepted, hrefused, hdropped]

/-! ## Runs -/

theorem inv_init (node : ObdFeedback.Node) : Inv (osccToRos node).init :=
  ⟨fun topic => bounded_empty (by cases topic <;> decide), trivial⟩

/-- One event keeps the invariant and moves every topic. -/
theorem step_spec (node : ObdFeedback.Node) (h : Inv s) (e : Event) :
    Inv ((osccToRos node).next s e) ∧
      ∀ topic, Moves topic s ((osccToRos node).next s e) ((osccToRos node).emit s e) := by
  cases e with
  | callback topic' report clock => exact ⟨enqueue_inv h report clock, enqueue_moves h report clock⟩
  | drain now => exact ⟨drainStep_inv h now, drainStep_moves h now⟩

theorem inv_state (node : ObdFeedback.Node) (es : List Event) : Inv ((osccToRos node).state es) :=
  (osccToRos node).invariant (inv_init node) (fun _ e h => (step_spec node h e).1) es

theorem inv_stateFrom (node : ObdFeedback.Node) (h : Inv s) (es : List Event) :
    Inv ((osccToRos node).stateFrom s es) :=
  (osccToRos node).invariant_from (I := Inv) (fun _ e h => (step_spec node h e).1) h es

/-- What a run does to one topic. -/
theorem moves_run (node : ObdFeedback.Node) (h : Inv s) (es : List Event) (topic : Topic) :
    Moves topic s ((osccToRos node).stateFrom s es) ((osccToRos node).traceFrom s es) := by
  induction es generalizing s with
  | nil => exact .of_eq rfl rfl rfl rfl
  | cons e es ih =>
    obtain ⟨hinv, hmoves⟩ := step_spec node h e
    exact (hmoves topic).trans (ih hinv)

/-- The accepted reports of a topic are those published, in flight and queued. -/
theorem accepted_eq (node : ObdFeedback.Node) (es : List Event) (topic : Topic) :
    ∃ done, accepted topic ((osccToRos node).trace es) =
        done ++ inFlight topic ((osccToRos node).state es) ++
          queued topic ((osccToRos node).state es) ∧
      published topic ((osccToRos node).trace es) = done.map (toMessage topic) := by
  have hinit : inFlight topic (osccToRos node).init ++ queued topic (osccToRos node).init = [] :=
    by simp [queued, inFlight, osccToRos]
  have hmoves := moves_run node (inv_init node) es topic
  rwa [Moves, hinit] at hmoves

/-- What was accepted was delivered, in the same order. -/
theorem accepted_sublist (node : ObdFeedback.Node) (es : List Event) (topic : Topic) :
    (accepted topic ((osccToRos node).trace es)).Sublist (reports topic es) := by
  induction es using List.reverseRecOn with
  | nil => exact List.Sublist.refl _
  | append_singleton es e ih =>
    rw [Machine.trace_snoc, accepted_append, reports_snoc]
    exact ih.append ((step_accounts node _ e).1 topic)

/-- Every delivered report is accepted or counted. -/
theorem reports_accounted (node : ObdFeedback.Node) (es : List Event) :
    ∑ topic, (reports topic es).length =
        ∑ topic, (accepted topic ((osccToRos node).trace es)).length +
          refused ((osccToRos node).trace es) ∧
      ((osccToRos node).state es).dropped =
        BitVec.ofNat 64 (refused ((osccToRos node).trace es)) := by
  refine (osccToRos node).invariant_run
    (I := fun es s => ∑ topic, (reports topic es).length =
        ∑ topic, (accepted topic ((osccToRos node).trace es)).length +
          refused ((osccToRos node).trace es) ∧
      s.dropped = BitVec.ofNat 64 (refused ((osccToRos node).trace es)))
    (by simp [reports, accepted, refused, osccToRos]) ?_ es
  rintro es e ⟨hcount, hdropped⟩
  obtain ⟨-, hstep, hnext⟩ := step_accounts node ((osccToRos node).state es) e
  simp only [reports_snoc, Machine.trace_snoc, accepted_append, refused_append, List.length_append,
    Finset.sum_add_distrib, hcount, hstep, hnext, hdropped, BitVec.ofNat_add, and_true]
  omega

/-- The clock reading of a callback is in range. -/
def Event.ClockOk : Event → Prop
  | .callback _ _ clock => ClockInRange clock
  | .drain _ => True

instance : DecidablePred Event.ClockOk
  | .callback _ _ clock => inferInstanceAs (Decidable (ClockInRange clock))
  | .drain _ => isTrue trivial

theorem clockInRange_of_mem_reports {es : List Event} (hclock : ∀ e ∈ es, e.ClockOk)
    {item : Item topic} (hitem : item ∈ reports topic es) : ClockInRange item.stamp := by
  obtain ⟨e, he, hreport⟩ := List.mem_filterMap.mp hitem
  cases e with
  | drain now => simp [Event.report] at hreport
  | callback topic' report clock =>
    cases report with
    | none => simp [Event.report] at hreport
    | some data =>
      obtain ⟨data', -, rfl⟩ := Option.map_eq_some_iff.mp hreport
      exact hclock _ he

/-- The bridge neither loses, duplicates, reorders nor alters a report without counting it. -/
theorem bridge_conserves_reports (node : ObdFeedback.Node) (es : List Event)
    (hclock : ∀ e ∈ es, e.ClockOk) :
    let s := (osccToRos node).state es
    let out := (osccToRos node).trace es
    (∀ topic, (accepted topic out).Sublist (reports topic es) ∧ (inFlight topic s).length ≤ 1 ∧
      ∃ done, accepted topic out = done ++ inFlight topic s ++ queued topic s ∧
        List.Forall₂ (Carries topic) done (published topic out)) ∧
    ∃ lost, ∑ topic, (reports topic es).length =
        ∑ topic, ((published topic out).length + (inFlight topic s).length +
          (queued topic s).length) + lost ∧
      s.dropped = BitVec.ofNat 64 lost := by
  intro s out
  obtain ⟨hcount, hdropped⟩ := reports_accounted node es
  refine ⟨?_, refused out, ?_, hdropped⟩
  · intro topic
    have hsublist := accepted_sublist node es topic
    obtain ⟨done, haccepted, hpublished⟩ := accepted_eq node es topic
    refine ⟨hsublist, length_inFlight_le, done, haccepted, ?_⟩
    rw [hpublished, List.forall₂_map_right_iff, List.forall₂_same]
    intro item hitem
    apply carries_toMessage
    apply clockInRange_of_mem_reports hclock
    apply hsublist.subset
    rw [haccepted]
    simp [hitem]
  · rw [hcount]
    congr 1
    apply Finset.sum_congr rfl
    intro topic _
    obtain ⟨done, haccepted, hpublished⟩ := accepted_eq node es topic
    have hlength := congrArg List.length haccepted
    have hdone := congrArg List.length hpublished
    simp only [List.length_append, List.length_map] at hlength hdone
    rw [hlength, hdone]

/-- A brake report and an OBD frame that arrive in the middle of the drain's first pop: the
drain publishes the report and leaves the frame in its queue. -/
theorem bridge_conserves_reports_two :
    let node := (ObdFeedback.Node.construct .default).1
    let report : OsccReport := ⟨#v[5, 172], 1, 0, 0, #v[0, 0, 0]⟩
    let frame : ObdFeedback.CanFrame := ⟨0x2B0, 8, Vector.replicate 8 7⟩
    let es : List Event := [.drain 0, .drain 0,
      .callback .brake (some report) ⟨1700000000, 5⟩,
      .callback .obd (some frame) ⟨1700000000, 9⟩,
      .drain 0, .drain 0, .drain 0, .drain 0]
    published .brake ((osccToRos node).trace es) =
        [⟨⟨1700000000, 5⟩, fillReportData report⟩] ∧
      List.Forall₂ (Carries .brake) [⟨report, ⟨1700000000, 5⟩⟩]
        (published .brake ((osccToRos node).trace es)) ∧
      queued .obd ((osccToRos node).state es) = [⟨frame, ⟨1700000000, 9⟩⟩] := by
  intro node report frame es
  have hconserves := (bridge_conserves_reports node es (by decide)).1
  obtain ⟨brakes, hbrakes, hcarries⟩ := (hconserves .brake).2.2
  obtain ⟨frames, hframes, hunsent⟩ := (hconserves .obd).2.2
  have hempty : queued .brake ((osccToRos node).state es) = [] :=
    List.eq_nil_of_length_eq_zero ((length_contents _).trans (by decide))
  have hbrake : accepted .brake ((osccToRos node).trace es) = [⟨report, ⟨1700000000, 5⟩⟩] := rfl
  have hframe : accepted .obd ((osccToRos node).trace es) = [⟨frame, ⟨1700000000, 9⟩⟩] := rfl
  have hflight : inFlight .brake ((osccToRos node).state es) = [] := rfl
  have hflight' : inFlight .obd ((osccToRos node).state es) = [] := rfl
  obtain rfl : frames = [] := List.forall₂_nil_right_iff.mp hunsent
  rw [hbrake, hflight, hempty, List.append_nil, List.append_nil] at hbrakes
  rw [hframe, hflight', List.nil_append, List.nil_append] at hframes
  rw [← hbrakes] at hcarries
  exact ⟨rfl, hcarries, hframes.symm⟩

end Roscco.OsccToRos
