import Mathlib.Algebra.Order.BigOperators.Group.Finset
import Roscco.OsccToRos.Conservation

/-!
# A drain ends and leaves nothing old behind

The five loops of `drain` run until their queues are empty, and callbacks refill the queues
meanwhile. Every step of a drain is still paid for: by a report that was queued when it
began, by one accepted since, or by the fixed way through five empty loops. A loop that is
left has seen its queue empty, and the drain does not come back to it.

## Main results

* `drain_ends` — the bounds on pops and steps, and what is published and queued at the end.
-/

namespace Roscco.OsccToRos

open Library SignalQueue

variable {node : ObdFeedback.Node} {s : State} {topic : Topic} {e : Event}

/-! ## The way through the loops -/

/-- The loops from this one on. -/
def Topic.loops : Topic → ℕ
  | .brake => 5
  | .steering => 4
  | .throttle => 3
  | .fault => 2
  | .obd => 1

/-- The loops that are not left yet. -/
def Drain.loops : Drain → ℕ
  | .popping topic _ | .publishing topic _ => topic.loops
  | .loggingFault _ => Topic.loops .fault
  | .processing _ _ => Topic.loops .obd
  | .idle | .checkingStaleness | .loadingDrops | .comparingDrops _ => 0

/-- What a pop adds to the way to go. -/
def popperSteps {α : Type} : Popper α → ℕ
  | .idle => 3
  | .loaded _ => 2
  | .checked _ => 1
  | .copied _ _ => 0

/-- The steps to the end of a drain that finds no more reports, up to the six of the report
whose pop is under way. -/
def Drain.stepsToGo : Drain → ℕ
  | .idle => 0
  | .popping topic popper => 2 * topic.loops + popperSteps popper
  | .publishing topic _ => 2 * topic.loops + 5
  | .loggingFault _ => 8
  | .processing _ _ => 6
  | .checkingStaleness => 3
  | .loadingDrops => 2
  | .comparingDrops _ => 1

instance (drain : Drain) : Decidable (drain = .idle) :=
  match drain with
  | .idle => isTrue rfl
  | .popping _ _ | .publishing _ _ | .loggingFault _ | .processing _ _ | .checkingStaleness
  | .loadingDrops | .comparingDrops _ => isFalse nofun

/-- What a pop returns to its loop condition in the next step of `drain`, and on which
topic. -/
def Drain.popReturns (queues : (topic : Topic) → SignalQueue (Item topic) (depth topic)) :
    Drain → Option (Topic × Bool)
  | .popping topic popper =>
    match (SignalQueue.popStep (queues topic) popper).2.2 with
    | .popped _ :: _ => some (topic, true)
    | .empty :: _ => some (topic, false)
    | _ => none
  | .idle | .publishing _ _ | .loggingFault _ | .processing _ _ | .checkingStaleness
  | .loadingDrops | .comparingDrops _ => none

/-- What a pop returns in this event. -/
def Event.popReturns (s : State) : Event → Option (Topic × Bool)
  | .callback _ _ _ => none
  | .drain _ => s.drain.popReturns s.queues

/-- The successful pops of an event. -/
def pops (s : State) (e : Event) : ℕ := if (e.popReturns s).any (·.2) then 1 else 0

/-- The steps of `drain` in an event. -/
def drainSteps (_ : State) : Event → ℕ
  | .callback _ _ _ => 0
  | .drain _ => 1

/-- The reports of any kind that an event accepts. -/
def arrivals (node : ObdFeedback.Node) (s : State) (e : Event) : ℕ :=
  ∑ topic, (accepted topic ((osccToRos node).emit s e)).length

/-- All queued reports. -/
def backlog (s : State) : ℕ := ∑ topic, (queued topic s).length

/-- Five full queues. -/
theorem backlog_le (h : Inv s) : backlog s ≤ 63 * 4 + 255 := by
  have hsize (topic : Topic) : (queued topic s).length < depth topic := by
    rw [queued, length_contents]
    exact size_lt (h.bounded topic)
  calc backlog s ≤ ∑ topic, (depth topic - 1) :=
        Finset.sum_le_sum fun topic _ => Nat.le_sub_one_of_lt (hsize topic)
    _ = 63 * 4 + 255 := by decide

theorem stepsToGo_afterLoop (topic : Topic) :
    (Drain.afterLoop topic).stepsToGo = 2 * topic.loops + 1 := by
  cases topic <;> rfl

theorem loops_afterLoop (topic : Topic) : (Drain.afterLoop topic).loops + 1 = topic.loops := by
  cases topic <;> rfl

theorem stepsToGo_afterPublish (item : Item topic) :
    (Drain.afterPublish topic item).stepsToGo + 1 ≤ 2 * topic.loops + 5 := by
  cases topic <;> simp [Drain.afterPublish, Drain.stepsToGo, popperSteps, Topic.loops]

theorem loops_afterPublish (item : Item topic) :
    (Drain.afterPublish topic item).loops = topic.loops := by
  cases topic <;> rfl

/-! ## One step -/

/-- One step of a pop goes on, returns false on an empty queue, or returns true and takes
the oldest report. -/
theorem popStep_returns (h : Inv s) {popper : Popper (Item topic)}
    (hdrain : s.drain = .popping topic popper) :
    (s.drain.popReturns s.queues = none ∧ queued topic (popStep s topic popper) = queued topic s ∧
        ∃ popper', (popStep s topic popper).drain = .popping topic popper' ∧
          popperSteps popper' + 1 = popperSteps popper) ∨
      (s.drain.popReturns s.queues = some (topic, false) ∧ queued topic s = [] ∧
        queued topic (popStep s topic popper) = [] ∧
        (popStep s topic popper).drain = .afterLoop topic ∧ popperSteps popper = 2) ∨
      (s.drain.popReturns s.queues = some (topic, true) ∧ ∃ item,
        queued topic s = item :: queued topic (popStep s topic popper) ∧
        (popStep s topic popper).drain = .publishing topic item ∧ popperSteps popper = 0) := by
  have hok : PopperOk (s.queues topic) popper := by
    simpa [DrainOk, hdrain] using h.drain
  obtain ⟨-, -, -, heffect⟩ :=
    SignalQueue.popStep_spec (p := .idle) (h.bounded topic) trivial hok
  cases popper with
  | idle =>
    exact .inl ⟨by rw [hdrain]; rfl, by simp [queued, popStep, SignalQueue.popStep],
      .loaded (s.queues topic).tail, rfl, rfl⟩
  | loaded tail =>
    by_cases hempty : tail = (s.queues topic).head
    · simp only [SignalQueue.popStep, hempty, if_true] at heffect
      have hnil : queued topic s = [] := heffect.eq_nil_of_empty
      refine .inr (.inl ⟨?_, hnil, ?_, ?_, rfl⟩)
      · simp [hdrain, Drain.popReturns, SignalQueue.popStep, hempty]
      · simpa [queued, popStep, SignalQueue.popStep, hempty] using hnil
      · simp [popStep, SignalQueue.popStep, hempty]
    · refine .inl ⟨?_, ?_, .checked tail, ?_, rfl⟩
      · simp [hdrain, Drain.popReturns, SignalQueue.popStep, hempty]
      · simp [queued, popStep, SignalQueue.popStep, hempty]
      · simp [popStep, SignalQueue.popStep, hempty]
  | checked tail =>
    exact .inl ⟨by rw [hdrain]; rfl, by simp [queued, popStep, SignalQueue.popStep],
      .copied tail (s.queues topic).buffer[tail]!, rfl, rfl⟩
  | copied tail item =>
    refine .inr (.inr ⟨by rw [hdrain]; rfl, item, ?_, rfl, rfl⟩)
    have hconserves := heffect.conserves
    simpa [queued, popStep, SignalQueue.popStep] using hconserves.symm

/-- The topic of a returning pop is the topic of its loop. -/
theorem popReturns_popping (queues : (topic : Topic) → SignalQueue (Item topic) (depth topic))
    {topic' : Topic} {ok : Bool} {popper : Popper (Item topic)}
    (h : (Drain.popping topic popper).popReturns queues = some (topic', ok)) : topic' = topic := by
  simp only [Drain.popReturns] at h
  split at h <;> simp_all

/-- A pop that returns is in the loop of its topic. -/
theorem popping_of_popReturns {ok : Bool} (h : e.popReturns s = some (topic, ok)) :
    ∃ popper, s.drain = .popping topic popper := by
  cases e with
  | callback => simp [Event.popReturns] at h
  | drain now =>
    have hreturns : s.drain.popReturns s.queues = some (topic, ok) := h
    cases hdrain : s.drain with
    | popping topic' popper =>
      rw [hdrain] at hreturns
      obtain rfl := popReturns_popping s.queues hreturns
      exact ⟨popper, rfl⟩
    | idle | publishing | loggingFault | processing | checkingStaleness | loadingDrops
    | comparingDrops => simp [hdrain, Drain.popReturns] at hreturns

/-- A callback only adds to a queue what it accepts. -/
theorem queued_enqueue (h : Inv s) {topic' : Topic} (report : Option (Report topic'))
    (clock : Timespec) (topic : Topic) :
    queued topic (enqueue s topic' report clock).1 =
      queued topic s ++ accepted topic (enqueue s topic' report clock).2 := by
  obtain ⟨gone, hitems, hpublished⟩ := enqueue_moves h report clock topic
  have hquiet : published topic (enqueue s topic' report clock).2 = [] := by
    cases report with
    | none => rfl
    | some data =>
      simp only [enqueue]
      split <;> rfl
  have hflight : inFlight topic (enqueue s topic' report clock).1 = inFlight topic s := by
    simp [inFlight]
  obtain rfl : gone = [] := by simpa [hquiet] using hpublished.symm
  rw [hflight, List.nil_append, List.append_assoc] at hitems
  exact (List.append_cancel_left hitems).symm

/-- An event takes the oldest report of a queue in a successful pop, or adds to the queue
what it accepts. -/
theorem queued_next (node : ObdFeedback.Node) (h : Inv s) (e : Event) (topic : Topic) :
    (e.popReturns s = some (topic, true) ∧ accepted topic ((osccToRos node).emit s e) = [] ∧
        ∃ item, queued topic s = item :: queued topic ((osccToRos node).next s e)) ∨
      (e.popReturns s ≠ some (topic, true) ∧ queued topic ((osccToRos node).next s e) =
        queued topic s ++ accepted topic ((osccToRos node).emit s e)) := by
  cases e with
  | callback topic' report clock =>
    exact .inr ⟨by simp [Event.popReturns], queued_enqueue h report clock topic⟩
  | drain now =>
    have haccepted : accepted topic ((osccToRos node).emit s (.drain now)) = [] :=
      (drainStep_quiet node s now).1 topic
    have hnext : (osccToRos node).next s (.drain now) = (drainStep node s now).1 := rfl
    rw [haccepted, hnext, List.append_nil]
    have hreturns : (Event.drain now).popReturns s = s.drain.popReturns s.queues := rfl
    rw [hreturns]
    cases hdrain : s.drain with
    | popping topic' popper =>
      have hstep : (drainStep node s now).1 = popStep s topic' popper := by
        simp only [drainStep, hdrain]
      rw [hstep, ← hdrain]
      by_cases htopic : topic = topic'
      · subst htopic
        rcases popStep_returns h hdrain with
          ⟨hnone, hsame, -⟩ | ⟨hfalse, hnil, hnil', -⟩ | ⟨htrue, item, hitem, -⟩
        · exact .inr ⟨by simp [hnone], hsame⟩
        · exact .inr ⟨by simp [hfalse], hnil'.trans hnil.symm⟩
        · exact .inl ⟨htrue, rfl, item, hitem⟩
      · refine .inr ⟨?_, (popStep_spec h hdrain).queued_of_ne htopic⟩
        rw [hdrain]
        exact fun hpop => htopic (popReturns_popping s.queues hpop)
    | comparingDrops drops =>
      simp only [drainStep, hdrain]
      exact .inr ⟨by simp [Drain.popReturns], by split <;> rfl⟩
    | idle | publishing | loggingFault | processing | checkingStaleness | loadingDrops =>
      simp only [drainStep, hdrain]
      exact .inr ⟨by simp [Drain.popReturns], rfl⟩

/-- A queue that a pop has found empty is empty after the pop. -/
theorem queued_next_of_returns_false (node : ObdFeedback.Node) (h : Inv s)
    (hpop : e.popReturns s = some (topic, false)) :
    queued topic ((osccToRos node).next s e) = [] := by
  obtain ⟨popper, hdrain⟩ := popping_of_popReturns hpop
  cases e with
  | callback => simp [Event.popReturns] at hpop
  | drain now =>
    have hstep : (osccToRos node).next s (.drain now) = popStep s topic popper := by
      simp [Machine.next, osccToRos, step, drainStep, hdrain]
    rw [hstep]
    rcases popStep_returns h hdrain with ⟨hnone, -⟩ | ⟨-, -, hnil, -⟩ | ⟨htrue, -⟩
    · simpa using hpop.symm.trans hnone
    · exact hnil
    · simpa using hpop.symm.trans htrue

/-- Successful pops and what is still queued make up for what was queued and has arrived. -/
theorem pops_add_backlog (node : ObdFeedback.Node) (h : Inv s) (e : Event) :
    pops s e + backlog ((osccToRos node).next s e) = backlog s + arrivals node s e := by
  have hpops : pops s e = ∑ topic, if e.popReturns s = some (topic, true) then 1 else 0 := by
    rw [pops]
    rcases e.popReturns s with _ | ⟨topic, _ | _⟩ <;> simp
  rw [hpops, backlog, backlog, arrivals, ← Finset.sum_add_distrib, ← Finset.sum_add_distrib]
  apply Finset.sum_congr rfl
  intro topic _
  rcases queued_next node h e topic with ⟨hpop, haccepted, item, hitem⟩ | ⟨hpop, hadded⟩
  · rw [if_pos hpop, hitem, haccepted]
    simp [Nat.add_comm]
  · rw [if_neg hpop, hadded]
    simp

/-- A step of a drain that is under way costs one of the steps to go, or pops a report and
gets six more; it stays in its loop or leaves it, for the next one, after a pop that
returned false. -/
theorem drainStep_place (node : ObdFeedback.Node) (h : Inv s) (hs : s.drain ≠ .idle) (now : Time) :
    (drainStep node s now).1.drain.stepsToGo + 1 ≤
        s.drain.stepsToGo + 6 * pops s (.drain now) ∧
      ((drainStep node s now).1.drain.loops = s.drain.loops ∨
        ∃ topic, (Event.drain now).popReturns s = some (topic, false) ∧ queued topic s = [] ∧
          s.drain.loops = topic.loops ∧
          (drainStep node s now).1.drain.loops + 1 = topic.loops) := by
  have hreturns : (Event.drain now).popReturns s = s.drain.popReturns s.queues := rfl
  cases hdrain : s.drain with
  | idle => exact absurd hdrain hs
  | popping topic popper =>
    have hstep : (drainStep node s now).1 = popStep s topic popper := by
      simp only [drainStep, hdrain]
    rw [hstep]
    rcases popStep_returns h hdrain with ⟨hnone, -, popper', hnext, hsteps⟩ |
      ⟨hfalse, hnil, -, hnext, hsteps⟩ | ⟨htrue, item, -, hnext, hsteps⟩
    · refine ⟨?_, .inl (by rw [hnext]; rfl)⟩
      rw [hnext]
      simp only [Drain.stepsToGo]
      omega
    · refine ⟨?_, .inr ⟨topic, hreturns.trans hfalse, hnil, rfl, ?_⟩⟩
      · rw [hnext, stepsToGo_afterLoop]
        simp only [Drain.stepsToGo, hsteps]
        omega
      · rw [hnext, loops_afterLoop]
    · have hpop : pops s (.drain now) = 1 := by
        simp [pops, hreturns, htrue]
      refine ⟨?_, .inl (by rw [hnext]; rfl)⟩
      rw [hnext, hpop]
      simp only [Drain.stepsToGo]
      omega
  | publishing topic item =>
    simp only [drainStep, hdrain]
    exact ⟨Nat.le_add_right_of_le (stepsToGo_afterPublish item), .inl (loops_afterPublish item)⟩
  | comparingDrops drops =>
    simp only [drainStep, hdrain]
    split <;> exact ⟨Nat.le_add_right _ _, .inl rfl⟩
  | loggingFault | processing | checkingStaleness | loadingDrops =>
    simp only [drainStep, hdrain]
    exact ⟨Nat.le_add_right _ _, .inl rfl⟩

/-- What the steps of an event cost, against what its arrivals earn. -/
theorem drainSteps_paid (node : ObdFeedback.Node) (h : Inv s) (hs : s.drain ≠ .idle) (e : Event) :
    drainSteps s e + (((osccToRos node).next s e).drain.stepsToGo +
        6 * backlog ((osccToRos node).next s e)) ≤
      s.drain.stepsToGo + 6 * backlog s + 6 * arrivals node s e := by
  have hbacklog := pops_add_backlog node h e
  have hplace : drainSteps s e + ((osccToRos node).next s e).drain.stepsToGo ≤
      s.drain.stepsToGo + 6 * pops s e := by
    cases e with
    | callback topic report clock =>
      have hdrain : ((osccToRos node).next s (.callback topic report clock)).drain = s.drain :=
        enqueue_drain s report clock
      simp [hdrain, drainSteps]
    | drain now =>
      have hstep := (drainStep_place node h hs now).1
      have hnext : (osccToRos node).next s (.drain now) = (drainStep node s now).1 := rfl
      rw [hnext]
      simp only [drainSteps]
      omega
  omega

/-- A drain under way leaves a loop only when the pop has returned false. -/
theorem loops_next (node : ObdFeedback.Node) (h : Inv s) (hs : s.drain ≠ .idle) (e : Event) :
    ((osccToRos node).next s e).drain.loops = s.drain.loops ∨
      ∃ topic, e.popReturns s = some (topic, false) ∧ queued topic s = [] ∧
        s.drain.loops = topic.loops ∧
        ((osccToRos node).next s e).drain.loops + 1 = topic.loops := by
  cases e with
  | callback topic report clock =>
    exact .inl (congrArg Drain.loops (enqueue_drain s report clock))
  | drain now => exact (drainStep_place node h hs now).2

/-! ## A whole drain -/

/-- The events of a drain: it is under way before each of them. -/
def UnderWay (node : ObdFeedback.Node) (s : State) (es : List Event) : Prop :=
  Historically (fun past _ => ((osccToRos node).stateFrom s past).drain ≠ .idle) es

instance (node : ObdFeedback.Node) (s : State) (es : List Event) :
    Decidable (UnderWay node s es) := inferInstanceAs (Decidable (Historically _ _))

theorem cost_arrivals (node : ObdFeedback.Node) (s : State) (es : List Event) :
    (osccToRos node).cost (arrivals node) s es =
      ∑ topic, (accepted topic ((osccToRos node).traceFrom s es)).length := by
  induction es generalizing s with
  | nil => rfl
  | cons e es ih => simp [Machine.cost, ih, arrivals, Finset.sum_add_distrib]

theorem Topic.loops_injective : Function.Injective Topic.loops := by
  intro topic topic'
  cases topic <;> cases topic' <;> decide

/-- Behind its loop, a topic only collects what is accepted. -/
theorem queued_behind (h : Inv s) {es : List Event} (hrun : UnderWay node s es)
    (hbehind : s.drain.loops < topic.loops) :
    queued topic ((osccToRos node).stateFrom s es) =
      queued topic s ++ accepted topic ((osccToRos node).traceFrom s es) := by
  induction es generalizing s with
  | nil => simp [accepted]
  | cons e es ih =>
    obtain ⟨hs, hrest⟩ := historically_cons.mp hrun
    have hle : ((osccToRos node).next s e).drain.loops ≤ s.drain.loops := by
      rcases loops_next node h hs e with heq | ⟨topic', -, -, heq, hnext⟩ <;> omega
    have hadded : queued topic ((osccToRos node).next s e) =
        queued topic s ++ accepted topic ((osccToRos node).emit s e) := by
      rcases queued_next node h e topic with ⟨hpop, -⟩ | ⟨-, hadded⟩
      · obtain ⟨popper, hdrain⟩ := popping_of_popReturns hpop
        simp [hdrain, Drain.loops] at hbehind
      · exact hadded
    rw [Machine.stateFrom_cons, ih (step_spec node h e).1 hrest (hle.trans_lt hbehind), hadded]
    simp

/-- The successful pops of a run are of reports that were queued or have arrived. -/
theorem cost_pops_le (node : ObdFeedback.Node) (h : Inv s) (es : List Event) :
    (osccToRos node).cost pops s es ≤
      63 * 4 + 255 + ∑ topic, (accepted topic ((osccToRos node).traceFrom s es)).length := by
  have hpaid := (osccToRos node).cost_add_le pops (arrivals node) backlog (C := Inv)
    (fun _ e h => (pops_add_backlog node h e).le) (s := s)
    fun past (e : Event) (_ : past ++ [e] <+: es) => inv_stateFrom node h past
  have hfull := backlog_le h
  rw [cost_arrivals] at hpaid
  omega

/-- A drain under way has taken a bounded number of steps. -/
theorem cost_drainSteps_le (node : ObdFeedback.Node) (h : Inv s) {es : List Event}
    (hrun : UnderWay node s es) :
    (osccToRos node).cost drainSteps s es ≤ s.drain.stepsToGo + 6 * (63 * 4 + 255 +
      ∑ topic, (accepted topic ((osccToRos node).traceFrom s es)).length) := by
  have hpaid := (osccToRos node).cost_add_le drainSteps (fun s e => 6 * arrivals node s e)
    (fun s => s.drain.stepsToGo + 6 * backlog s) (C := fun s => Inv s ∧ s.drain ≠ .idle)
    (fun _ e h => drainSteps_paid node h.1 h.2 e)
    fun past e hp => ⟨inv_stateFrom node h past, hrun past e hp⟩
  have hfull := backlog_le h
  rw [Machine.cost_mul, cost_arrivals] at hpaid
  omega

/-- A drain that gets through the loop of a topic publishes what was queued there, finds the
queue empty and leaves there what is accepted from then on. -/
theorem loop_ends (h : Inv s) {es : List Event} (hrun : UnderWay node s es)
    (hflight : inFlight topic s = []) (hahead : topic.loops ≤ s.drain.loops)
    (hbehind : ((osccToRos node).stateFrom s es).drain.loops < topic.loops) :
    (queued topic s).map (toMessage topic) <+:
        published topic ((osccToRos node).traceFrom s es) ∧
      ∃ before e after, es = before ++ e :: after ∧
        e.popReturns ((osccToRos node).stateFrom s before) = some (topic, false) ∧
        queued topic ((osccToRos node).stateFrom s before) = [] ∧
        queued topic ((osccToRos node).stateFrom s es) = accepted topic
          ((osccToRos node).traceFrom ((osccToRos node).stateFrom s (before ++ [e])) after) := by
  obtain ⟨before, e, after, rfl, hbefore, hcross⟩ := (osccToRos node).exists_crossing
    (P := fun s => s.drain.loops < topic.loops) (not_lt.mpr hahead) hbehind
  have hmid : Inv ((osccToRos node).stateFrom s before) := inv_stateFrom node h before
  obtain ⟨-, hmore⟩ := historically_append.mp hrun
  obtain ⟨hnow, hafter⟩ := historically_cons.mp hmore
  rw [List.append_nil] at hnow
  -- The step that leaves the loop is a pop of this topic that returns false.
  obtain ⟨topic', hpop, hnil, hloops, hnext⟩ :=
    (loops_next node hmid hnow e).resolve_left (by omega)
  obtain rfl : topic' = topic := Topic.loops_injective (by omega)
  refine ⟨?_, before, e, after, rfl, hpop, hnil, ?_⟩
  · obtain ⟨popper, hdrain⟩ := popping_of_popReturns hpop
    obtain ⟨gone, hitems, hpublished⟩ := moves_run node h before topic'
    have hflight' : inFlight topic' ((osccToRos node).stateFrom s before) = [] := by
      simp [inFlight, hdrain]
    rw [hflight, hflight', hnil, List.nil_append, List.append_nil, List.append_nil] at hitems
    rw [Machine.traceFrom_append, published_append, hpublished, ← hitems, List.map_append,
      List.append_assoc]
    exact List.prefix_append _ _
  · have hleft := queued_next_of_returns_false node hmid hpop
    have hunder : UnderWay node ((osccToRos node).next ((osccToRos node).stateFrom s before) e)
        after := fun past x hp => by simpa using hafter past x hp
    have hrest := queued_behind (step_spec node hmid e).1 hunder hcross
    rw [hleft, List.nil_append] at hrest
    simpa using hrest

/-- A drain ends and leaves nothing old behind. Say that it begins between two drains, and
that `k` reports are accepted in the meantime. It pops at most `k` reports more than five
full queues hold, it is under way for a bounded number of steps only, and at its end each
topic has published what was queued when it began and holds only what was accepted after a
pop of this drain found its queue empty. -/
theorem drain_ends (node : ObdFeedback.Node) (h : Inv s) (hidle : s.drain = .idle) (now : Time)
    (es : List Event) :
    let start := (osccToRos node).next s (.drain now)
    let stop := (osccToRos node).stateFrom start es
    let out := (osccToRos node).traceFrom start es
    let k := ∑ topic, (accepted topic out).length
    (osccToRos node).cost pops start es ≤ 63 * 4 + 255 + k ∧
    (6 * (63 * 4 + 255 + k) + 13 < (osccToRos node).cost drainSteps start es →
      ∃ past, past <+: es ∧ UnderWay node start past ∧
        ((osccToRos node).stateFrom start past).drain = .idle) ∧
    (UnderWay node start es → stop.drain = .idle → ∀ topic,
      (queued topic s).map (toMessage topic) <+: published topic out ∧
      ∃ before e after, es = before ++ e :: after ∧
        e.popReturns ((osccToRos node).stateFrom start before) = some (topic, false) ∧
        queued topic ((osccToRos node).stateFrom start before) = [] ∧
        queued topic stop = accepted topic ((osccToRos node).traceFrom
          ((osccToRos node).stateFrom start (before ++ [e])) after)) := by
  intro start stop out k
  have hstart : start = { s with drain := .popping .brake .idle } := by
    simp [start, Machine.next, osccToRos, step, drainStep, hidle]
  have hinv : Inv start := (step_spec node h (.drain now)).1
  refine ⟨cost_pops_le node hinv es, ?_, ?_⟩
  · intro hsteps
    rcases (osccToRos node).exists_first (fun s => s.drain = .idle) start es with hrun | hended
    · have hle : _ ≤ start.drain.stepsToGo + 6 * (63 * 4 + 255 + k) :=
        cost_drainSteps_le node hinv hrun
      have htogo : start.drain.stepsToGo = 13 := by rw [hstart]; rfl
      omega
    · exact hended
  · intro hrun hstop topic
    have hqueued : queued topic s = queued topic start := by
      rw [hstart]
      rfl
    rw [hqueued]
    refine loop_ends hinv hrun ?_ ?_ ?_
    · rw [hstart]
      rfl
    · rw [hstart]
      change topic.loops ≤ Topic.loops .brake
      cases topic <;> decide
    · rw [hstop]
      cases topic <;> decide

/-- One brake report is queued when the drain begins, and one arrives behind its loop. -/
theorem drain_ends_refilled :
    let node := (ObdFeedback.Node.construct .default).1
    let report : OsccReport := ⟨#v[5, 172], 1, 0, 0, #v[0, 0, 0]⟩
    let s := (osccToRos node).state [.callback .brake (some report) ⟨1700000000, 5⟩]
    let es : List Event := List.replicate 7 (.drain 0) ++
      .callback .brake (some report) ⟨1700000000, 9⟩ :: List.replicate 11 (.drain 0)
    let start := (osccToRos node).next s (.drain 0)
    (queued .brake s).map (toMessage .brake) <+:
        published .brake ((osccToRos node).traceFrom start es) ∧
      (queued .brake ((osccToRos node).stateFrom start es)).map (·.stamp) =
        [⟨1700000000, 9⟩] := by
  intro node report s es start
  have hends := (drain_ends node (s := s) (inv_state node _) rfl 0 es).2.2
    (by decide +kernel) (by decide +kernel)
  exact ⟨(hends .brake).1, by decide +kernel⟩

end Roscco.OsccToRos
