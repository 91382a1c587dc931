import Roscco.OsccToRos.Draining

/-!
# A drain without interruptions

Between two callbacks `drain` can be read as plain sequential code: five loops over queues that
nobody refills, each running its body for every report, then the staleness check and the
comparison of the drop counter. `plainDrain` is that reading, over queues that are just lists;
the steps of an uninterrupted drain are a run of it.

## Main results

* `drain_eq_plainDrain` — an uninterrupted drain does what its source says when read top down.
-/

namespace Roscco.OsccToRos

open Library SignalQueue

variable {node : ObdFeedback.Node} {s t u : State} {topic : Topic}

/-! ## The plain reading -/

/-- The bridge between two drains, each queue the oldest report first. -/
structure Backlog where
  queues : (topic : Topic) → List (Item topic)
  dropped : BitVec 64
  lastReportedDrops : BitVec 64
  feedback : ObdFeedback.State

def view (s : State) : Backlog where
  queues topic := queued topic s
  dropped := s.dropped
  lastReportedDrops := s.lastReportedDrops
  feedback := s.feedback

/-- One loop may change its own queue and the feedback component. -/
def Backlog.set (b : Backlog) (topic : Topic) (items : List (Item topic))
    (feedback : ObdFeedback.State) : Backlog :=
  { b with queues := Function.update b.queues topic items, feedback }

/-- The body of the loop of a topic. -/
def body (node : ObdFeedback.Node) (feedback : ObdFeedback.State) :
    (topic : Topic) → Item topic → ObdFeedback.State × List Output
  | .brake, item => (feedback, [.published .brake (toMessage .brake item)])
  | .steering, item => (feedback, [.published .steering (toMessage .steering item)])
  | .throttle, item => (feedback, [.published .throttle (toMessage .throttle item)])
  | .fault, item =>
    let report : OsccFaultReport := item.data
    (feedback, [.published .fault (toMessage .fault item),
      .faultLog report.faultOriginId report.dtcs])
  | .obd, item =>
    let (feedback, out) := ObdFeedback.step node feedback
      (.process item.data (Stamp.ofTime (toRosTime item.stamp)).toTime)
    (feedback, .published .obd (toMessage .obd item) :: out.map .feedback)

/-- `while (queue.pop(item)) body(item)`, over the reports that it pops. -/
def loop (node : ObdFeedback.Node) (topic : Topic) :
    ObdFeedback.State → List (Item topic) → ObdFeedback.State × List Output
  | feedback, [] => (feedback, [])
  | feedback, item :: rest =>
    let (feedback, out) := body node feedback topic item
    let (feedback, out') := loop node topic feedback rest
    (feedback, out ++ out')

/-- The loop of a topic. -/
def Backlog.loop (node : ObdFeedback.Node) (topic : Topic) (b : Backlog) :
    Backlog × List Output :=
  let (feedback, out) := OsccToRos.loop node topic b.feedback (b.queues topic)
  (b.set topic [] feedback, out)

/-- The five loops. -/
def Backlog.loops (node : ObdFeedback.Node) (b : Backlog) : Backlog × List Output :=
  let (b, brake) := b.loop node .brake
  let (b, steering) := b.loop node .steering
  let (b, throttle) := b.loop node .throttle
  let (b, fault) := b.loop node .fault
  let (b, obd) := b.loop node .obd
  (b, brake ++ steering ++ throttle ++ fault ++ obd)

/-- `drain`, with the clock readings of the staleness check and of the warning. -/
def plainDrain (node : ObdFeedback.Node) (b : Backlog) (checked warned : Time) :
    Backlog × List Output :=
  let (b, reports) := b.loops node
  let (feedback, stale) := ObdFeedback.step node b.feedback (.checkStaleness checked)
  let warning := if b.dropped ≠ b.lastReportedDrops then [.dropWarning warned b.dropped] else []
  ({ b with feedback, lastReportedDrops := b.dropped },
    reports ++ stale.map .feedback ++ warning)

@[simp] theorem Backlog.set_queues (b : Backlog) (items : List (Item topic))
    (feedback : ObdFeedback.State) :
    (b.set topic items feedback).queues = Function.update b.queues topic items := rfl

@[simp] theorem Backlog.set_feedback (b : Backlog) (items : List (Item topic))
    (feedback : ObdFeedback.State) : (b.set topic items feedback).feedback = feedback := rfl

@[simp] theorem Backlog.set_set (b : Backlog) (items items' : List (Item topic))
    (feedback feedback' : ObdFeedback.State) :
    (b.set topic items feedback).set topic items' feedback' = b.set topic items' feedback' := by
  simp [Backlog.set]

@[simp] theorem Backlog.set_self (b : Backlog) (topic : Topic) :
    b.set topic (b.queues topic) b.feedback = b := by
  simp [Backlog.set]

/-- A loop leaves the other queues alone. -/
theorem Backlog.queues_loop_of_ne {topic' : Topic} (h : topic' ≠ topic) (b : Backlog) :
    (b.loop node topic).1.queues topic' = b.queues topic' :=
  Function.update_of_ne h _ _

/-! ## Uninterrupted steps -/

/-- From `s` the next `n` steps of `drain` lead to `t` and emit `out`, whatever the clock. -/
def Leads (node : ObdFeedback.Node) (s : State) (n : ℕ) (t : State) (out : List Output) : Prop :=
  ∀ nows : List Time, nows.length = n →
    (osccToRos node).stateFrom s (nows.map .drain) = t ∧
      (osccToRos node).traceFrom s (nows.map .drain) = out

theorem Leads.single {out : List Output} (h : ∀ now, drainStep node s now = (t, out)) :
    Leads node s 1 t out := by
  intro nows hlength
  obtain ⟨now, rfl⟩ := List.length_eq_one_iff.mp hlength
  simp [osccToRos, Machine.next, Machine.emit, step, h]

theorem Leads.trans {n m : ℕ} {out out' : List Output} (hst : Leads node s n t out)
    (htu : Leads node t m u out') : Leads node s (n + m) u (out ++ out') := by
  intro nows hlength
  obtain ⟨hstate, htrace⟩ := hst (nows.take n) (by rw [List.length_take]; omega)
  obtain ⟨hstate', htrace'⟩ := htu (nows.drop n) (by rw [List.length_drop]; omega)
  rw [← List.take_append_drop n nows, List.map_append, Machine.stateFrom_append,
    Machine.traceFrom_append, hstate, htrace]
  exact ⟨hstate', by rw [htrace']⟩

theorem Leads.inv {n : ℕ} {out : List Output} (hst : Leads node s n t out) (h : Inv s) :
    Inv t := by
  rw [← (hst (List.replicate n 0) (by simp)).1]
  exact inv_stateFrom node h _

/-! ## One loop -/

theorem view_popStep (popper : Popper (Item topic)) :
    view (popStep s topic popper) =
      (view s).set topic (queued topic (popStep s topic popper)) s.feedback := by
  have hqueues : (view (popStep s topic popper)).queues =
      Function.update (view s).queues topic (queued topic (popStep s topic popper)) := by
    funext topic'
    by_cases htopic : topic' = topic
    · subst htopic
      simp [view]
    · simp [view, htopic, queued, popStep]
  rw [Backlog.set, ← hqueues]
  rfl

theorem drainStep_popping {popper : Popper (Item topic)} (hdrain : s.drain = .popping topic popper)
    (now : Time) : drainStep node s now = (popStep s topic popper, []) := by
  simp only [drainStep, hdrain]

/-- A pop takes the oldest report. -/
theorem pop_item (h : Inv s) {popper : Popper (Item topic)}
    (hdrain : s.drain = .popping topic popper) {item : Item topic} {rest : List (Item topic)}
    (hqueued : queued topic s = item :: rest) :
    ∃ t, Leads node s (popperSteps popper + 1) t [] ∧ t.drain = .publishing topic item ∧
      view t = (view s).set topic rest s.feedback := by
  generalize hsteps : popperSteps popper = steps
  induction steps generalizing s popper with
  | zero =>
    rcases popStep_returns h hdrain with ⟨-, -, popper', -, hnext⟩ | ⟨-, hnil, -⟩ |
      ⟨-, item', hitem, hnext, -⟩
    · omega
    · simp [hqueued] at hnil
    · obtain ⟨rfl, hrest⟩ := List.cons.inj (hqueued.symm.trans hitem)
      refine ⟨_, .single (drainStep_popping hdrain), hnext, ?_⟩
      rw [view_popStep, hrest]
  | succ steps ih =>
    rcases popStep_returns h hdrain with ⟨-, hsame, popper', hnext, hsteps'⟩ | ⟨-, hnil, -⟩ |
      ⟨-, -, -, -, hzero⟩
    · have hfirst : Leads node s 1 (popStep s topic popper) [] :=
        .single (drainStep_popping hdrain)
      obtain ⟨t, hleads, hpublishing, hview⟩ :=
        ih (hfirst.inv h) hnext (hsame.trans hqueued) (by omega)
      refine ⟨t, ?_, hpublishing, ?_⟩
      · rw [Nat.add_comm]
        exact hfirst.trans hleads
      · rw [hview, view_popStep, Backlog.set_set]
        rfl
    · simp [hqueued] at hnil
    · omega

/-- On an empty queue the loop ends. -/
theorem pop_end (h : Inv s) (hdrain : s.drain = .popping topic .idle)
    (hqueued : queued topic s = []) :
    Leads node s 2 { s with drain := .afterLoop topic } [] := by
  have hempty : (s.queues topic).tail = (s.queues topic).head := by
    rw [tail_eq_head_iff (h.bounded topic), ← length_contents, ← queued, hqueued]
    rfl
  have hload : Leads node s 1 { s with drain := .popping topic (.loaded (s.queues topic).tail) } []
      := .single fun now => by
    rw [drainStep_popping hdrain]
    simp [popStep, SignalQueue.popStep]
  have hcheck : Leads node { s with drain := .popping topic (.loaded (s.queues topic).tail) } 1
      { s with drain := .afterLoop topic } [] := .single fun now => by
    rw [drainStep_popping rfl]
    simp [popStep, SignalQueue.popStep, hempty]
  exact hload.trans hcheck

/-- The steps of the body of a loop. -/
def bodySteps : Topic → ℕ
  | .brake | .steering | .throttle => 1
  | .fault | .obd => 2

/-- The body of a loop. -/
theorem body_runs (node : ObdFeedback.Node) {item : Item topic}
    (hdrain : s.drain = .publishing topic item) :
    Leads node s (bodySteps topic) { s with
      feedback := (body node s.feedback topic item).1
      drain := .popping topic .idle } (body node s.feedback topic item).2 := by
  have hpublish : Leads node s 1 { s with drain := .afterPublish topic item }
      [.published topic (toMessage topic item)] := .single fun now => by
    simp only [drainStep, hdrain]
  cases topic with
  | brake | steering | throttle => exact hpublish
  | fault | obd =>
    exact hpublish.trans (.single fun now => rfl)

/-- A loop over a queue that nobody refills. -/
theorem loop_runs (node : ObdFeedback.Node) (h : Inv s) (hdrain : s.drain = .popping topic .idle) :
    ∃ t, Leads node s ((4 + bodySteps topic) * (queued topic s).length + 2) t
        (loop node topic s.feedback (queued topic s)).2 ∧
      t.drain = .afterLoop topic ∧
      view t = (view s).set topic [] (loop node topic s.feedback (queued topic s)).1 := by
  generalize hqueued : queued topic s = items
  induction items generalizing s with
  | nil =>
    refine ⟨_, by simpa [loop] using pop_end h hdrain hqueued, rfl, ?_⟩
    have hself := (view s).set_self topic
    rw [show (view s).queues topic = [] from hqueued] at hself
    exact hself.symm
  | cons item rest ih =>
    obtain ⟨t, hpop, hpublishing, hview⟩ := pop_item h hdrain hqueued
    have hfeedback : t.feedback = s.feedback := congrArg Backlog.feedback hview
    have hrest : queued topic t = rest := by
      have hqueues := congrFun (congrArg Backlog.queues hview) topic
      rwa [Backlog.set_queues, Function.update_self] at hqueues
    have hbody := body_runs node hpublishing
    obtain ⟨u, hloop, hafter, hview'⟩ := ih (hbody.inv (hpop.inv h)) rfl hrest
    refine ⟨u, ?_, hafter, ?_⟩
    · have hall := (hpop.trans hbody).trans hloop
      have hsteps : popperSteps (.idle : Popper (Item topic)) + 1 + bodySteps topic +
          ((4 + bodySteps topic) * rest.length + 2) =
            (4 + bodySteps topic) * (item :: rest).length + 2 := by
        simp only [popperSteps, List.length_cons, Nat.mul_add]
        omega
      rw [hsteps] at hall
      simpa [loop, hfeedback] using hall
    · have hview'' : view { t with
          feedback := (body node t.feedback topic item).1
          drain := .popping topic .idle } =
          (view s).set topic rest (body node t.feedback topic item).1 :=
        congrArg (fun b : Backlog => { b with feedback := (body node t.feedback topic item).1 })
          hview
      rw [hview', hview'', Backlog.set_set, hfeedback]
      rfl

/-! ## The whole drain -/

/-- The steps of an uninterrupted drain before its staleness check: six for a report, seven
where the body has two steps, and the way through five empty loops. -/
def loopsSteps (b : Backlog) : ℕ :=
  11 + ∑ topic, (4 + bodySteps topic) * (b.queues topic).length

/-- One loop of an uninterrupted drain, and then another one. -/
theorem Leads.loop {n : ℕ} {out : List Output} (hst : Leads node s n t out) (h : Inv s)
    (hdrain : t.drain = .popping topic .idle) {b : Backlog} (hview : view t = b) :
    ∃ u, Leads node s (n + ((4 + bodySteps topic) * (b.queues topic).length + 2)) u
        (out ++ (b.loop node topic).2) ∧
      u.drain = .afterLoop topic ∧ view u = (b.loop node topic).1 := by
  subst hview
  obtain ⟨u, hloop, hafter, hview⟩ := loop_runs node (hst.inv h) hdrain
  exact ⟨u, hst.trans hloop, hafter, hview⟩

theorem sum_topics (f : Topic → ℕ) :
    ∑ topic, f topic = f .brake + f .steering + f .throttle + f .fault + f .obd := by
  simp [Finset.univ, Fintype.elems, Nat.add_assoc]

/-- The five loops of an uninterrupted drain. -/
theorem loops_run (node : ObdFeedback.Node) (h : Inv s) (hidle : s.drain = .idle) :
    ∃ t, Leads node s (loopsSteps (view s)) t ((view s).loops node).2 ∧
      t.drain = .checkingStaleness ∧ view t = ((view s).loops node).1 := by
  have hstart : Leads node s 1 { s with drain := .popping .brake .idle } [] :=
    .single fun now => by simp only [drainStep, hidle]
  obtain ⟨t₁, h₁, hd₁, hv₁⟩ := hstart.loop h rfl (b := view s) rfl
  obtain ⟨t₂, h₂, hd₂, hv₂⟩ := h₁.loop h hd₁ hv₁
  obtain ⟨t₃, h₃, hd₃, hv₃⟩ := h₂.loop h hd₂ hv₂
  obtain ⟨t₄, h₄, hd₄, hv₄⟩ := h₃.loop h hd₃ hv₃
  obtain ⟨t₅, h₅, hd₅, hv₅⟩ := h₄.loop h hd₄ hv₄
  refine ⟨t₅, ?_, hd₅, hv₅⟩
  convert h₅ using 1
  · simp only [loopsSteps, sum_topics, ne_eq, reduceCtorEq, not_false_eq_true,
      Backlog.queues_loop_of_ne]
    omega
  · rfl

/-- The last three steps of a drain. -/
theorem drain_finishes (node : ObdFeedback.Node) (hdrain : t.drain = .checkingStaleness)
    (checked loaded warned : Time) :
    let r := ObdFeedback.step node t.feedback (.checkStaleness checked)
    let drains := [Event.drain checked, .drain loaded, .drain warned]
    ((osccToRos node).stateFrom t drains).drain = .idle ∧
      view ((osccToRos node).stateFrom t drains) =
        { view t with feedback := r.1, lastReportedDrops := t.dropped } ∧
      (osccToRos node).traceFrom t drains = r.2.map .feedback ++
        if t.dropped ≠ t.lastReportedDrops then [.dropWarning warned t.dropped] else [] := by
  intro r drains
  by_cases hdrops : t.dropped = t.lastReportedDrops
  · simp [drains, osccToRos, Machine.next, Machine.emit, step, drainStep, hdrain, hdrops, view, r]
    rfl
  · simp [drains, osccToRos, Machine.next, Machine.emit, step, drainStep, hdrain, hdrops, view, r]
    rfl

/-- Between two drains of any run, an uninterrupted drain takes the steps that its loops need and
three more; it publishes, logs and warns what its source says when read top down, and leaves
empty queues and the same counters. -/
theorem drain_eq_plainDrain (node : ObdFeedback.Node) (es : List Event)
    (hidle : ((osccToRos node).state es).drain = .idle) (first : List Time)
    (checked loaded warned : Time)
    (hfirst : first.length = loopsSteps (view ((osccToRos node).state es))) :
    let s := (osccToRos node).state es
    let drains := (first ++ [checked, loaded, warned]).map Event.drain
    ((osccToRos node).stateFrom s drains).drain = .idle ∧
      view ((osccToRos node).stateFrom s drains) = (plainDrain node (view s) checked warned).1 ∧
      (osccToRos node).traceFrom s drains = (plainDrain node (view s) checked warned).2 := by
  intro s drains
  obtain ⟨t, hloops, hdrain, hview⟩ := loops_run node (inv_state node es) hidle
  obtain ⟨hstate, htrace⟩ := hloops first hfirst
  obtain ⟨hidle', hview', htrace'⟩ := drain_finishes node hdrain checked loaded warned
  have hfeedback : t.feedback = ((view s).loops node).1.feedback := congrArg Backlog.feedback hview
  have hdropped : t.dropped = ((view s).loops node).1.dropped := congrArg Backlog.dropped hview
  have hlast : t.lastReportedDrops = ((view s).loops node).1.lastReportedDrops :=
    congrArg Backlog.lastReportedDrops hview
  have hdrains : drains = first.map Event.drain ++ [.drain checked, .drain loaded, .drain warned] :=
    List.map_append
  rw [hdrains, Machine.stateFrom_append, Machine.traceFrom_append, hstate, htrace, hview', htrace',
    hview, hfeedback, hdropped, hlast]
  exact ⟨hidle', rfl, (List.append_assoc _ _ _).symm⟩

/-- One brake report, and a drain of 16 steps at rising clock readings. -/
theorem drain_eq_plainDrain_one_report :
    let node := (ObdFeedback.Node.construct .default).1
    let es : List Event :=
      [.callback .brake (some (⟨#v[5, 172], 1, 0, 0, #v[0, 0, 0]⟩ : OsccReport)) ⟨1700000000, 5⟩]
    let s := (osccToRos node).state es
    let drains := (((List.range 16).map Int.ofNat) ++ [16, 17, 18]).map Event.drain
    ((osccToRos node).stateFrom s drains).drain = .idle ∧
      (osccToRos node).traceFrom s drains = (plainDrain node (view s) 16 18).2 := by
  intro node es s drains
  obtain ⟨hidle, -, htrace⟩ := drain_eq_plainDrain node es (by decide +kernel)
    ((List.range 16).map Int.ofNat) 16 17 18 (by decide +kernel)
  exact ⟨hidle, htrace⟩

end Roscco.OsccToRos
