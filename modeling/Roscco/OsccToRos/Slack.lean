import Roscco.Library.TimedLog
import Roscco.OsccToRos.Conservation

/-!
# The slack of the queues

A queue refuses a report only when all its places are taken, and the places are taken by reports
that came one after another. A module that keeps its period therefore loses nothing as long as no
report waits until the queue has filled up behind it: for 64 slots at 50 Hz, 63 periods of 20 ms.

## Main results

* `prompt_drain_loses_nothing` — with a drain that prompt, every report is published, on its way
  or queued.
-/

namespace Roscco.OsccToRos

open Library SignalQueue

variable {node : ObdFeedback.Node} {s : State} {topic : Topic} {es : List Event} {e : Event}

/-- The instant of a clock reading. -/
def instant (ts : Timespec) : Int := ts.tvSec * 1000000000 + ts.tvNsec

/-- When a report has arrived. -/
def arrival (item : Item topic) : Int := instant item.stamp

/-- The reports of a topic arrive at least a period apart. -/
def Periodic (topic : Topic) (period : Int) (es : List Event) : Prop :=
  Paced period (@arrival topic) (reports topic es)

/-- When a report arrives, the oldest one in its queue has not been waiting for as many periods
as the queue has places. -/
def Prompt (node : ObdFeedback.Node) (topic : Topic) (period : Int) (es : List Event) : Prop :=
  Historically (fun past e =>
    ∀ item ∈ e.report topic, ∀ oldest ∈ (queued topic ((osccToRos node).state past)).head?,
      arrival item - arrival oldest < (depth topic - 1) * period) es

instance (period : Int) : Decidable (Periodic topic period es) :=
  inferInstanceAs (Decidable (Paced _ _ _))

instance (period : Int) : Decidable (Prompt node topic period es) :=
  inferInstanceAs (Decidable (Historically _ _))

/-! ## Full queues -/

/-- `push` fails when all places but the spare one are taken. -/
theorem length_contents_of_full {α : Type} [Inhabited α] {n : ℕ} {q : SignalQueue α n}
    (hq : q.Bounded) {value : α} (hfull : (q.push value).2 = false) :
    q.contents.length = n - 1 := by
  rw [length_contents, ← next_eq_tail_iff hq]
  by_contra hroom
  simp [push, hroom] at hfull

theorem callback_of_report {item : Item topic} (h : e.report topic = some item) :
    e = .callback topic (some item.data) item.stamp := by
  cases e with
  | drain => simp [Event.report] at h
  | callback topic' report clock =>
    cases report with
    | none => simp [Event.report] at h
    | some data =>
      by_cases htopic : topic' = topic
      · subst htopic
        simp only [Event.report, onTopic_self, Option.map_some, Option.some.injEq] at h
        subst h
        rfl
      · simp [Event.report, onTopic_of_ne htopic] at h

/-- A report is taken in, or it finds its queue full. -/
theorem accepted_or_full (node : ObdFeedback.Node) (h : Inv s) {item : Item topic}
    (hreport : e.report topic = some item) :
    accepted topic ((osccToRos node).emit s e) = [item] ∨
      (queued topic s).length = depth topic - 1 := by
  obtain rfl := callback_of_report hreport
  have hemit : (osccToRos node).emit s (.callback topic (some item.data) item.stamp) =
      (enqueue s topic (some item.data) item.stamp).2 := rfl
  cases hok : ((s.queues topic).push item).2 with
  | true => exact .inl (by simp [hemit, enqueue, hok, accepted])
  | false => exact .inr (length_contents_of_full (h.bounded topic) hok)

/-- Reports that wait when another one arrives came before it, in their order. -/
theorem queued_sublist (node : ObdFeedback.Node) (es : List Event) (topic : Topic) :
    (queued topic ((osccToRos node).state es)).Sublist (reports topic es) := by
  obtain ⟨done, haccepted, -⟩ := accepted_eq node es topic
  have hsuffix : queued topic ((osccToRos node).state es) <:+
      accepted topic ((osccToRos node).trace es) := by
    rw [haccepted]
    exact List.suffix_append _ _
  exact hsuffix.sublist.trans (accepted_sublist node es topic)

/-- With a periodic module, a report that finds its queue full finds one that has been waiting
for all its places. -/
theorem waited_of_full {period : Int} (hperiod : 0 ≤ period)
    (hperiodic : Periodic topic period (es ++ [e])) {item : Item topic}
    (hreport : e.report topic = some item)
    (hfull : (queued topic ((osccToRos node).state es)).length = depth topic - 1) :
    ∃ oldest ∈ (queued topic ((osccToRos node).state es)).head?,
      (depth topic - 1) * period ≤ arrival item - arrival oldest := by
  have hdepth : 2 ≤ depth topic := by cases topic <;> decide
  have hsublist := (queued_sublist node es topic).append_right [item]
  rw [Periodic, reports_snoc, hreport] at hperiodic
  have hpaced := hperiodic.sublist hperiod hsublist
  cases hqueued : queued topic ((osccToRos node).state es) with
  | nil =>
    simp only [hqueued, List.length_nil] at hfull
    omega
  | cons oldest newer =>
    rw [hqueued] at hpaced hfull
    have hspread := Paced.spread hpaced
    have hplaces : (newer.length + 1 : Int) = depth topic - 1 := by
      rw [List.length_cons] at hfull
      omega
    exact ⟨oldest, rfl, hplaces ▸ hspread⟩

/-! ## Whole runs -/

/-- A periodic module and a prompt drain: every report is taken in. -/
theorem accepted_eq_reports (node : ObdFeedback.Node) {period : Int} (hperiod : 0 ≤ period)
    (es : List Event) (hperiodic : Periodic topic period es)
    (hprompt : Prompt node topic period es) :
    accepted topic ((osccToRos node).trace es) = reports topic es := by
  induction es using List.reverseRecOn with
  | nil => rfl
  | append_singleton es e ih =>
    obtain ⟨hpast, hwaiting⟩ := historically_snoc.mp hprompt
    have hpastPeriodic : Periodic topic period es :=
      hperiodic.sublist hperiod (by rw [reports_snoc]; exact List.sublist_append_left _ _)
    rw [Machine.trace_snoc, accepted_append, reports_snoc, ih hpastPeriodic hpast]
    congr 1
    cases hreport : e.report topic with
    | none =>
      have hsublist := (step_accounts node ((osccToRos node).state es) e).1 topic
      rw [hreport] at hsublist
      exact List.sublist_nil.mp hsublist
    | some item =>
      refine (accepted_or_full node (inv_state node es) hreport).resolve_right fun hfull => ?_
      obtain ⟨oldest, holdest, hwaited⟩ := waited_of_full hperiod hperiodic hreport hfull
      exact (hwaiting item hreport oldest holdest).not_ge hwaited

/-- The depth of a queue is slack: while its module keeps a period, and no report waits for as
many periods as there are places, every report of the topic is published in its turn, popped and
about to be published, or still queued. -/
theorem prompt_drain_loses_nothing (node : ObdFeedback.Node) (es : List Event) (topic : Topic)
    (period : Int) (hperiod : 0 ≤ period) (hperiodic : Periodic topic period es)
    (hprompt : Prompt node topic period es) :
    ∃ done, reports topic es = done ++ inFlight topic ((osccToRos node).state es) ++
        queued topic ((osccToRos node).state es) ∧
      published topic ((osccToRos node).trace es) = done.map (toMessage topic) := by
  rw [← accepted_eq_reports node hperiod es hperiodic hprompt]
  exact accepted_eq node es topic

/-- Two brake reports 20 ms apart, the first one still queued when the second one comes. -/
theorem prompt_drain_loses_nothing_two :
    let node := (ObdFeedback.Node.construct .default).1
    let report : OsccReport := ⟨#v[5, 172], 1, 0, 0, #v[0, 0, 0]⟩
    let es : List Event := [.callback .brake (some report) ⟨1700000000, 0⟩, .drain 0,
      .callback .brake (some report) ⟨1700000000, 20000000⟩, .drain 0, .drain 0]
    ∃ done, reports .brake es = done ++ inFlight .brake ((osccToRos node).state es) ++
        queued .brake ((osccToRos node).state es) ∧
      published .brake ((osccToRos node).trace es) = done.map (toMessage .brake) := by
  intro node report es
  exact prompt_drain_loses_nothing node es .brake 20000000 (by decide) (by decide) (by decide)

end Roscco.OsccToRos
