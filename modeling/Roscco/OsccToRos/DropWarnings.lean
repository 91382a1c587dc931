import Roscco.Library.TimedLog
import Roscco.OsccToRos.Basic

/-!
# Warnings about dropped reports

`drain` warns when the drop counter has changed since it last looked, through a throttle
of one second. It remembers the new total even when the throttle swallows the warning, so
the last drops of a burst can stay unreported. When every change is seen with the throttle
open, the log always ends on the total that the last drain loaded.
-/

namespace Roscco.OsccToRos

open Library

variable {node : ObdFeedback.Node} {s : State} {e : Event} {es : List Event}

/-- The calls of the throttled warning, with the clock time and the total of each. -/
def dropWarnings (os : List Output) : List (Time × BitVec 64) :=
  os.filterMap fun | .dropWarning now drops => some (now, drops) | _ => none

/-- The drop warnings that a run emits: `RCLCPP_WARN_THROTTLE` with a period of 1000 ms. -/
def warnings (node : ObdFeedback.Node) (es : List Event) : List (Time × BitVec 64) :=
  RateLimit.emitted 1000000000 (dropWarnings ((osccToRos node).trace es))

/-- The comparison that this event makes: its clock time and the total loaded before. -/
def Event.compares (s : State) : Event → Option (Time × BitVec 64)
  | .callback _ _ _ => none
  | .drain now =>
    match s.drain with
    | .comparingDrops drops => some (now, drops)
    | _ => none

/-- A drain that may warn again reports a total that the log does not end on, and after it
the log ends on the total loaded. -/
def DropsReported (node : ObdFeedback.Node) (es : List Event) (e : Event) : Prop :=
  ∀ c ∈ e.compares ((osccToRos node).state es),
    RateLimit.opens 1000000000 (warnings node es) c.1 →
      (c.2 ≠ RateLimit.latest 0 (warnings node es) →
        warnings node (es ++ [e]) = warnings node es ++ [c]) ∧
      RateLimit.latest 0 (warnings node (es ++ [e])) = c.2

/-- A drain that loads another total than it reported last finds the throttle open. -/
def ChangesSeenOpen (node : ObdFeedback.Node) (es : List Event) (e : Event) : Prop :=
  ∀ c ∈ e.compares ((osccToRos node).state es),
    c.2 ≠ ((osccToRos node).state es).lastReportedDrops →
      RateLimit.opens 1000000000 (warnings node es) c.1

instance (node : ObdFeedback.Node) (es : List Event) (e : Event) :
    Decidable (ChangesSeenOpen node es e) :=
  inferInstanceAs (Decidable (∀ c ∈ e.compares _, _ → _))

/-! ## One step -/

@[simp] theorem dropWarnings_append (os ps : List Output) :
    dropWarnings (os ++ ps) = dropWarnings os ++ dropWarnings ps := List.filterMap_append

@[simp] theorem dropWarnings_map_feedback (os : List ObdFeedback.Output) :
    dropWarnings (os.map .feedback) = [] := by
  simp [dropWarnings]

/-- Only the comparison warns, and only it writes `last_reported_drops_`. -/
theorem quiet_of_compares_eq_none (node : ObdFeedback.Node) (h : e.compares s = none) :
    dropWarnings ((osccToRos node).emit s e) = [] ∧
      ((osccToRos node).next s e).lastReportedDrops = s.lastReportedDrops := by
  cases e with
  | callback topic report clock =>
    change dropWarnings (enqueue s topic report clock).2 = [] ∧
      (enqueue s topic report clock).1.lastReportedDrops = s.lastReportedDrops
    cases report with
    | none => exact ⟨rfl, rfl⟩
    | some data =>
      simp only [enqueue]
      split <;> exact ⟨rfl, rfl⟩
  | drain now =>
    change dropWarnings (drainStep node s now).2 = [] ∧
      (drainStep node s now).1.lastReportedDrops = s.lastReportedDrops
    cases hdrain : s.drain with
    | comparingDrops drops => simp [Event.compares, hdrain] at h
    | processing | checkingStaleness => simp [drainStep, hdrain]
    | idle | popping | publishing | loggingFault | loadingDrops =>
      simp [drainStep, hdrain, dropWarnings, popStep]

/-- The comparison warns about a change and remembers the total. -/
theorem step_of_compares (node : ObdFeedback.Node) {c : Time × BitVec 64}
    (h : e.compares s = some c) :
    dropWarnings ((osccToRos node).emit s e) = (if c.2 ≠ s.lastReportedDrops then [c] else []) ∧
      ((osccToRos node).next s e).lastReportedDrops = c.2 := by
  cases e with
  | callback topic report clock => simp [Event.compares] at h
  | drain now =>
    change dropWarnings (drainStep node s now).2 = _ ∧
      (drainStep node s now).1.lastReportedDrops = c.2
    cases hdrain : s.drain with
    | comparingDrops drops =>
      obtain rfl : (now, drops) = c := by simpa [Event.compares, hdrain] using h
      by_cases hchange : drops = s.lastReportedDrops
      · simp [drainStep, hdrain, hchange, dropWarnings]
      · simp [drainStep, hdrain, hchange, dropWarnings]
    | idle | popping | publishing | loggingFault | processing | checkingStaleness
    | loadingDrops => simp [Event.compares, hdrain] at h

theorem warnings_snoc_of_quiet (h : dropWarnings ((osccToRos node).emit
    ((osccToRos node).state es) e) = []) : warnings node (es ++ [e]) = warnings node es := by
  simp [warnings, h]

/-- A change that is seen with the throttle open is emitted. -/
theorem warnings_snoc_of_change {c : Time × BitVec 64}
    (h : dropWarnings ((osccToRos node).emit ((osccToRos node).state es) e) = [c])
    (hopen : RateLimit.opens 1000000000 (warnings node es) c.1) :
    warnings node (es ++ [e]) = warnings node es ++ [c] := by
  rw [warnings, Machine.trace_snoc, dropWarnings_append, h]
  exact RateLimit.emitted_snoc_of_opens hopen

/-! ## Runs -/

/-- While every change is seen with the throttle open, the log ends on what `drain`
remembers. -/
theorem lastReportedDrops_eq_latest (node : ObdFeedback.Node) (es : List Event)
    (along : Historically (ChangesSeenOpen node) es) :
    ((osccToRos node).state es).lastReportedDrops = RateLimit.latest 0 (warnings node es) := by
  refine (osccToRos node).invariant_along
    (I := fun es s => s.lastReportedDrops = RateLimit.latest 0 (warnings node es)) rfl ?_ es along
  intro es e hopen ih
  cases hc : e.compares ((osccToRos node).state es) with
  | none =>
    obtain ⟨hquiet, hlast⟩ := quiet_of_compares_eq_none node hc
    rw [warnings_snoc_of_quiet hquiet, hlast, ih]
  | some c =>
    obtain ⟨hwarn, hlast⟩ := step_of_compares node hc
    rw [hlast]
    by_cases hchange : c.2 ≠ ((osccToRos node).state es).lastReportedDrops
    · rw [if_pos hchange] at hwarn
      rw [warnings_snoc_of_change hwarn (hopen c hc hchange), RateLimit.latest_snoc]
    · rw [if_neg hchange] at hwarn
      rw [warnings_snoc_of_quiet hwarn, ← ih]
      exact not_not.mp hchange

/-- In a run where every change of the counter is seen with the throttle open, every drain
that may warn reports the drops that the log does not show yet. -/
theorem drops_reported_of_changes_seen_open (node : ObdFeedback.Node) (es : List Event)
    (along : Historically (ChangesSeenOpen node) es) :
    Historically (DropsReported node) es := by
  intro past e hprefix c hc hopen
  have hlatest := lastReportedDrops_eq_latest node past (along.before hprefix)
  obtain ⟨hwarn, -⟩ := step_of_compares node hc
  rw [hlatest] at hwarn
  by_cases hchange : c.2 ≠ RateLimit.latest 0 (warnings node past)
  · rw [if_pos hchange] at hwarn
    have hsnoc := warnings_snoc_of_change hwarn hopen
    exact ⟨fun _ => hsnoc, by rw [hsnoc, RateLimit.latest_snoc]⟩
  · rw [if_neg hchange] at hwarn
    rw [warnings_snoc_of_quiet hwarn]
    exact ⟨fun h => absurd h hchange, (not_not.mp hchange).symm⟩

/-- A brake report that arrives between two steps of `drain`. -/
def brakeEvent : Event :=
  .callback .brake (some (⟨#v[5, 172], 1, 0, 0, #v[0, 0, 0]⟩ : OsccReport)) ⟨1700000000, 0⟩

/-- A drain at 1 s during which 64 brake reports arrive behind the brake loop: one is
dropped. -/
def firstDrop : List Event :=
  List.replicate 4 (.drain 1000000000) ++ List.replicate 64 brakeEvent ++
    List.replicate 10 (.drain 1000000000)

/-- The first drop is reported by the drain that sees it. -/
theorem drops_reported_of_changes_seen_open_first :
    Historically (DropsReported (ObdFeedback.Node.construct .default).1) firstDrop :=
  drops_reported_of_changes_seen_open _ firstDrop (by decide +kernel)

/-- The clock times of the drains of a run. -/
def drainTimes (es : List Event) : List Time :=
  es.filterMap fun | .drain now => some now | .callback _ _ _ => none

/-- A second drop is seen by a drain at 1.5 s, half a second after the first warning. The
next drain, at 3 s, finds nothing new and says nothing: the log ends on 1, not on 2. -/
theorem not_drops_reported :
    ¬ ∀ node es e, (drainTimes (es ++ [e])).Pairwise (· ≤ ·) → DropsReported node es e := by
  intro h
  let es := firstDrop ++ [brakeEvent] ++ List.replicate 329 (.drain 1500000000) ++
    List.replicate 13 (.drain 3000000000)
  have hreported := h (ObdFeedback.Node.construct .default).1 es (.drain 3000000000)
    (by decide +kernel) (3000000000, 2) (by decide +kernel) (by decide +kernel)
  have hwarnings : warnings (ObdFeedback.Node.construct .default).1
      (es ++ [.drain 3000000000]) = [(1000000000, 1)] := by decide +kernel
  rw [hwarnings] at hreported
  exact absurd hreported.2 (by decide)

end Roscco.OsccToRos
