import Roscco.Teleop.Authority

/-!
# The last commands before a watchdog trip

The watchdog zeroes the command fields, but it also disables the node, and a disabled node
publishes nothing: the zeros never reach the topics. The last commands of the topics stay
what the latest publishing tick sent, so they are zero after a trip exactly when they were
zero before it.

## Main results

* `trips_leave_no_command_iff` — when the trips of a run leave no live command behind.
-/

namespace Roscco.Teleop

open Library

variable {cfg : Config} {s : State} {e : Event} {es : List Event}

/-! ## The command topics -/

inductive Topic where
  | brake
  | throttle
  | steering
  deriving DecidableEq, Repr

/-- The value of a command on this topic. -/
def Output.value (topic : Topic) : Output → Option Double
  | .brakeCommand _ brakePosition => if topic = .brake then some brakePosition else none
  | .throttleCommand _ throttlePosition => if topic = .throttle then some throttlePosition else none
  | .steeringCommand _ steeringTorque => if topic = .steering then some steeringTorque else none
  | .enableDisable _ _ | .log _ | .undefinedRead => none

/-- The commands on this topic. -/
def values (topic : Topic) (os : List Output) : List Double := os.filterMap (Output.value topic)

/-- The last command on each topic that has one is zero. -/
def Zeroed (os : List Output) : Prop := ∀ topic, ∀ v ∈ (values topic os).getLast?, v = 0

/-- When the watchdog trips in this event, the last commands are zero until the next
enable. -/
def LeavesNoCommand (cfg : Config) (es : List Event) (e : Event) : Prop :=
  e.Trips cfg ((teleop cfg).state es) →
    ∀ later, true ∉ enables ((teleop cfg).traceFrom ((teleop cfg).state (es ++ [e])) later) →
      Zeroed ((teleop cfg).trace (es ++ e :: later))

/-- When the watchdog trips in this event, it finds the steering average at zero, and the
latest publishing tick has found both positions at zero. -/
def TripsAtRest (cfg : Config) (es : List Event) (e : Event) : Prop :=
  e.Trips cfg ((teleop cfg).state es) →
    ((teleop cfg).state es).steeringAverage = 0 ∧
      ∀ t ∈ ((teleop cfg).found (Event.Publishes cfg) (teleop cfg).init es).getLast?,
        t.brake = 0 ∧ t.throttle = 0

/-! ## What is published -/

/-- What a publishing tick sends on a topic. -/
def State.value (cfg : Config) (s : State) : Topic → Double
  | .brake => s.brake
  | .throttle => s.throttle
  | .steering => nextAverage cfg s

@[simp] theorem values_append (topic : Topic) (os ps : List Output) :
    values topic (os ++ ps) = values topic os ++ values topic ps := List.filterMap_append

@[simp] theorem values_pullLogs (topic : Topic) (m : Sample) : values topic m.pullLogs = [] :=
  filterMap_pullLogs (fun _ => rfl) m

theorem not_publishes_of_disabled (hoff : s.enabled = false) : ¬ e.Publishes cfg s := by
  cases e with
  | joy => exact id
  | tick => exact fun hpub => absurd hpub.2 (by simp [hoff])

theorem not_publishes_of_trips (htrip : e.Trips cfg s) : ¬ e.Publishes cfg s := by
  cases e with
  | joy => exact id
  | tick => exact fun hpub => hpub.1 htrip

/-- Publishing ticks send one command on each topic; nothing else sends any. -/
theorem values_emit (cfg : Config) (topic : Topic) (s : State) (e : Event) :
    values topic ((teleop cfg).emit s e) =
      if e.Publishes cfg s then [s.value cfg topic] else [] := by
  refine step_elim (P := fun _ out =>
    values topic out = if e.Publishes cfg s then [s.value cfg topic] else []) ?_
  intro t out hstep
  cases hstep with
  | rejected | arming => rfl
  | waiting _ _ _ m => exact values_pullLogs topic m
  | following _ _ _ m => cases decision s m <;> rfl
  | tripping _ _ hwatch => rw [if_neg fun hpub => hpub.1 hwatch]; rfl
  | publishing _ _ hwatch hon =>
    rw [if_pos ⟨hwatch, hon⟩]
    cases topic <;> rfl
  | idle _ _ hoff => rw [if_neg (not_publishes_of_disabled hoff)]; rfl

/-- The commands of a run are those of the states that its publishing ticks found. -/
theorem values_trace (cfg : Config) (topic : Topic) (es : List Event) :
    values topic ((teleop cfg).trace es) =
      ((teleop cfg).found (Event.Publishes cfg) (teleop cfg).init es).map
        fun t => t.value cfg topic :=
  (teleop cfg).filterMap_traceFrom (fun s e _ => values_emit cfg topic s e) _

/-! ## After a trip -/

theorem values_eq_nil {os : List Output} (h : ∀ o ∈ os, o.isCommand = false) (topic : Topic) :
    values topic os = [] := by
  rw [values, List.filterMap_eq_nil_iff]
  intro o ho
  have hquiet := h o ho
  cases o with
  | enableDisable | log | undefinedRead => rfl
  | brakeCommand | throttleCommand | steeringCommand => simp [Output.isCommand] at hquiet

/-- A trip disables the node. -/
theorem disabled_of_trips (htrip : e.Trips cfg s) : ((teleop cfg).next s e).enabled = false := by
  refine step_elim (P := fun t _ => t.enabled = false) ?_
  intro t out hstep
  cases hstep with
  | rejected | waiting | arming | following => exact htrip.elim
  | tripping => rfl
  | publishing _ _ hwatch => exact absurd htrip hwatch
  | idle _ _ hoff => exact hoff

/-- A trip leaves the last commands as they were. -/
theorem leavesNoCommand_iff :
    LeavesNoCommand cfg es e ↔
      (e.Trips cfg ((teleop cfg).state es) → Zeroed ((teleop cfg).trace es)) := by
  refine imp_congr_right fun htrip => ?_
  have hsame (later : List Event)
      (hno : true ∉ enables ((teleop cfg).traceFrom ((teleop cfg).state (es ++ [e])) later))
      (topic : Topic) :
      values topic ((teleop cfg).trace (es ++ e :: later)) =
        values topic ((teleop cfg).trace es) := by
    have hoff : ((teleop cfg).state (es ++ [e])).enabled = false := by
      rw [Machine.state_snoc]
      exact disabled_of_trips htrip
    have hsilent := values_eq_nil (no_command_of_disabled hoff hno) topic
    rw [Machine.state_snoc] at hsilent
    rw [Machine.trace_append, Machine.traceFrom_cons, values_append, values_append, hsilent,
      values_emit, if_neg (not_publishes_of_trips htrip), List.append_nil, List.append_nil]
  constructor
  · intro hleaves topic
    rw [← hsame [] List.not_mem_nil topic]
    exact hleaves [] List.not_mem_nil topic
  · intro hzeroed later hno topic
    rw [hsame later hno topic]
    exact hzeroed topic

/-! ## Before a trip -/

/-- As long as every trip finds the average at zero, the average is the last torque sent. -/
theorem average_eq_last (cfg : Config) (es : List Event)
    (along : Historically (fun past e => e.Trips cfg ((teleop cfg).state past) →
      ((teleop cfg).state past).steeringAverage = 0) es) :
    ((teleop cfg).state es).steeringAverage =
      (values .steering ((teleop cfg).trace es)).getLast?.getD 0 := by
  refine (teleop cfg).invariant_along (I := fun es s =>
    s.steeringAverage = (values .steering ((teleop cfg).trace es)).getLast?.getD 0) rfl ?_ es along
  intro es e hrest ih
  rw [Machine.trace_snoc, values_append, values_emit]
  refine step_elim (P := fun t _ => t.steeringAverage = (values .steering ((teleop cfg).trace es) ++
    if e.Publishes cfg ((teleop cfg).state es) then [((teleop cfg).state es).value cfg .steering]
    else []).getLast?.getD 0) ?_
  intro t out hstep
  cases hstep with
  | rejected | waiting | arming | following =>
    rw [if_neg (by exact id), List.append_nil]
    exact ih
  | tripping checked stamp hwatch =>
    have htrip : Event.Trips cfg ((teleop cfg).state es) (.tick checked stamp) := hwatch
    rw [if_neg (not_publishes_of_trips htrip), List.append_nil, ← ih, hrest htrip]
    rfl
  | publishing _ _ hwatch hon => simp [Event.Publishes, hwatch, hon, State.value]
  | idle _ _ hoff =>
    rw [if_neg (not_publishes_of_disabled hoff), List.append_nil]
    exact ih

/-- The last commands are zero when the average is and the positions were. -/
theorem zeroed_iff (hlast : ((teleop cfg).state es).steeringAverage =
      (values .steering ((teleop cfg).trace es)).getLast?.getD 0) :
    Zeroed ((teleop cfg).trace es) ↔ ((teleop cfg).state es).steeringAverage = 0 ∧
      ∀ t ∈ ((teleop cfg).found (Event.Publishes cfg) (teleop cfg).init es).getLast?,
        t.brake = 0 ∧ t.throttle = 0 := by
  have hsteering : ((teleop cfg).state es).steeringAverage = 0 ↔
      ∀ v ∈ (values .steering ((teleop cfg).trace es)).getLast?, v = 0 := by
    rw [hlast]
    cases (values .steering ((teleop cfg).trace es)).getLast? <;> simp
  have htopics : Zeroed ((teleop cfg).trace es) ↔
      (∀ v ∈ (values .steering ((teleop cfg).trace es)).getLast?, v = 0) ∧
      (∀ v ∈ (values .brake ((teleop cfg).trace es)).getLast?, v = 0) ∧
      ∀ v ∈ (values .throttle ((teleop cfg).trace es)).getLast?, v = 0 :=
    ⟨fun h => ⟨h .steering, h .brake, h .throttle⟩, fun h topic => by
      cases topic <;> grind⟩
  rw [htopics, ← hsteering, values_trace, values_trace, List.getLast?_map, List.getLast?_map]
  cases ((teleop cfg).found (Event.Publishes cfg) (teleop cfg).init es).getLast? <;>
    simp [State.value]

/-- In a run every watchdog trip leaves no live command behind exactly when every trip finds
the steering average at zero and comes after positions of zero. -/
theorem trips_leave_no_command_iff (cfg : Config) (es : List Event) :
    Historically (LeavesNoCommand cfg) es ↔ Historically (TripsAtRest cfg) es := by
  induction es using List.reverseRecOn with
  | nil => simp
  | append_singleton es e ih =>
    rw [historically_snoc, historically_snoc, ih]
    refine and_congr_right fun hrest => ?_
    have hlast := average_eq_last cfg es fun past x hp htrip => (hrest past x hp htrip).1
    rw [leavesNoCommand_iff]
    exact imp_congr_right fun _ => zeroed_iff hlast

/-- Half brake and full stick, one tick, then silence: the brake stays at 1/4. -/
theorem not_trips_leave_no_command : ¬ ∀ cfg es, Historically (LeavesNoCommand cfg) es := by
  intro h
  let es : List Event := [.joy (padJoy 1 1 0 0 0) 1000000000 1000000000,
    .joy (padJoy (1 / 2) 1 1 0 1) 1020000000 1020000000, .tick 1030000000 1030000000]
  have hleaves := h Config.default (es ++ [.tick 2000000000 2000000000]) es
    (.tick 2000000000 2000000000) List.prefix_rfl
  have hzero := hleaves (by decide +kernel) [] List.not_mem_nil .brake (.finite (1 / 4))
    (by decide +kernel)
  exact absurd hzero (by decide +kernel)

end Roscco.Teleop
