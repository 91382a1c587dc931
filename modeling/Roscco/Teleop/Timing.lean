import Mathlib.Algebra.Order.Floor.Ring
import Mathlib.Data.Rat.Floor
import Roscco.Teleop.LastCommands

/-!
# The command timer

The commands come from a timer and not from the joy callback, for two deadlines: OSCC disables
itself when it hears no command for 200 ms, and control must end soon after the gamepad falls
silent. Both are kept as far as the executor keeps up: what it is late with the timer is added
to them. Of the clock they ask that it goes back neither behind the last tick nor inside a
callback; the second also that it is not at 0 when the node is started, for a `last_joy_` of 0
counts as never and the watchdog does not look at it.

## Main results

* `commands_keep_coming` — how old the last command on a topic gets while control is enabled.
* `control_follows_joy` — how old the latest joy message gets while control is enabled.
-/

namespace Roscco.Teleop

open Library

variable {cfg : Config} {start bound : Time} {s : State} {es : List Event} {e : Event}

/-! ## The timer -/

/-- The `period` of the timer for a `publish_rate_hz` in its declared range, cast to
nanoseconds. -/
def period (publishRateHz : DeclaredDouble 5 200) : Int := ⌊1 / publishRateHz.1 * 1000000000⌋

/-- The default of `publish_rate_hz`. -/
def defaultPublishRate : DeclaredDouble 5 200 := ⟨50, by decide +kernel⟩

/-- The rate is declared to be high enough for OSCC, which waits 200 ms. -/
theorem period_le (publishRateHz : DeclaredDouble 5 200) : period publishRateHz ≤ 200000000 := by
  obtain ⟨rate, hlow, -⟩ := publishRateHz
  have hinverse : 1 / rate ≤ 1 / 5 := one_div_le_one_div_of_le (by norm_num) hlow
  have hreal : 1 / rate * 1000000000 ≤ ((200000000 : Int) : ℚ) := by
    push_cast
    linarith
  exact Int.floor_le_iff.mpr (hreal.trans_lt (by norm_num))

/-- The clock reading after which a callback publishes. -/
def Event.stamp : Event → Time
  | .joy _ _ stamp => stamp
  | .tick _ stamp => stamp

def Event.tickTime : Event → Option Time
  | .joy _ _ _ => none
  | .tick checked _ => some checked

/-- When the last tick began, or the node was started. -/
def lastTick (start : Time) (es : List Event) : Time :=
  (es.filterMap Event.tickTime).getLast?.getD start

/-- The clock goes back neither behind the last tick nor inside the callback, and the callback
ends at most `bound` after the last tick. -/
structure Timely (start bound : Time) (past : List Event) (e : Event) : Prop where
  after : lastTick start past ≤ e.clock
  within : e.clock ≤ e.stamp
  prompt : e.stamp - lastTick start past ≤ bound

instance (start bound : Time) (past : List Event) (e : Event) :
    Decidable (Timely start bound past e) :=
  decidable_of_iff (lastTick start past ≤ e.clock ∧ e.clock ≤ e.stamp ∧
    e.stamp - lastTick start past ≤ bound)
    ⟨fun h => ⟨h.1, h.2.1, h.2.2⟩, fun h => ⟨h.after, h.within, h.prompt⟩⟩

@[simp] theorem lastTick_snoc_joy (joy : Joy) (received stamp : Time) :
    lastTick start (es ++ [.joy joy received stamp]) = lastTick start es := by
  simp [lastTick, Event.tickTime]

@[simp] theorem lastTick_snoc_tick (checked stamp : Time) :
    lastTick start (es ++ [.tick checked stamp]) = checked := by
  simp [lastTick, Event.tickTime]

/-! ## What OSCC hears -/

/-- The stamp of an enable, or of a command on this topic. -/
def Output.feed (topic : Topic) : Output → Option Time
  | .enableDisable stamp enableControl => if enableControl then some stamp else none
  | .brakeCommand stamp _ => if topic = .brake then some stamp else none
  | .throttleCommand stamp _ => if topic = .throttle then some stamp else none
  | .steeringCommand stamp _ => if topic = .steering then some stamp else none
  | .log _ | .undefinedRead => none

/-- What keeps OSCC going on a topic: the enables and the commands. -/
def feeds (topic : Topic) (os : List Output) : List Time := os.filterMap (Output.feed topic)

theorem feeds_append (topic : Topic) (os ps : List Output) :
    feeds topic (os ++ ps) = feeds topic os ++ feeds topic ps := List.filterMap_append

@[simp] theorem feeds_pullLogs (topic : Topic) (m : Sample) : feeds topic m.pullLogs = [] :=
  filterMap_pullLogs (fun _ => rfl) m

/-- While control is enabled OSCC has been fed since the last tick. -/
theorem fed_since_tick (cfg : Config) (topic : Topic) (es : List Event)
    (htimely : Historically (Timely start bound) es) :
    ((teleop cfg).state es).enabled = true →
      ∃ fed ∈ (feeds topic ((teleop cfg).trace es)).getLast?, lastTick start es ≤ fed := by
  refine (teleop cfg).invariant_along (I := fun es s => s.enabled = true →
    ∃ fed ∈ (feeds topic ((teleop cfg).trace es)).getLast?, lastTick start es ≤ fed)
    (by simp [teleop]) ?_ es htimely
  intro es e hnow ih
  rw [Machine.trace_snoc, feeds_append]
  refine step_elim (P := fun t out => t.enabled = true →
    ∃ fed ∈ (feeds topic ((teleop cfg).trace es) ++ feeds topic out).getLast?,
      lastTick start (es ++ [e]) ≤ fed) ?_
  intro t out hstep henabled
  cases hstep with
  | rejected => simpa [feeds, Output.feed] using ih henabled
  | waiting _ _ _ m =>
    rw [lastTick_snoc_joy, feeds_pullLogs, List.append_nil]
    exact ih henabled
  | arming => simpa [feeds, Output.feed] using ih henabled
  | following joy received stamp m hm harmed =>
    rw [lastTick_snoc_joy]
    change (decision ((teleop cfg).state es) m).getD _ = true at henabled
    cases hdecision : decision ((teleop cfg).state es) m with
    | none =>
      rw [hdecision] at henabled
      simpa [decisionOutputs, feeds] using ih henabled
    | some enable =>
      obtain rfl : enable = true := by simpa [hdecision] using henabled
      have hlast : (feeds topic ((teleop cfg).trace es) ++
          feeds topic (decisionOutputs stamp (some true))).getLast? = some stamp :=
        List.getLast?_concat
      exact ⟨stamp, hlast, hnow.after.trans hnow.within⟩
  | tripping => simp [tripped] at henabled
  | publishing checked stamp =>
    rw [lastTick_snoc_tick]
    exact ⟨stamp, by cases topic <;> simp [feeds, Output.feed], hnow.within⟩
  | idle _ _ hoff => simp [hoff] at henabled

/-- While control is enabled OSCC does not starve: at every callback the last enable or command
on each topic is at most 200 ms old, and what the executor is late with the timer. -/
theorem commands_keep_coming (cfg : Config) (publishRateHz : DeclaredDouble 5 200)
    (start late : Time) (topic : Topic) (es : List Event)
    (htimely : Historically (Timely start (period publishRateHz + late)) es) :
    Historically (fun past e => ((teleop cfg).state past).enabled = true →
      ∃ fed ∈ (feeds topic ((teleop cfg).trace past)).getLast?,
        e.stamp - fed ≤ 200000000 + late) es := by
  intro past e hprefix henabled
  have hnow : Timely start (period publishRateHz + late) past e := htimely past e hprefix
  obtain ⟨fed, hfed, hsince⟩ := fed_since_tick cfg topic past
    (htimely.of_prefix ((List.prefix_append past [e]).trans hprefix)) henabled
  refine ⟨fed, hfed, ?_⟩
  calc e.stamp - fed
      ≤ e.stamp - lastTick start past := sub_le_sub_left hsince _
    _ ≤ period publishRateHz + late := hnow.prompt
    _ ≤ 200000000 + late := by gcongr; exact period_le publishRateHz

/-- The timer is set to 20 ms, and one tick comes 30 ms late. -/
def lateTicks : List Event :=
  [.tick 1020000000 1020000000, .joy (padJoy 1 1 0 0 0) 1030000000 1030000000,
    .joy (padJoy 1 1 0 0 1) 1035000000 1035000000, .tick 1040000000 1041000000,
    .tick 1090000000 1090000000, .tick 1110000000 1110000000]

/-- At the last tick the brake command of the late one is the last one. -/
theorem commands_keep_coming_late :
    ∃ fed ∈ (feeds .brake ((teleop .default).trace (lateTicks.take 5))).getLast?,
      1110000000 - fed ≤ 200000000 + 30000000 := by
  have htimely : Historically (Timely 1000000000 (period defaultPublishRate + 30000000))
      lateTicks := by
    decide +kernel
  exact commands_keep_coming .default defaultPublishRate 1000000000 30000000 .brake lateTicks
    htimely (lateTicks.take 5) (.tick 1110000000 1110000000) List.prefix_rfl (by decide +kernel)

/-! ## How long control outlives the gamepad -/

/-- No tick is before the start, and while control is enabled the last one has found the latest
joy message in time. -/
structure Heard (cfg : Config) (start : Time) (es : List Event) (s : State) : Prop where
  started : start ≤ lastTick start es
  joy : s.enabled = true → 0 < s.lastJoy ∧
    seconds (lastTick start es - s.lastJoy) ≤ .finite cfg.joyTimeoutS.1

theorem heard_state (cfg : Config) (es : List Event) (hstart : 0 < start)
    (htimely : Historically (Timely start bound) es) :
    Heard cfg start es ((teleop cfg).state es) := by
  refine (teleop cfg).invariant_along (I := Heard cfg start) ⟨le_rfl, by simp [teleop]⟩ ?_ es
    htimely
  intro es e hnow ih
  have hstarted : start ≤ lastTick start (es ++ [e]) := by
    cases e with
    | joy => rw [lastTick_snoc_joy]; exact ih.started
    | tick => rw [lastTick_snoc_tick]; exact ih.started.trans hnow.after
  refine ⟨hstarted, step_elim (P := fun t _ => t.enabled = true → 0 < t.lastJoy ∧
    seconds (lastTick start (es ++ [e]) - t.lastJoy) ≤ .finite cfg.joyTimeoutS.1) ?_⟩
  intro t out hstep henabled
  cases hstep with
  | rejected =>
    rw [lastTick_snoc_joy]
    exact ih.joy henabled
  | waiting _ _ _ _ _ hoff | arming _ _ _ _ _ hoff =>
    have harmed := (fresh_of_enabled cfg es henabled).armed
    simp [hoff] at harmed
  | following joy received stamp m hm harmed =>
    rw [lastTick_snoc_joy]
    have hafter : lastTick start es ≤ received := hnow.after
    have hnegative : ((lastTick start es - received : Int) : ℚ) ≤ 0 :=
      Int.cast_nonpos.mpr (sub_nonpos.mpr hafter)
    have htimeout : (1 / 20 : ℚ) ≤ cfg.joyTimeoutS.1 := cfg.joyTimeoutS.2.1
    refine ⟨hstart.trans_le (ih.started.trans hafter), Double.finite_le.mpr ?_⟩
    change ((lastTick start es - received : Int) : ℚ) / 1000000000 ≤ cfg.joyTimeoutS.1
    linarith
  | tripping => simp [tripped] at henabled
  | publishing checked stamp htrip hon =>
    rw [lastTick_snoc_tick]
    have hpos := (ih.joy hon).1
    exact ⟨hpos, in_time_of_not_trips htrip hon hpos⟩
  | idle _ _ hoff => simp [hoff] at henabled

/-- While control is enabled the gamepad is heard, if the clock is past 0 at the start: at every
callback the latest accepted joy message is at most the time limit old, and one period of the
timer, and what the executor is late with it. -/
theorem control_follows_joy (cfg : Config) (publishRateHz : DeclaredDouble 5 200)
    (start late : Time) (hstart : 0 < start) (es : List Event)
    (htimely : Historically (Timely start (period publishRateHz + late)) es) :
    Historically (fun past e => ((teleop cfg).state past).enabled = true →
      ∃ x older, accepted cfg past = x :: older ∧
        ((e.stamp - x.time : Int) : ℚ) ≤
          cfg.joyTimeoutS.1 * 1000000000 + period publishRateHz + late) es := by
  intro past e hprefix henabled
  have hnow : Timely start (period publishRateHz + late) past e := htimely past e hprefix
  have hheard := heard_state cfg past hstart
    (htimely.of_prefix ((List.prefix_append past [e]).trans hprefix))
  have hfound := (hheard.joy henabled).2
  obtain ⟨-, x, older, haccepted, hlast, -⟩ := fresh_of_enabled cfg past henabled
  refine ⟨x, older, haccepted, ?_⟩
  rw [hlast] at hfound
  replace hfound := Double.finite_le.mp hfound
  have hprompt : ((e.stamp - lastTick start past : Int) : ℚ) ≤
      (period publishRateHz + late : Int) := Int.cast_le.mpr hnow.prompt
  rw [div_le_iff₀ (by norm_num)] at hfound
  push_cast at hfound hprompt ⊢
  linarith

/-- At the last tick the START press is 75 ms old. -/
theorem control_follows_joy_late :
    ∃ x older, accepted .default (lateTicks.take 5) = x :: older ∧
      ((1110000000 - x.time : Int) : ℚ) ≤ Config.default.joyTimeoutS.1 * 1000000000 +
        period defaultPublishRate + (30000000 : Time) := by
  have htimely : Historically (Timely 1000000000 (period defaultPublishRate + 30000000))
      lateTicks := by
    decide +kernel
  exact control_follows_joy .default defaultPublishRate 1000000000 30000000 (by decide) lateTicks
    htimely (lateTicks.take 5) (.tick 1110000000 1110000000) List.prefix_rfl (by decide +kernel)

end Roscco.Teleop
