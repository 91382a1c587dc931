import Roscco.CommandLink.Delivery

/-!
# The authority that reaches OSCC

The teleop node scales the gamepad to its own maxima and the bridge clamps to its limits, so
OSCC gets no more than the smaller of the two authorities, and no torque past zero on either
side of a limit.

## Main results

* `authority_delivered` — the range of every value that OSCC gets.
-/

namespace Roscco.CommandLink

open Library
open RosToOscc (Channel limited limit limiter_limit limited_of_ordered sent)

variable {cfg : Teleop.Config}

/-- The least value that the teleop node sends on a channel. -/
def least (cfg : Teleop.Config) : Channel → ℚ
  | .brake | .throttle => 0
  | .steering => -cfg.maxSteering.1

/-- The greatest value that the teleop node sends on a channel. -/
def greatest (cfg : Teleop.Config) : Channel → ℚ
  | .brake => cfg.maxBrake.1
  | .throttle => cfg.maxThrottle.1
  | .steering => cfg.maxSteering.1

/-- The least value that reaches OSCC. -/
def floor (cfg : Teleop.Config) (limits : RosToOscc.Config) : Channel → ℚ
  | .brake => limits.brakeMin.1
  | .throttle => limits.throttleMin.1
  | .steering => max limits.steeringMin.1 (-cfg.maxSteering.1)

/-- The greatest value that reaches OSCC. -/
def ceiling (cfg : Teleop.Config) (limits : RosToOscc.Config) : Channel → ℚ
  | .brake => max limits.brakeMin.1 (min cfg.maxBrake.1 limits.brakeMax.1)
  | .throttle => max limits.throttleMin.1 (min cfg.maxThrottle.1 limits.throttleMax.1)
  | .steering => min cfg.maxSteering.1 limits.steeringMax.1

/-- The limits of the bridge turn the range of the teleop node into that of OSCC. -/
theorem limit_range (cfg : Teleop.Config) (limits : RosToOscc.Config) (channel : Channel)
    (hordered : limits.Ordered channel) :
    limit limits channel (.finite (least cfg channel)) = floor cfg limits channel ∧
      limit limits channel (.finite (greatest cfg channel)) = ceiling cfg limits channel := by
  cases channel with
  | brake =>
    refine ⟨?_, rfl⟩
    exact max_eq_left ((min_le_left _ _).trans limits.brakeMin.2.1)
  | throttle =>
    refine ⟨?_, rfl⟩
    exact max_eq_left ((min_le_left _ _).trans limits.throttleMin.2.1)
  | steering =>
    have hneg : -cfg.maxSteering.1 ≤ 0 := neg_nonpos.mpr cfg.maxSteering.2.1
    constructor
    · exact congrArg (max limits.steeringMin.1)
        (min_eq_left (hneg.trans limits.steeringMax.2.1))
    · exact max_eq_right (limits.steeringMin.2.2.trans
        (le_min cfg.maxSteering.2.1 limits.steeringMax.2.1))

/-- What the teleop node publishes on the topic of a channel. -/
theorem published_within {es : List Teleop.Event} (hrange : ∀ e ∈ es, e.AxesInRange)
    {channel : Channel} {v : Double}
    (hv : v ∈ Teleop.values (topic channel) ((Teleop.teleop cfg).trace es)) :
    v.Within (least cfg channel) (greatest cfg channel) := by
  have hall : ∀ o ∈ (Teleop.teleop cfg).trace es, o.WithinAuthority cfg := by
    rw [Machine.forall_mem_trace]
    intro past e hsplit
    exact (Teleop.authorized_step (Teleop.authorized_state cfg past fun x hx =>
      hrange x (hsplit.subset (List.mem_append_left _ hx))) (hrange e (hsplit.subset (by simp)))).2
  obtain ⟨o, ho, hvalue⟩ := List.mem_filterMap.mp hv
  have hauthority := hall o ho
  cases o with
  | enableDisable | log | undefinedRead => simp [Teleop.Output.value] at hvalue
  | brakeCommand | throttleCommand | steeringCommand =>
    cases channel <;> simp [Teleop.Output.value, topic] at hvalue
    subst hvalue
    exact hauthority

/-- With the axes of the gamepad in their range, the limits in order and a topic that makes no
message up, every value that OSCC gets is, in exact arithmetic, a number inside both authorities:
no brake or throttle above the smaller maximum, unless the minimum demands it, and no torque
above the smaller maximum on either side. -/
theorem authority_delivered (net : Network) (cfg : Teleop.Config) (limits : RosToOscc.Config)
    (channel : Channel) (horder : (net.commands channel).InOrder)
    (hordered : limits.Ordered channel) (es : List (Event net))
    (hrange : ∀ e ∈ teleopEvents es, e.AxesInRange) :
    ∀ v ∈ sent channel (bridgeOutputs ((commandLink net cfg limits).trace es)),
      v.Within (floor cfg limits channel) (ceiling cfg limits channel) := by
  obtain ⟨taken, hsent, hsublist⟩ := commands_run contextual_sublist horder cfg limits es
  rw [hsent]
  intro v hv
  obtain ⟨requested, hrequested, rfl⟩ := List.mem_map.mp hv
  have hpublished := published_within hrange
    (hsublist.subset (List.mem_append_left _ hrequested))
  obtain ⟨q, hq, rfl⟩ := Double.within_iff.mp hpublished
  have hmono := (limiter_limit hordered).monotone
  obtain ⟨hfloor, hceiling⟩ := limit_range cfg limits channel hordered
  rw [limited_of_ordered hordered, ← hfloor, ← hceiling]
  exact Double.within_iff.mpr ⟨_, ⟨hmono hq.1, hmono hq.2⟩, rfl⟩

/-- A pulled brake trigger asks for full brake, and the limits leave 3/10 of it. -/
theorem authority_delivered_full_brake :
    let limits : RosToOscc.Config :=
      { RosToOscc.Config.default with brakeMax := ⟨3 / 10, by norm_num⟩ }
    let es : List (Event .matched) :=
      [.teleop (.joy (Teleop.padJoy 1 1 0 0 0) 1000000000 1000000000),
        .teleop (.joy (Teleop.padJoy (-1) 1 1 0 1) 1020000000 1020000000),
        .teleop (.tick 1030000000 1030000000), .command .brake .ok]
    sent .brake (bridgeOutputs ((commandLink .matched .default limits).trace es)) =
        [.finite (3 / 10)] ∧
      ∀ v ∈ sent .brake (bridgeOutputs ((commandLink .matched .default limits).trace es)),
        v.Within 0 (3 / 10) := by
  intro limits es
  refine ⟨by decide +kernel, ?_⟩
  have hceiling : ceiling .default limits .brake = 3 / 10 := by decide +kernel
  rw [← hceiling]
  exact authority_delivered .matched .default limits .brake (Transport.history_inOrder 10 Double)
    (by decide +kernel) es (by decide +kernel)

end Roscco.CommandLink
