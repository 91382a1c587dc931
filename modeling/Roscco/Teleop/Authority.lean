import Mathlib.Tactic.Linarith
import Roscco.Library.Averaging
import Roscco.Teleop.Smoothing

/-!
# The authority of the gamepad

With stick and triggers in their range, every command stays inside the configured maxima:
the two linear transforms map the reversed axis onto the command's range, and the steering
average is a convex combination of what it has been told. While the set-point stands still
the torque approaches it by the same factor at every tick.

## Main results

* `authority_respected` — the ranges of all commands, and how the torque moves.
-/

namespace Roscco.Teleop

open Library

variable {cfg : Config} {s : State} {e : Event} {es : List Event}

/-! ## One message -/

/-- The axes of a message are where `joy_node` keeps them. -/
def Event.AxesInRange : Event → Prop
  | .joy message _ _ => ∀ v ∈ message.axes, v.Within (-1) 1
  | .tick _ _ => True

instance : DecidablePred Event.AxesInRange
  | .joy message _ _ => inferInstanceAs (Decidable (∀ v ∈ message.axes, v.Within (-1) 1))
  | .tick _ _ => isTrue trivial

/-- The commands stay inside the configured maxima. -/
def Output.WithinAuthority (cfg : Config) : Output → Prop
  | .brakeCommand _ brakePosition => brakePosition.Within 0 cfg.maxBrake.1
  | .throttleCommand _ throttlePosition => throttlePosition.Within 0 cfg.maxThrottle.1
  | .steeringCommand _ steeringTorque =>
    steeringTorque.Within (-cfg.maxSteering.1) cfg.maxSteering.1
  | .enableDisable _ _ | .log _ | .undefinedRead => True

/-- The part of the first range that lies below a value is the part of the second range
that lies below its image. -/
theorem linearTransform_finite {high₁ low₁ : ℚ} (hne : high₁ ≠ low₁) (value high₂ low₂ : ℚ) :
    linearTransform (.finite value) (.finite high₁) (.finite low₁) (.finite high₂)
        (.finite low₂) =
      .finite (smooth ((value - low₁) / (high₁ - low₁)) low₂ high₂) := by
  simp only [linearTransform, Double.finite_sub, Double.finite_mul]
  rw [Double.finite_div (sub_ne_zero.mpr hne), Double.finite_add, smooth]
  congr 1
  ring

/-- `linearTransform` stays in its second range, also when the first one is reversed. -/
theorem linearTransform_within {high₁ low₁ value high₂ low₂ : ℚ} (hne : high₁ ≠ low₁)
    (hvalue : value ∈ Set.uIcc low₁ high₁) (hle : low₂ ≤ high₂) :
    (linearTransform (.finite value) (.finite high₁) (.finite low₁) (.finite high₂)
      (.finite low₂)).Within low₂ high₂ := by
  have hpart : 0 ≤ (value - low₁) / (high₁ - low₁) ∧ (value - low₁) / (high₁ - low₁) ≤ 1 := by
    rcases Set.mem_uIcc.mp hvalue with ⟨hlow, hhigh⟩ | ⟨hhigh, hlow⟩
    · have hpos : 0 < high₁ - low₁ := sub_pos.mpr ((hlow.trans hhigh).lt_of_ne hne.symm)
      exact ⟨div_nonneg (by linarith) hpos.le, (div_le_one hpos).mpr (by linarith)⟩
    · have hneg : high₁ - low₁ < 0 := sub_neg.mpr ((hhigh.trans hlow).lt_of_ne hne)
      exact ⟨div_nonneg_of_nonpos (by linarith) hneg.le, (div_le_one_of_neg hneg).mpr (by linarith)⟩
  rw [linearTransform_finite hne]
  exact Double.within_iff.mpr ⟨_, smooth_mem hpart.1 hpart.2 (convex_Icc low₂ high₂)
    (Set.left_mem_Icc.mpr hle) (Set.right_mem_Icc.mpr hle), rfl⟩

/-- A trigger from 1 to -1 becomes a position from 0 to its maximum. -/
theorem within_trigger {scale : ℚ} (hscale : 0 ≤ scale) {v : Double} (hv : v.Within (-1) 1) :
    (.finite scale * linearTransform v kTriggerMax kTriggerMin 1 0 : Double).Within 0 scale := by
  obtain ⟨q, hq, rfl⟩ := Double.within_iff.mp hv
  have htransform : (linearTransform (.finite q) (.finite (-1)) (.finite 1) (.finite 1)
      (.finite 0)).Within 0 1 :=
    linearTransform_within (by norm_num) (Set.Icc_subset_uIcc' hq) zero_le_one
  simpa [kTriggerMax, kTriggerMin] using htransform.scale hscale

/-- A stick from 1 to -1 becomes a torque from minus its maximum to its maximum. -/
theorem within_stick {scale : ℚ} (hscale : 0 ≤ scale) {v : Double} (hv : v.Within (-1) 1) :
    (.finite scale * linearTransform v kStickMax kStickMin 1 (-1) : Double).Within
      (-scale) scale := by
  obtain ⟨q, hq, rfl⟩ := Double.within_iff.mp hv
  have htransform : (linearTransform (.finite q) (.finite (-1)) (.finite 1) (.finite 1)
      (.finite (-1))).Within (-1) 1 :=
    linearTransform_within (by norm_num) (Set.Icc_subset_uIcc' hq) (by norm_num)
  simpa [kStickMax, kStickMin] using htransform.scale hscale

theorem Sample.withinRange {joy : Joy} {m : Sample} (h : joy.sample cfg = some m)
    (hrange : ∀ v ∈ joy.axes, v.Within (-1) 1) :
    m.brakeTrigger.Within (-1) 1 ∧ m.throttleTrigger.Within (-1) 1 ∧
      m.steeringStick.Within (-1) 1 := by
  have hreads := Joy.reads_of_sample h
  exact ⟨hrange _ (List.mem_of_getElem? hreads.brakeTrigger),
    hrange _ (List.mem_of_getElem? hreads.throttleTrigger),
    hrange _ (List.mem_of_getElem? hreads.steeringStick)⟩

/-! ## The invariant -/

/-- The command fields and the average are inside the configured maxima. -/
structure Authorized (cfg : Config) (s : State) : Prop where
  brake : s.brake.Within 0 cfg.maxBrake.1
  throttle : s.throttle.Within 0 cfg.maxThrottle.1
  steering : s.steering.Within (-cfg.maxSteering.1) cfg.maxSteering.1
  average : s.steeringAverage.Within (-cfg.maxSteering.1) cfg.maxSteering.1

theorem zero_within {lo hi : ℚ} (hlo : lo ≤ 0) (hhi : 0 ≤ hi) : (0 : Double).Within lo hi :=
  Double.within_iff.mpr ⟨0, ⟨hlo, hhi⟩, rfl⟩

theorem Authorized.rest (h0 : s.brake = 0) (h1 : s.throttle = 0) (h2 : s.steering = 0)
    (h3 : s.steeringAverage = 0) : Authorized cfg s where
  brake := h0 ▸ zero_within le_rfl cfg.maxBrake.2.1
  throttle := h1 ▸ zero_within le_rfl cfg.maxThrottle.2.1
  steering := h2 ▸ zero_within (neg_nonpos.mpr cfg.maxSteering.2.1) cfg.maxSteering.2.1
  average := h3 ▸ zero_within (neg_nonpos.mpr cfg.maxSteering.2.1) cfg.maxSteering.2.1

/-- The next average of numbers. -/
theorem nextAverage_finite (cfg : Config) {average setpoint : ℚ}
    (haverage : s.steeringAverage = .finite average)
    (hsetpoint : s.steering = .finite setpoint) :
    nextAverage cfg s = .finite (smooth cfg.smoothingFactor.1 average setpoint) := by
  simp [nextAverage, exponentialAverage, smooth, haverage, hsetpoint]

theorem Config.smoothingFactor_nonneg (cfg : Config) : 0 ≤ cfg.smoothingFactor.1 :=
  le_trans (by norm_num) cfg.smoothingFactor.2.1

theorem Authorized.nextAverage (h : Authorized cfg s) :
    (nextAverage cfg s).Within (-cfg.maxSteering.1) cfg.maxSteering.1 := by
  obtain ⟨average, haverage, heq⟩ := Double.within_iff.mp h.average
  obtain ⟨setpoint, hsetpoint, heq'⟩ := Double.within_iff.mp h.steering
  rw [nextAverage_finite cfg heq heq']
  exact Double.within_iff.mpr ⟨_, smooth_mem cfg.smoothingFactor_nonneg cfg.smoothingFactor.2.2
    (convex_Icc _ _) haverage hsetpoint, rfl⟩

/-- One event keeps the authority and commands inside it. -/
theorem authorized_step (h : Authorized cfg s) (hrange : e.AxesInRange) :
    Authorized cfg ((teleop cfg).next s e) ∧
      ∀ o ∈ (teleop cfg).emit s e, o.WithinAuthority cfg := by
  refine step_elim (P := fun t out => Authorized cfg t ∧ ∀ o ∈ out, o.WithinAuthority cfg) ?_
  intro t out hstep
  cases hstep with
  | rejected | arming => exact ⟨⟨h.brake, h.throttle, h.steering, h.average⟩, by
      simp [Output.WithinAuthority]⟩
  | waiting _ _ _ m =>
    refine ⟨⟨h.brake, h.throttle, h.steering, h.average⟩, fun o ho => ?_⟩
    rcases mem_pullLogs ho with rfl | rfl <;> trivial
  | following joy received stamp m hm =>
    obtain ⟨hbrake, hthrottle, hsteering⟩ := Sample.withinRange hm hrange
    refine ⟨⟨within_trigger cfg.maxBrake.2.1 hbrake, within_trigger cfg.maxThrottle.2.1 hthrottle,
      within_stick cfg.maxSteering.2.1 hsteering, h.average⟩, fun o ho => ?_⟩
    cases hd : decision s m <;> simp only [hd, decisionOutputs, List.mem_cons, List.not_mem_nil,
      or_false] at ho
    rcases ho with rfl | rfl <;> trivial
  | tripping =>
    exact ⟨.rest rfl rfl rfl rfl, by simp [Output.WithinAuthority]⟩
  | publishing =>
    refine ⟨⟨h.brake, h.throttle, h.steering, h.nextAverage⟩, ?_⟩
    simp only [List.mem_cons, List.not_mem_nil, or_false, forall_eq_or_imp, forall_eq]
    exact ⟨h.brake, h.throttle, h.nextAverage⟩
  | idle => exact ⟨h, by simp⟩

theorem authorized_state (cfg : Config) (es : List Event) (hrange : ∀ e ∈ es, e.AxesInRange) :
    Authorized cfg ((teleop cfg).state es) :=
  (teleop cfg).invariant_along (I := fun _ s => Authorized cfg s) (.rest rfl rfl rfl rfl)
    (fun _ _ he h => (authorized_step h he).1) es (historically_const.mpr hrange)

/-! ## How the torque moves -/

/-- A tick that publishes commands. -/
def Event.Publishes (cfg : Config) (s : State) : Event → Prop
  | .joy _ _ _ => False
  | .tick checked _ => ¬ watchdogTrips cfg s checked ∧ s.enabled = true

instance (cfg : Config) (s : State) : DecidablePred (Event.Publishes cfg s)
  | .joy _ _ _ => isFalse id
  | .tick checked _ => inferInstanceAs (Decidable (¬ watchdogTrips cfg s checked ∧ _))

/-- In a part of a run the watchdog does not trip, and every publishing tick finds the same
set-point. -/
def Steady (cfg : Config) (s : State) (setpoint : ℚ) (later : List Event) : Prop :=
  Historically (fun mid e =>
    ¬ e.Trips cfg ((teleop cfg).stateFrom s mid) ∧
      (e.Publishes cfg ((teleop cfg).stateFrom s mid) →
        ((teleop cfg).stateFrom s mid).steering = .finite setpoint)) later

instance (cfg : Config) (s : State) (setpoint : ℚ) (later : List Event) :
    Decidable (Steady cfg s setpoint later) := inferInstanceAs (Decidable (Historically _ _))

/-- Without a trip, an event sends the next average and stores it, or sends no torque and
leaves the average. -/
theorem torque_step (htrip : ¬ e.Trips cfg s) :
    (steeringTorques ((teleop cfg).emit s e) = [] ∧
        ((teleop cfg).next s e).steeringAverage = s.steeringAverage) ∨
      (e.Publishes cfg s ∧ steeringTorques ((teleop cfg).emit s e) = [nextAverage cfg s] ∧
        ((teleop cfg).next s e).steeringAverage = nextAverage cfg s) := by
  refine step_elim (P := fun t out =>
    (steeringTorques out = [] ∧ t.steeringAverage = s.steeringAverage) ∨
      (e.Publishes cfg s ∧ steeringTorques out = [nextAverage cfg s] ∧
        t.steeringAverage = nextAverage cfg s)) ?_
  intro t out hstep
  cases hstep with
  | rejected | arming | idle => exact .inl ⟨rfl, rfl⟩
  | waiting _ _ _ m => exact .inl ⟨steeringTorques_pullLogs m, rfl⟩
  | following _ _ _ m =>
    refine .inl ⟨?_, rfl⟩
    cases decision s m <;> rfl
  | tripping _ _ hwatch => exact absurd hwatch htrip
  | publishing _ _ hwatch hon => exact .inr ⟨⟨hwatch, hon⟩, rfl, rfl⟩

/-- While the set-point stands still the average and the torques sent approach it. -/
theorem torques_approach {average setpoint : ℚ} (haverage : s.steeringAverage = .finite average)
    {later : List Event} (hsteady : Steady cfg s setpoint later) :
    ∃ torques : List ℚ, steeringTorques ((teleop cfg).traceFrom s later) = torques.map .finite ∧
      (average :: torques).IsChain (Approaches (1 - cfg.smoothingFactor.1) setpoint) := by
  induction later generalizing s average with
  | nil => exact ⟨[], rfl, List.isChain_singleton _⟩
  | cons e later ih =>
    obtain ⟨⟨htrip, hsetpoint⟩, hrest⟩ := historically_cons.mp hsteady
    rcases torque_step (s := s) htrip with ⟨hsilent, hsame⟩ | ⟨hpublishes, hsent, hstored⟩
    · obtain ⟨torques, htrace, hchain⟩ := ih (hsame.trans haverage) hrest
      refine ⟨torques, ?_, hchain⟩
      rw [Machine.traceFrom_cons, steeringTorques_append, hsilent, htrace, List.nil_append]
    · have hnext := nextAverage_finite cfg haverage (hsetpoint hpublishes)
      obtain ⟨torques, htrace, hchain⟩ := ih (hstored.trans hnext) hrest
      refine ⟨_ :: torques, ?_, hchain.cons_cons (approaches_smooth cfg.smoothingFactor_nonneg
        cfg.smoothingFactor.2.2 average setpoint)⟩
      rw [Machine.traceFrom_cons, steeringTorques_append, hsent, hnext, htrace]
      rfl

/-- The gamepad never asks for more than the configured authority. In every run of messages
with their axes in range all commands are inside the maxima; in every part of it without a
watchdog trip in which the publishing ticks find the same set-point, the average it starts
with and the torques sent approach the set-point, each tick leaving `1 - smoothing_factor_`
of the way. -/
theorem authority_respected (cfg : Config) (es : List Event)
    (hrange : ∀ e ∈ es, e.AxesInRange) :
    (∀ o ∈ (teleop cfg).trace es, o.WithinAuthority cfg) ∧
      ∀ past later setpoint, past ++ later <+: es →
        Steady cfg ((teleop cfg).state past) setpoint later →
        ∃ average torques, ((teleop cfg).state past).steeringAverage = .finite average ∧
          steeringTorques ((teleop cfg).traceFrom ((teleop cfg).state past) later) =
            torques.map .finite ∧
          (average :: torques).IsChain
            (Approaches (1 - cfg.smoothingFactor.1) setpoint) := by
  constructor
  · rw [Machine.forall_mem_trace]
    intro past e hsplit
    have hpast (x : Event) (hx : x ∈ past) : x.AxesInRange :=
      hrange x (hsplit.subset (List.mem_append_left _ hx))
    exact (authorized_step (authorized_state cfg past hpast)
      (hrange e (hsplit.subset (by simp)))).2
  · intro past later setpoint hsplit hsteady
    have hpast (x : Event) (hx : x ∈ past) : x.AxesInRange :=
      hrange x (hsplit.subset (List.mem_append_left _ hx))
    obtain ⟨average, -, haverage⟩ :=
      Double.within_iff.mp (authorized_state cfg past hpast).average
    obtain ⟨torques, htrace, hchain⟩ := torques_approach haverage hsteady
    exact ⟨average, torques, haverage, htrace, hchain⟩

/-- Full stick, and two ticks that take the torque from 0 to -1/10 and on to -19/100. -/
theorem authority_respected_two_ticks :
    let es : List Event := [.joy (padJoy 1 1 0 0 0) 1000000000 1000000000,
      .joy (padJoy 1 1 1 0 1) 1020000000 1020000000, .tick 1030000000 1030000000,
      .tick 1050000000 1050000000]
    (∀ o ∈ (teleop .default).trace es, o.WithinAuthority .default) ∧
      ((teleop .default).state (es.take 2)).steeringAverage = .finite 0 ∧
      steeringTorques ((teleop .default).traceFrom ((teleop .default).state (es.take 2))
        (es.drop 2)) = [.finite (-1 / 10), .finite (-19 / 100)] ∧
      List.IsChain (Approaches (1 - 1 / 10 : ℚ) (-1)) [0, -1 / 10, -19 / 100] := by
  intro es
  obtain ⟨hall, hsteady⟩ := authority_respected .default es (by decide +kernel)
  obtain ⟨average, torques, haverage, htorques, hchain⟩ :=
    hsteady (es.take 2) (es.drop 2) (-1) (by simp) (by decide +kernel)
  have hstart : ((teleop .default).state (es.take 2)).steeringAverage = .finite 0 := by
    decide +kernel
  have hsent : steeringTorques ((teleop .default).traceFrom ((teleop .default).state (es.take 2))
      (es.drop 2)) = [.finite (-1 / 10), .finite (-19 / 100)] := by
    decide +kernel
  obtain rfl : average = 0 := Double.finite.inj (haverage.symm.trans hstart)
  have hlist : torques.map Double.finite = List.map Double.finite [-1 / 10, -19 / 100] :=
    htorques.symm.trans hsent
  obtain rfl : torques = [-1 / 10, -19 / 100] :=
    List.map_injective_iff.mpr (fun _ _ => Double.finite.inj) hlist
  exact ⟨hall, hstart, hsent, hchain⟩

end Roscco.Teleop
