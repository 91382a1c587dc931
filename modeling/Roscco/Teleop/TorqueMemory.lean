import Roscco.Teleop.Authority

/-!
# What the torque remembers

In exact arithmetic a published torque is the sum of what the stick has asked for at the
publishing ticks since the last watchdog trip, and what was asked for longer ago weighs less. The
rest of the past fades at the same rate: two nodes that differ only in their average publish
torques that come together.

## Main results

* `torque_remembers` — every torque as a weighted sum of stick positions.
* `torques_forget` — how fast two different pasts become the same.
-/

namespace Roscco.Teleop

open Library

variable {cfg : Config} {s t : State} {e : Event} {es : List Event}

/-! ## What the stick asked for -/

/-- The torque that the stick of the latest accepted message asks for. -/
def asked (cfg : Config) (past : List Event) : Option Double :=
  (accepted cfg past).head?.map fun x => steeringOf cfg x.sample

/-- A trip forgets all set-points, a publishing tick adds one. -/
def nextSetpoints (cfg : Config) (past : List Event) (setpoints : List Double) (e : Event) :
    List Double :=
  if e.Trips cfg ((teleop cfg).state past) then []
  else if e.Publishes cfg ((teleop cfg).state past) then (asked cfg past).toList ++ setpoints
  else setpoints

def setpointsFrom (cfg : Config) : List Event → List Double → List Event → List Double
  | _, setpoints, [] => setpoints
  | past, setpoints, e :: es =>
    setpointsFrom cfg (past ++ [e]) (nextSetpoints cfg past setpoints e) es

/-- What the stick has asked for at the publishing ticks since the last trip, the newest
first. -/
def setpoints (cfg : Config) (es : List Event) : List Double := setpointsFrom cfg [] [] es

theorem setpointsFrom_snoc (past : List Event) (setpoints : List Double) (es : List Event)
    (e : Event) : setpointsFrom cfg past setpoints (es ++ [e]) =
      nextSetpoints cfg (past ++ es) (setpointsFrom cfg past setpoints es) e := by
  induction es generalizing past setpoints with
  | nil => simp [setpointsFrom]
  | cons x es ih => simp [setpointsFrom, ih]

theorem setpoints_snoc (es : List Event) (e : Event) :
    setpoints cfg (es ++ [e]) = nextSetpoints cfg es (setpoints cfg es) e :=
  setpointsFrom_snoc [] [] es e

/-! ## The weighted sum -/

/-- One event does only one of the listed things. -/
theorem Step.eq_next {out : List Output} (h : Step cfg s e t out) :
    (teleop cfg).next s e = t ∧ (teleop cfg).emit s e = out := by
  refine step_elim (P := fun t' out' => t' = t ∧ out' = out) ?_
  intro t' out' h'
  cases h <;> cases h' <;> grind [watchdogTrips]

/-- A trip sends no torque and leaves the average at zero. -/
theorem torque_trip (htrip : e.Trips cfg s) :
    steeringTorques ((teleop cfg).emit s e) = [] ∧
      ((teleop cfg).next s e).steeringAverage = 0 := by
  cases e with
  | joy => exact absurd htrip id
  | tick checked stamp =>
    obtain ⟨hnext, hemit⟩ := (Step.tripping checked stamp htrip).eq_next
    rw [hnext, hemit]
    exact ⟨rfl, rfl⟩

/-- A publishing tick sends the next average and stores it. -/
theorem torque_publish (hpublishes : e.Publishes cfg s) :
    steeringTorques ((teleop cfg).emit s e) = [nextAverage cfg s] ∧
      ((teleop cfg).next s e).steeringAverage = nextAverage cfg s := by
  cases e with
  | joy => exact absurd hpublishes id
  | tick checked stamp =>
    obtain ⟨hnext, hemit⟩ := (Step.publishing checked stamp hpublishes.1 hpublishes.2).eq_next
    rw [hnext, hemit]
    exact ⟨rfl, rfl⟩

/-- Other events send no torque and leave the average as it is. -/
theorem torque_silent (htrip : ¬ e.Trips cfg s) (hpublishes : ¬ e.Publishes cfg s) :
    steeringTorques ((teleop cfg).emit s e) = [] ∧
      ((teleop cfg).next s e).steeringAverage = s.steeringAverage :=
  (torque_step htrip).resolve_right fun h => hpublishes h.1

/-- The average is the weighted sum of the set-points, all of them numbers. -/
def Remembers (cfg : Config) (es : List Event) (s : State) : Prop :=
  ∃ numbers : List ℚ, setpoints cfg es = numbers.map .finite ∧
    s.steeringAverage = .finite (fading cfg.smoothingFactor.1 numbers)

/-- A publishing tick averages what the stick asks for. -/
theorem asked_of_publishes (hpublishes : e.Publishes cfg ((teleop cfg).state es)) :
    asked cfg es = some ((teleop cfg).state es).steering := by
  cases e with
  | joy => exact absurd hpublishes id
  | tick =>
    obtain ⟨-, x, older, haccepted, -, -, -, hsteering⟩ := fresh_of_enabled cfg es hpublishes.2
    rw [asked, haccepted, hsteering]
    rfl

theorem remembers_step (hrange : ∀ e ∈ es, e.AxesInRange)
    (h : Remembers cfg es ((teleop cfg).state es)) :
    Remembers cfg (es ++ [e]) ((teleop cfg).next ((teleop cfg).state es) e) ∧
      ∀ torque ∈ steeringTorques ((teleop cfg).emit ((teleop cfg).state es) e),
        torque = ((teleop cfg).next ((teleop cfg).state es) e).steeringAverage := by
  obtain ⟨numbers, hnumbers, haverage⟩ := h
  rw [Remembers, setpoints_snoc, nextSetpoints]
  by_cases htrip : e.Trips cfg ((teleop cfg).state es)
  · obtain ⟨hsilent, hzero⟩ := torque_trip htrip
    rw [if_pos htrip, hsilent, hzero]
    exact ⟨⟨[], rfl, by simp⟩, by simp⟩
  rw [if_neg htrip]
  by_cases hpublishes : e.Publishes cfg ((teleop cfg).state es)
  · obtain ⟨hsent, hstored⟩ := torque_publish hpublishes
    obtain ⟨setpoint, -, hsetpoint⟩ :=
      Double.within_iff.mp (authorized_state cfg es hrange).steering
    rw [if_pos hpublishes, asked_of_publishes hpublishes, hsent, hstored,
      nextAverage_finite cfg haverage hsetpoint, ← fading_cons, hsetpoint, hnumbers]
    exact ⟨⟨setpoint :: numbers, rfl, rfl⟩, by simp⟩
  · obtain ⟨hsilent, hsame⟩ := torque_silent htrip hpublishes
    rw [if_neg hpublishes, hsilent, hsame]
    exact ⟨⟨numbers, hnumbers, haverage⟩, by simp⟩

theorem remembers_state (cfg : Config) (es : List Event) (hrange : ∀ e ∈ es, e.AxesInRange) :
    Remembers cfg es ((teleop cfg).state es) := by
  induction es using List.reverseRecOn with
  | nil => exact ⟨[], rfl, by simp [teleop]⟩
  | append_singleton es e ih =>
    have hpast (x : Event) (hx : x ∈ es) : x.AxesInRange := hrange x (List.mem_append_left _ hx)
    rw [Machine.state_snoc]
    exact (remembers_step hpast (ih hpast)).1

/-- Every published torque is the sum of what the stick of the latest message has asked for at
the publishing ticks since the last trip, the `k`th one before it weighing
`smoothing_factor_ * (1 - smoothing_factor_) ^ k`; nothing before the trip is left in it. -/
theorem torque_remembers (cfg : Config) (es : List Event) (hrange : ∀ e ∈ es, e.AxesInRange) :
    Historically (fun past e =>
      ∀ torque ∈ steeringTorques ((teleop cfg).emit ((teleop cfg).state past) e),
        ∃ numbers : List ℚ, setpoints cfg (past ++ [e]) = numbers.map .finite ∧
          torque = .finite (fading cfg.smoothingFactor.1 numbers)) es := by
  intro past e hsplit torque htorque
  have hpast (x : Event) (hx : x ∈ past) : x.AxesInRange :=
    hrange x (hsplit.subset (List.mem_append_left _ hx))
  obtain ⟨⟨numbers, hnumbers, haverage⟩, hstored⟩ :=
    remembers_step (e := e) hpast (remembers_state cfg past hpast)
  exact ⟨numbers, hnumbers, (hstored torque htorque).trans haverage⟩

/-- Full stick for one tick and a centred one for the next: of -1 there is 9/100 left. -/
theorem torque_remembers_centred :
    let past : List Event := [.joy (padJoy 1 1 0 0 0) 1000000000 1000000000,
      .joy (padJoy 1 1 1 0 1) 1020000000 1020000000, .tick 1030000000 1030000000,
      .joy (padJoy 1 1 0 0 1) 1040000000 1040000000]
    ∃ numbers : List ℚ,
      setpoints .default (past ++ [.tick 1050000000 1050000000]) = numbers.map .finite ∧
        Double.finite (-9 / 100) = .finite (fading (1 / 10) numbers) := by
  intro past
  exact torque_remembers .default (past ++ [.tick 1050000000 1050000000]) (by decide +kernel) past _
    List.prefix_rfl (.finite (-9 / 100)) (by decide +kernel)

/-! ## Two pasts -/

/-- The same state with another average. -/
def State.withAverage (s : State) (average : Double) : State :=
  { s with steeringAverage := average }

/-- The average has no say in anything but itself. -/
theorem next_withAverage (cfg : Config) (s : State) (average : Double) (e : Event) :
    ∃ average', (teleop cfg).next (s.withAverage average) e =
      ((teleop cfg).next s e).withAverage average' := by
  refine step_elim (P := fun t _ => ∃ average', (teleop cfg).next (s.withAverage average) e =
    t.withAverage average') ?_
  intro t out hstep
  cases hstep with
  | rejected joy received stamp hm =>
    exact ⟨average, (Step.rejected joy received stamp hm).eq_next.1⟩
  | waiting joy received stamp m hm hoff hparked =>
    exact ⟨average, (Step.waiting (s := s.withAverage average) joy received stamp m hm hoff
      hparked).eq_next.1⟩
  | arming joy received stamp m hm hoff hparked =>
    exact ⟨average, (Step.arming (s := s.withAverage average) joy received stamp m hm hoff
      hparked).eq_next.1⟩
  | following joy received stamp m hm harmed =>
    exact ⟨average, (Step.following (s := s.withAverage average) joy received stamp m hm
      harmed).eq_next.1⟩
  | tripping checked stamp htrip =>
    exact ⟨0, (Step.tripping (s := s.withAverage average) checked stamp htrip).eq_next.1⟩
  | publishing checked stamp htrip hon =>
    exact ⟨nextAverage cfg (s.withAverage average), (Step.publishing (s := s.withAverage average)
      checked stamp htrip hon).eq_next.1⟩
  | idle checked stamp hoff =>
    exact ⟨average, (Step.idle (s := s.withAverage average) checked stamp hoff).eq_next.1⟩

/-- Two nodes that differ only in their averages, and those not by more than a distance. -/
structure Alike (distance : ℚ) (s t : State) : Prop where
  rest : s.withAverage t.steeringAverage = t
  averages : ∃ x y, s.steeringAverage = .finite x ∧ t.steeringAverage = .finite y ∧
    |x - y| ≤ distance

theorem rest_next (cfg : Config) (h : s.withAverage t.steeringAverage = t) (e : Event) :
    ((teleop cfg).next s e).withAverage ((teleop cfg).next t e).steeringAverage =
      (teleop cfg).next t e := by
  obtain ⟨average, hnext⟩ := next_withAverage cfg s t.steeringAverage e
  rw [h] at hnext
  rw [hnext]
  rfl

/-- The torques of two nodes, and how close a step brings them. -/
theorem alike_step {distance : ℚ} (h : Alike distance s t) (hs : Authorized cfg s) (e : Event) :
    (steeringTorques ((teleop cfg).emit s e) = [] ∧ steeringTorques ((teleop cfg).emit t e) = [] ∧
        Alike distance ((teleop cfg).next s e) ((teleop cfg).next t e)) ∨
      ∃ x y, steeringTorques ((teleop cfg).emit s e) = [.finite x] ∧
        steeringTorques ((teleop cfg).emit t e) = [.finite y] ∧
        |x - y| ≤ (1 - cfg.smoothingFactor.1) * distance ∧
        Alike ((1 - cfg.smoothingFactor.1) * distance) ((teleop cfg).next s e)
          ((teleop cfg).next t e) := by
  obtain ⟨hrest, x, y, hx, hy, hxy⟩ := h
  have hnext := rest_next cfg hrest e
  have htrips : e.Trips cfg s ↔ e.Trips cfg t := by rw [← hrest]; cases e <;> rfl
  have hpublishes : e.Publishes cfg s ↔ e.Publishes cfg t := by rw [← hrest]; cases e <;> rfl
  have hsteering : t.steering = s.steering := by rw [← hrest]; rfl
  by_cases htrip : e.Trips cfg s
  · obtain ⟨hsilent, hzero⟩ := torque_trip htrip
    obtain ⟨hsilent', hzero'⟩ := torque_trip (htrips.mp htrip)
    refine .inl ⟨hsilent, hsilent', hnext, 0, 0, hzero, hzero', ?_⟩
    simpa using (abs_nonneg _).trans hxy
  by_cases hpublish : e.Publishes cfg s
  · obtain ⟨hsent, hstored⟩ := torque_publish hpublish
    obtain ⟨hsent', hstored'⟩ := torque_publish (hpublishes.mp hpublish)
    obtain ⟨setpoint, -, hsetpoint⟩ := Double.within_iff.mp hs.steering
    rw [nextAverage_finite cfg hx hsetpoint] at hsent hstored
    rw [nextAverage_finite cfg hy (hsteering.trans hsetpoint)] at hsent' hstored'
    have hcloser := abs_smooth_sub_smooth_le cfg.smoothingFactor.2.2 hxy setpoint
    exact .inr ⟨_, _, hsent, hsent', hcloser, hnext, _, _, hstored, hstored', hcloser⟩
  · obtain ⟨hsilent, hsame⟩ := torque_silent htrip hpublish
    obtain ⟨hsilent', hsame'⟩ :=
      torque_silent (fun h => htrip (htrips.mpr h)) fun h => hpublish (hpublishes.mpr h)
    exact .inl ⟨hsilent, hsilent', hnext, x, y, hsame.trans hx, hsame'.trans hy, hxy⟩

/-- What follows the same way from two nodes comes together. -/
theorem torques_merge {distance : ℚ} (h : Alike distance s t) (hs : Authorized cfg s)
    (later : List Event) (hrange : ∀ e ∈ later, e.AxesInRange) :
    ∃ xs ys : List ℚ, steeringTorques ((teleop cfg).traceFrom s later) = xs.map .finite ∧
      steeringTorques ((teleop cfg).traceFrom t later) = ys.map .finite ∧
      Merging (1 - cfg.smoothingFactor.1) distance xs ys := by
  induction later generalizing s t distance with
  | nil => exact ⟨[], [], rfl, rfl, merging_nil _ _⟩
  | cons e later ih =>
    have hnext := (authorized_step hs (hrange e List.mem_cons_self)).1
    have hlater (x : Event) (hx : x ∈ later) : x.AxesInRange :=
      hrange x (List.mem_cons_of_mem e hx)
    simp only [Machine.traceFrom_cons, steeringTorques_append]
    rcases alike_step h hs e with ⟨hsilent, hsilent', halike⟩ | ⟨x, y, hsent, hsent', hxy, halike⟩
    · obtain ⟨xs, ys, hxs, hys, hmerge⟩ := ih halike hnext hlater
      exact ⟨xs, ys, by rw [hsilent, hxs]; rfl, by rw [hsilent', hys]; rfl, hmerge⟩
    · obtain ⟨xs, ys, hxs, hys, hmerge⟩ := ih halike hnext hlater
      exact ⟨x :: xs, y :: ys, by rw [hsent, hxs]; rfl, by rw [hsent', hys]; rfl,
        .cons hxy hmerge⟩

/-- What happened before is forgotten: when two runs have left everything but the average alike,
the same events make both nodes publish the same number of torques, and the `k`th ones, counted
from zero, are at most `2 * max_steering_ * (1 - smoothing_factor_) ^ (k + 1)` apart. -/
theorem torques_forget (cfg : Config) (past past' later : List Event)
    (hrange : ∀ e ∈ past ++ past' ++ later, e.AxesInRange)
    (hrest : ((teleop cfg).state past).withAverage ((teleop cfg).state past').steeringAverage =
      (teleop cfg).state past') :
    ∃ xs ys : List ℚ,
      steeringTorques ((teleop cfg).traceFrom ((teleop cfg).state past) later) =
        xs.map .finite ∧
      steeringTorques ((teleop cfg).traceFrom ((teleop cfg).state past') later) =
        ys.map .finite ∧
      Merging (1 - cfg.smoothingFactor.1) (2 * cfg.maxSteering.1) xs ys := by
  simp only [List.mem_append, or_imp, forall_and] at hrange
  have hs := authorized_state cfg past hrange.1.1
  obtain ⟨x, hx, haverage⟩ := Double.within_iff.mp hs.average
  obtain ⟨y, hy, haverage'⟩ := Double.within_iff.mp (authorized_state cfg past' hrange.1.2).average
  have hxy : |x - y| ≤ 2 * cfg.maxSteering.1 := by
    rw [abs_le]
    constructor <;> linarith [hx.1, hx.2, hy.1, hy.2]
  exact torques_merge ⟨hrest, x, y, haverage, haverage', hxy⟩ hs later hrange.2

/-- One past with full stick and one without; the next two torques are 9/100 and 81/1000
apart. -/
theorem torques_forget_full_stick :
    let past (steeringStick : ℚ) : List Event := [.joy (padJoy 1 1 0 0 0) 1000000000 1000000000,
      .joy (padJoy 1 1 steeringStick 0 1) 1020000000 1020000000, .tick 1030000000 1030000000,
      .joy (padJoy 1 1 0 0 1) 1040000000 1040000000]
    let later : List Event := [.tick 1050000000 1050000000, .tick 1070000000 1070000000]
    ∃ xs ys : List ℚ,
      steeringTorques ((teleop .default).traceFrom ((teleop .default).state (past 1)) later) =
        xs.map .finite ∧
      steeringTorques ((teleop .default).traceFrom ((teleop .default).state (past 0)) later) =
        ys.map .finite ∧
      Merging (1 - 1 / 10) (2 * 1) xs ys := by
  intro past later
  exact torques_forget .default (past 1) (past 0) later (by decide +kernel) (by decide +kernel)

end Roscco.Teleop
