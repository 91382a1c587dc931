import Roscco.Teleop.Discipline

/-!
# Steering from rest

`steering_average_` is the only field that survives a disable. The watchdog resets it; a
BACK press does not, so the next engagement starts from the torque left over unless the
average happened to be zero. When no BACK press disables a node with a nonzero average,
an enabling joy message determines the whole state, and with it all that follows.
-/

namespace Roscco.Teleop

open Library

variable {cfg : Config} {s : State} {e : Event} {es : List Event}

/-- Averaging from rest is scaling. -/
theorem exponentialAverage_rest (setpoint : Double) (factor : ℚ) :
    exponentialAverage 0 setpoint factor = factor * setpoint := by
  simp [exponentialAverage, Double.mul_comm setpoint]

/-- The steering torques published in a trace. -/
def steeringTorques (os : List Output) : List Double :=
  os.filterMap fun | .steeringCommand _ torque => some torque | _ => none

@[simp] theorem steeringTorques_append (os ps : List Output) :
    steeringTorques (os ++ ps) = steeringTorques os ++ steeringTorques ps := List.filterMap_append

@[simp] theorem steeringTorques_pullLogs (m : Sample) : steeringTorques m.pullLogs = [] :=
  filterMap_pullLogs (fun _ => rfl) m

/-- This event turns control on. -/
def Enables (cfg : Config) (es : List Event) (e : Event) : Prop :=
  ((teleop cfg).state es).enabled = false ∧ ((teleop cfg).state (es ++ [e])).enabled = true

instance (cfg : Config) (es : List Event) (e : Event) : Decidable (Enables cfg es e) :=
  inferInstanceAs (Decidable (_ ∧ _))

/-- The first steering command after this event turns control on is the smoothing factor
times the set-point. -/
def StartsFromRest (cfg : Config) (es : List Event) (e : Event) : Prop :=
  Enables cfg es e → ∀ later checked stamp torque,
    let s := (teleop cfg).state (es ++ e :: later)
    steeringTorques ((teleop cfg).traceFrom ((teleop cfg).state es) (e :: later)) = [] →
    .steeringCommand stamp torque ∈ (teleop cfg).emit s (.tick checked stamp) →
    torque = cfg.smoothingFactor.1 * s.steering

/-- A BACK press that disables control finds the average at zero. -/
def DisablesAtRest (s : State) (cfg : Config) (e : Event) : Prop :=
  ∀ x ∈ e.received cfg, s.enabled = true → s.previousBack = 0 → x.sample.back ≠ 0 →
    s.steeringAverage = 0

instance (s : State) (cfg : Config) (e : Event) : Decidable (DisablesAtRest s cfg e) :=
  inferInstanceAs (Decidable (∀ x ∈ e.received cfg, _ → _ → _ → _))

theorem average_eq_zero_of_disabled (cfg : Config) (es : List Event)
    (along : Historically (fun past e => DisablesAtRest ((teleop cfg).state past) cfg e) es) :
    ((teleop cfg).state es).enabled = false → ((teleop cfg).state es).steeringAverage = 0 := by
  refine (teleop cfg).invariant_along
    (I := fun _ s => s.enabled = false → s.steeringAverage = 0) (fun _ => rfl) ?_ es along
  intro es e hrest ih
  refine step_elim (P := fun t _ => t.enabled = false → t.steeringAverage = 0) ?_
  intro t out hstep hoff
  cases hstep with
  | rejected | waiting | arming | idle => exact ih hoff
  | publishing _ _ _ hon => grind
  | tripping => rfl
  | following joy received stamp m hm =>
    cases hs : ((teleop cfg).state es).enabled with
    | false => exact ih hs
    | true =>
      -- only a fresh BACK press turns an enabled node off
      have hd : decision ((teleop cfg).state es) m = some false := by
        simp only [follow, hs] at hoff
        cases hd : decision ((teleop cfg).state es) m <;> simp_all
      obtain ⟨hback, hpressed⟩ := decision_eq_some_false.mp hd
      exact hrest ⟨received, m⟩ (by simp [Event.received, hm]) hs hback hpressed

/-- The event that turns control on is a joy message with a fresh START press, and leaves
a state that depends on the earlier one through the average only. -/
theorem Enables.follow (h : Enables cfg es e) :
    ∃ joy received stamp m, e = .joy joy received stamp ∧ joy.sample cfg = some m ∧
      (teleop cfg).state (es ++ [e]) =
        { follow cfg ((teleop cfg).state es) m received with armed := true, enabled := true } ∧
      (teleop cfg).emit ((teleop cfg).state es) e = decisionOutputs stamp (some true) := by
  obtain ⟨hoff, hon⟩ := h
  rw [Machine.state_snoc] at hon ⊢
  have hstep := step_spec cfg ((teleop cfg).state es) e
  generalize (teleop cfg).next ((teleop cfg).state es) e = t at hstep hon ⊢
  generalize (teleop cfg).emit ((teleop cfg).state es) e = out at hstep ⊢
  cases hstep with
  | following joy received stamp m hm harmed =>
    have hd : decision ((teleop cfg).state es) m = some true := by
      simp only [Teleop.follow, hoff] at hon
      cases hd : decision ((teleop cfg).state es) m <;> simp_all
    exact ⟨joy, received, stamp, m, rfl, hm, by simp [Teleop.follow, hd, harmed], by rw [hd]⟩
  | rejected | waiting | arming | publishing | idle => grind
  | tripping => simp [tripped] at hon

/-- An event that sends no steering command leaves a zero average at zero. -/
theorem average_stays_zero (hzero : s.steeringAverage = 0)
    (hsilent : steeringTorques ((teleop cfg).emit s e) = []) :
    ((teleop cfg).next s e).steeringAverage = 0 := by
  revert hsilent
  refine step_elim (P := fun t out => steeringTorques out = [] → t.steeringAverage = 0) ?_
  intro t out hstep hsilent
  cases hstep with
  | rejected | waiting | arming | following | idle => exact hzero
  | tripping => rfl
  | publishing => simp [steeringTorques] at hsilent

theorem average_stays_zero_run (later : List Event) (hzero : s.steeringAverage = 0)
    (hsilent : steeringTorques ((teleop cfg).traceFrom s later) = []) :
    ((teleop cfg).stateFrom s later).steeringAverage = 0 := by
  induction later generalizing s with
  | nil => exact hzero
  | cons e later ih =>
    simp only [Machine.traceFrom_cons, steeringTorques_append, List.append_eq_nil_iff] at hsilent
    exact ih (average_stays_zero hzero hsilent.1) hsilent.2

/-- In a run where no BACK press disables a moving average, every engagement starts from
rest, and repeats whatever another such run does from the same enabling message on. -/
theorem starts_from_rest_of_disables_at_rest (cfg : Config) (es : List Event)
    (along : Historically (fun past e => DisablesAtRest ((teleop cfg).state past) cfg e) es) :
    Historically (fun past e =>
      StartsFromRest cfg past e ∧
      (Enables cfg past e → ((teleop cfg).state (past ++ [e])).steeringAverage = 0) ∧
      ∀ other, Historically (fun past e => DisablesAtRest ((teleop cfg).state past) cfg e) other →
        Enables cfg past e → Enables cfg other e → ∀ later,
          (teleop cfg).traceFrom ((teleop cfg).state past) (e :: later) =
            (teleop cfg).traceFrom ((teleop cfg).state other) (e :: later)) es := by
  intro past e hprefix
  have hpast := along.before hprefix
  have hrest : Enables cfg past e → ((teleop cfg).state (past ++ [e])).steeringAverage = 0 := by
    intro hon
    obtain ⟨joy, received, stamp, m, -, -, hstate, -⟩ := hon.follow
    rw [hstate]
    exact average_eq_zero_of_disabled cfg past hpast hon.1
  refine ⟨?_, hrest, ?_⟩
  · intro hon later checked stamp torque s hsilent hmem
    have hsplit : s = (teleop cfg).stateFrom ((teleop cfg).state (past ++ [e])) later := by
      simp [s, Machine.state]
    have hzero : s.steeringAverage = 0 := by
      rw [hsplit]
      refine average_stays_zero_run later (hrest hon) ?_
      simp only [Machine.traceFrom_cons, steeringTorques_append, List.append_eq_nil_iff] at hsilent
      rw [Machine.state_snoc]
      exact hsilent.2
    obtain ⟨_, _, _, -, -, hemit⟩ := emit_of_isCommand hmem rfl
    rw [hemit] at hmem
    have htorque : torque = nextAverage cfg s := by
      simp only [List.mem_cons, Output.steeringCommand.injEq, reduceCtorEq, false_or,
        List.not_mem_nil, or_false] at hmem
      exact hmem.2
    rw [htorque, nextAverage, hzero, exponentialAverage_rest]
  · intro other hother hon hon' later
    obtain ⟨joy, received, stamp, m, rfl, hm, hstate, hemit⟩ := hon.follow
    obtain ⟨joy', received', stamp', m', heq, hm', hstate', hemit'⟩ := hon'.follow
    obtain ⟨rfl, rfl, rfl⟩ : joy = joy' ∧ received = received' ∧ stamp = stamp' := by
      simpa using heq
    obtain rfl : m = m' := Option.some.inj (hm.symm.trans hm')
    have hsame : (teleop cfg).next ((teleop cfg).state past) (.joy joy received stamp) =
        (teleop cfg).next ((teleop cfg).state other) (.joy joy received stamp) := by
      rw [← Machine.state_snoc, ← Machine.state_snoc, hstate, hstate']
      simp only [follow]
      rw [average_eq_zero_of_disabled cfg past hpast hon.1,
        average_eq_zero_of_disabled cfg other hother hon'.1]
    rw [Machine.traceFrom_cons, Machine.traceFrom_cons, hemit, hemit', hsame]

/-- A watchdog trip between two engagements: the second starts from rest again. -/
theorem starts_from_rest_of_disables_at_rest_after_trip :
    ((teleop Config.default).state
      ([.joy (padJoy 1 1 0 0 0) 1000000000 1000000000,
        .joy (padJoy 1 1 (-1) 0 1) 1100000000 1100000000, .tick 1110000000 1110000000,
        .tick 5000000000 5000000000, .joy (padJoy 1 1 0 0 0) 9000000000 9000000000,
        .joy (padJoy 1 1 0 0 0) 9050000000 9050000000] ++
        [.joy (padJoy 1 1 (-1) 0 1) 9100000000 9100000000])).steeringAverage = 0 :=
  (starts_from_rest_of_disables_at_rest Config.default
    [.joy (padJoy 1 1 0 0 0) 1000000000 1000000000,
      .joy (padJoy 1 1 (-1) 0 1) 1100000000 1100000000, .tick 1110000000 1110000000,
      .tick 5000000000 5000000000, .joy (padJoy 1 1 0 0 0) 9000000000 9000000000,
      .joy (padJoy 1 1 0 0 0) 9050000000 9050000000,
      .joy (padJoy 1 1 (-1) 0 1) 9100000000 9100000000]
    (by decide +kernel) _ _ (by simp)).2.1 (by decide +kernel)

/-- Full stick, one tick, BACK, START: the next torque is 0.19, not 0.1. -/
theorem not_starts_from_rest : ¬ ∀ cfg es e, StartsFromRest cfg es e := by
  intro h
  have htorque := h Config.default
    [.joy (padJoy 1 1 0 0 0) 1000000000 1000000000,
      .joy (padJoy 1 1 1 0 1) 1020000000 1020000000, .tick 1030000000 1030000000,
      .joy (padJoy 1 1 1 1 0) 1040000000 1040000000]
    (.joy (padJoy 1 1 1 0 1) 1060000000 1060000000) (by decide +kernel)
    [] 1070000000 1070000000 (.finite (-19 / 100)) (by decide +kernel) (by decide +kernel)
  revert htorque
  decide +kernel

end Roscco.Teleop
