import Roscco.Library.TimedLog
import Roscco.Teleop.Basic

/-!
# What one callback of the teleop node can do

An accepted joy message matters only through the five readings at the configured
indices, its sample. `Step` lists everything one event can do; `step_spec` says that the
node does nothing else, so the invariants of the node never unfold its callbacks.
-/

namespace Roscco.Teleop

open Library

/-! ## Samples -/

/-- The five configured readings of an accepted joy message. -/
structure Sample where
  brakeTrigger : Double
  throttleTrigger : Double
  steeringStick : Double
  back : Int
  start : Int
  deriving DecidableEq, Repr

/-- The readings of a joy message that passes the length check. -/
def Joy.sample (joy : Joy) (cfg : Config) : Option Sample :=
  if joy.tooShort cfg then none
  else do
    let brakeTrigger ← joy.axis cfg.brakeAxis.1
    let throttleTrigger ← joy.axis cfg.throttleAxis.1
    let steeringStick ← joy.axis cfg.steeringAxis.1
    let back ← joy.button cfg.backButton.1
    let start ← joy.button cfg.startButton.1
    pure ⟨brakeTrigger, throttleTrigger, steeringStick, back, start⟩

/-- Both triggers are pulled to the parked end. -/
def Sample.Parked (m : Sample) : Prop :=
  kParkedThreshold < m.brakeTrigger ∧ kParkedThreshold < m.throttleTrigger

instance (m : Sample) : Decidable m.Parked := inferInstanceAs (Decidable (_ ∧ _))

theorem toInt_le (size : Nat) : toInt size ≤ size := by
  unfold toInt
  rcases Nat.lt_or_ge size (2 ^ 31) with h | h
  · rw [Int.bmod_eq_of_le (by omega) (by omega)]
  · have hle := @Int.bmod_le size (2 ^ 32) (by decide)
    omega

/-- Past the length check every configured axis is inside its array. -/
theorem Joy.axis_isSome {joy : Joy} {cfg : Config} (h : ¬ joy.tooShort cfg) {index : Int}
    (h0 : 0 ≤ index) (hmax : index ≤ cfg.maxAxis) : ∃ v, joy.axis index = some v := by
  have hsize := toInt_le joy.axes.length
  have hlt : index.toNat < joy.axes.length := by
    simp only [tooShort, not_or] at h
    omega
  exact ⟨joy.axes[index.toNat], List.getElem?_eq_getElem hlt⟩

theorem Joy.button_isSome {joy : Joy} {cfg : Config} (h : ¬ joy.tooShort cfg) {index : Int}
    (h0 : 0 ≤ index) (hmax : index ≤ cfg.maxButton) : ∃ v, joy.button index = some v := by
  have hsize := toInt_le joy.buttons.length
  have hlt : index.toNat < joy.buttons.length := by
    simp only [tooShort, not_or] at h
    omega
  exact ⟨joy.buttons[index.toNat], List.getElem?_eq_getElem hlt⟩

/-- The reads of an accepted message, all of them inside the arrays. -/
structure Joy.Reads (joy : Joy) (cfg : Config) (m : Sample) : Prop where
  accepted : ¬ joy.tooShort cfg
  brakeTrigger : joy.axis cfg.brakeAxis.1 = some m.brakeTrigger
  throttleTrigger : joy.axis cfg.throttleAxis.1 = some m.throttleTrigger
  steeringStick : joy.axis cfg.steeringAxis.1 = some m.steeringStick
  back : joy.button cfg.backButton.1 = some m.back
  start : joy.button cfg.startButton.1 = some m.start

theorem Joy.exists_reads {joy : Joy} {cfg : Config} (h : ¬ joy.tooShort cfg) :
    ∃ m, joy.Reads cfg m := by
  obtain ⟨b, hb⟩ := axis_isSome h cfg.brakeAxis.2.1
    ((le_max_left _ _).trans (le_max_left _ _))
  obtain ⟨t, ht⟩ := axis_isSome h cfg.throttleAxis.2.1
    ((le_max_right _ _).trans (le_max_left _ _))
  obtain ⟨v, hv⟩ := axis_isSome h cfg.steeringAxis.2.1 (le_max_right _ _)
  obtain ⟨back, hback⟩ := button_isSome h cfg.backButton.2.1 (le_max_right _ _)
  obtain ⟨start, hstart⟩ := button_isSome h cfg.startButton.2.1 (le_max_left _ _)
  exact ⟨⟨b, t, v, back, start⟩, h, hb, ht, hv, hback, hstart⟩

theorem Joy.Reads.sample_eq {joy : Joy} {cfg : Config} {m : Sample} (h : joy.Reads cfg m) :
    joy.sample cfg = some m := by
  simp [sample, h.accepted, h.brakeTrigger, h.throttleTrigger, h.steeringStick, h.back, h.start]

theorem Joy.reads_of_sample {joy : Joy} {cfg : Config} {m : Sample}
    (h : joy.sample cfg = some m) : joy.Reads cfg m := by
  have haccepted : ¬ joy.tooShort cfg := fun hshort => by simp [sample, hshort] at h
  obtain ⟨m', hm'⟩ := exists_reads haccepted
  obtain rfl : m' = m := Option.some.inj (hm'.sample_eq.symm.trans h)
  exact hm'

theorem Joy.sample_eq_none {joy : Joy} {cfg : Config} (h : joy.tooShort cfg) :
    joy.sample cfg = none := by
  simp [sample, h]

/-- A message of the gamepad that the default indices are made for. -/
def padJoy (brakeTrigger throttleTrigger steeringStick : ℚ) (back start : Int) : Joy where
  axes := [.finite steeringStick, 0, .finite brakeTrigger, 0, 0, .finite throttleTrigger]
  buttons := [0, 0, 0, 0, 0, 0, back, start]

/-! ## The steps -/

/-- The log lines of an accepted message that leaves the triggers unarmed. -/
def Sample.pullLogs (m : Sample) : List Output :=
  (if m.brakeTrigger ≤ kParkedThreshold then [.log .pullBrakeTrigger] else []) ++
    (if m.throttleTrigger ≤ kParkedThreshold then [.log .pullThrottleTrigger] else [])

/-- The command fields that an armed node takes from a sample. -/
def brakeOf (cfg : Config) (m : Sample) : Double :=
  cfg.maxBrake.1 * linearTransform m.brakeTrigger kTriggerMax kTriggerMin 1 0

def throttleOf (cfg : Config) (m : Sample) : Double :=
  cfg.maxThrottle.1 * linearTransform m.throttleTrigger kTriggerMax kTriggerMin 1 0

def steeringOf (cfg : Config) (m : Sample) : Double :=
  cfg.maxSteering.1 * linearTransform m.steeringStick kStickMax kStickMin 1 (-1)

/-- What the edge detector makes of a sample: a fresh BACK press wins over a fresh START. -/
def decision (s : State) (m : Sample) : Option Bool :=
  if s.previousBack = 0 ∧ m.back ≠ 0 then some false
  else if s.previousStart = 0 ∧ m.start ≠ 0 then some true
  else none

/-- The state of an armed node after an accepted message. -/
def follow (cfg : Config) (s : State) (m : Sample) (received : Time) : State where
  brake := brakeOf cfg m
  throttle := throttleOf cfg m
  steering := steeringOf cfg m
  steeringAverage := s.steeringAverage
  armed := s.armed
  enabled := (decision s m).getD s.enabled
  previousStart := m.start
  previousBack := m.back
  lastJoy := received

/-- What `setEnabled` sends, if it is called. -/
def decisionOutputs (stamp : Time) : Option Bool → List Output
  | none => []
  | some enable => [.enableDisable stamp enable, .log (.control enable)]

theorem mem_pullLogs {m : Sample} {o : Output} (h : o ∈ m.pullLogs) :
    o = .log .pullBrakeTrigger ∨ o = .log .pullThrottleTrigger := by
  simp only [Sample.pullLogs, List.mem_append] at h
  rcases h with h | h <;> split at h <;> simp_all

/-- A view of the outputs that drops log lines sees nothing in a message that is waited for. -/
theorem filterMap_pullLogs {V : Type} {f : Output → Option V} (hlog : ∀ line, f (.log line) = none)
    (m : Sample) : m.pullLogs.filterMap f = [] := by
  simp only [Sample.pullLogs, List.filterMap_append]
  split <;> split <;> simp [hlog]

theorem decision_eq_some_false {s : State} {m : Sample} :
    decision s m = some false ↔ s.previousBack = 0 ∧ m.back ≠ 0 := by
  unfold decision
  split
  · next h => simp [h]
  · next h => split <;> simp [h]

theorem decision_eq_some_true {s : State} {m : Sample} :
    decision s m = some true ↔
      ¬ (s.previousBack = 0 ∧ m.back ≠ 0) ∧ s.previousStart = 0 ∧ m.start ≠ 0 := by
  unfold decision
  split
  · next h => simp [h]
  · next h => split <;> simp_all

theorem mem_decisionOutputs {stamp stamp' : Time} {enable : Bool} {d : Option Bool} :
    .enableDisable stamp' enable ∈ decisionOutputs stamp d ↔ d = some enable ∧ stamp' = stamp := by
  cases d <;> simp [decisionOutputs, eq_comm, and_comm]

/-- The state after a watchdog trip. -/
def tripped (s : State) : State :=
  { s with
    brake := 0, throttle := 0, steering := 0, steeringAverage := 0, armed := false
    enabled := false }

/-- The average that a publishing tick stores and sends. -/
def nextAverage (cfg : Config) (s : State) : Double :=
  exponentialAverage s.steeringAverage s.steering cfg.smoothingFactor.1

/-- Everything one event can do to the node. -/
inductive Step (cfg : Config) (s : State) : Event → State → List Output → Prop where
  | rejected (joy : Joy) (received stamp : Time) : joy.sample cfg = none →
      Step cfg s (.joy joy received stamp) s
        [.log (.notEnough joy.axes.length joy.buttons.length)]
  | waiting (joy : Joy) (received stamp : Time) (m : Sample) : joy.sample cfg = some m →
      s.armed = false → ¬ m.Parked →
      Step cfg s (.joy joy received stamp) { s with lastJoy := received } m.pullLogs
  | arming (joy : Joy) (received stamp : Time) (m : Sample) : joy.sample cfg = some m →
      s.armed = false → m.Parked →
      Step cfg s (.joy joy received stamp) { s with lastJoy := received, armed := true }
        [.log .triggersArmed]
  | following (joy : Joy) (received stamp : Time) (m : Sample) : joy.sample cfg = some m →
      s.armed = true →
      Step cfg s (.joy joy received stamp) (follow cfg s m received)
        (decisionOutputs stamp (decision s m))
  | tripping (checked stamp : Time) : watchdogTrips cfg s checked →
      Step cfg s (.tick checked stamp) (tripped s)
        [.log .joyTimedOut, .enableDisable stamp false, .log (.control false)]
  | publishing (checked stamp : Time) : ¬ watchdogTrips cfg s checked → s.enabled = true →
      Step cfg s (.tick checked stamp) { s with steeringAverage := nextAverage cfg s }
        [.brakeCommand stamp s.brake, .throttleCommand stamp s.throttle,
          .steeringCommand stamp (nextAverage cfg s)]
  | idle (checked stamp : Time) : s.enabled = false → Step cfg s (.tick checked stamp) s []

theorem joyUnarmed_eq {joy : Joy} {cfg : Config} {m : Sample} (h : joy.Reads cfg m) (s : State) :
    joyUnarmed cfg s joy =
      some (if m.Parked then ({ s with armed := true }, [.log .triggersArmed])
        else (s, m.pullLogs)) := by
  simp only [joyUnarmed, h.brakeTrigger, h.throttleTrigger, Option.bind_eq_bind, Option.bind_some,
    Sample.Parked]
  split
  · next h => simp [h]
  · next h => simp [h, Sample.pullLogs]

theorem joyArmed_eq {joy : Joy} {cfg : Config} {m : Sample} (h : joy.Reads cfg m) (s : State)
    (received stamp : Time) :
    joyArmed cfg { s with lastJoy := received } joy stamp =
      some (follow cfg s m received, decisionOutputs stamp (decision s m)) := by
  simp only [joyArmed, h.brakeTrigger, h.throttleTrigger, h.steeringStick, h.back, h.start,
    Option.bind_eq_bind, Option.bind_some, decision, follow]
  split
  · rfl
  · split <;> rfl

theorem joyCallback_spec (cfg : Config) (s : State) (joy : Joy) (received stamp : Time) :
    ∃ t out, joyCallback cfg s joy received stamp = some (t, out) ∧
      Step cfg s (.joy joy received stamp) t out := by
  by_cases hshort : joy.tooShort cfg
  · exact ⟨s, _, by simp only [joyCallback, hshort, if_true],
      .rejected joy received stamp (Joy.sample_eq_none hshort)⟩
  · obtain ⟨m, hm⟩ := Joy.exists_reads hshort
    cases harmed : s.armed with
    | true =>
      refine ⟨_, _, ?_, .following joy received stamp m hm.sample_eq harmed⟩
      simp only [joyCallback, hshort, if_false, harmed, if_true]
      have heq := joyArmed_eq hm s received stamp
      simpa only [harmed] using heq
    | false =>
      have heq := joyUnarmed_eq hm { s with lastJoy := received }
      by_cases hparked : m.Parked
      · refine ⟨_, _, ?_, .arming joy received stamp m hm.sample_eq harmed hparked⟩
        simpa [joyCallback, hshort, harmed, hparked] using heq
      · refine ⟨_, _, ?_, .waiting joy received stamp m hm.sample_eq harmed hparked⟩
        simpa [joyCallback, hshort, harmed, hparked] using heq

/-- One event does one of the listed things, and never reads past a joy array. -/
theorem step_spec (cfg : Config) (s : State) (e : Event) :
    Step cfg s e ((teleop cfg).next s e) ((teleop cfg).emit s e) := by
  cases e with
  | joy joy received stamp =>
    obtain ⟨t, out, heq, hstep⟩ := joyCallback_spec cfg s joy received stamp
    simpa [teleop, Machine.next, Machine.emit, step, heq] using hstep
  | tick checked stamp =>
    by_cases htrip : watchdogTrips cfg s checked
    · have hstep : publishCommands cfg s checked stamp = (tripped s,
          [.log .joyTimedOut, .enableDisable stamp false, .log (.control false)]) := by
        simp [publishCommands, htrip, timeOut, setEnabled, tripped]
      simpa [teleop, Machine.next, Machine.emit, step, hstep] using
        Step.tripping checked stamp htrip
    · cases henabled : s.enabled with
      | true =>
        have hstep : publishCommands cfg s checked stamp =
            ({ s with steeringAverage := nextAverage cfg s },
              [.brakeCommand stamp s.brake, .throttleCommand stamp s.throttle,
                .steeringCommand stamp (nextAverage cfg s)]) := by
          simp [publishCommands, htrip, henabled, nextAverage]
        simpa only [teleop, Machine.next, Machine.emit, step, hstep] using
          Step.publishing checked stamp htrip henabled
      | false =>
        have hstep : publishCommands cfg s checked stamp = (s, []) := by
          simp [publishCommands, htrip, henabled]
        simpa [teleop, Machine.next, Machine.emit, step, hstep] using
          Step.idle checked stamp henabled

/-- Case analysis on one event: what holds of every listed step holds of the node's. -/
theorem step_elim {cfg : Config} {s : State} {e : Event} {P : State → List Output → Prop}
    (h : ∀ t out, Step cfg s e t out → P t out) :
    P ((teleop cfg).next s e) ((teleop cfg).emit s e) :=
  h _ _ (step_spec cfg s e)

/-! ## The accepted messages of a run -/

/-- An accepted joy message and the clock reading that `last_joy_` took from it. -/
structure Received where
  time : Time
  sample : Sample
  deriving DecidableEq, Repr

def Event.received (cfg : Config) : Event → Option Received
  | .joy message received _ => (message.sample cfg).map (⟨received, ·⟩)
  | .tick _ _ => none

/-- The accepted joy messages of a run, the newest first. -/
def accepted (cfg : Config) (es : List Event) : List Received :=
  (es.filterMap (Event.received cfg)).reverse

@[simp] theorem accepted_nil (cfg : Config) : accepted cfg [] = [] := rfl

theorem accepted_snoc (cfg : Config) (es : List Event) (e : Event) :
    accepted cfg (es ++ [e]) = (e.received cfg).toList ++ accepted cfg es := by
  cases h : e.received cfg <;> simp [accepted, h]

@[simp] theorem accepted_snoc_tick (cfg : Config) (es : List Event) (checked stamp : Time) :
    accepted cfg (es ++ [.tick checked stamp]) = accepted cfg es := by
  simp [accepted_snoc, Event.received]

theorem accepted_snoc_rejected {cfg : Config} {joy : Joy} (h : joy.sample cfg = none)
    (es : List Event) (received stamp : Time) :
    accepted cfg (es ++ [.joy joy received stamp]) = accepted cfg es := by
  simp [accepted_snoc, Event.received, h]

theorem accepted_snoc_joy {cfg : Config} {joy : Joy} {m : Sample} (h : joy.sample cfg = some m)
    (es : List Event) (received stamp : Time) :
    accepted cfg (es ++ [.joy joy received stamp]) = ⟨received, m⟩ :: accepted cfg es := by
  simp [accepted_snoc, Event.received, h]

end Roscco.Teleop
