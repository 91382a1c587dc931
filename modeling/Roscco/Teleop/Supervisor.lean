import Roscco.Library.Component
import Roscco.Teleop.LastCommands

/-!
# The supervisor inside the teleop node

Who is in control is decided by three modes, two remembered buttons and the time of the last
joy message. The node is that state machine with amounts attached: how far a trigger is
pulled, where the stick stands, the maxima and the smoothing reach the values of commands and
nothing else.

## Main results

* `teleop_supervised` — the node switches as the supervisor does, at the same moments.
* `amounts_never_switch` — runs that differ only in amounts switch alike.
-/

namespace Roscco.Teleop

open Library

variable {cfg : Config} {s : State} {e : Event}

/-! ## The supervisor -/

inductive Mode where
  | disarmed
  | armed
  | enabled
  deriving DecidableEq, Repr

structure Supervisor where
  mode : Mode := .disarmed
  backHeld : Bool := false
  startHeld : Bool := false
  lastJoy : Time := 0
  deriving DecidableEq, Repr

/-- What the supervisor sees of an event: switches, not amounts. -/
inductive Signal where
  | pad (parked back start : Bool) (received stamp : Time)
  | tick (checked stamp : Time)
  deriving DecidableEq, Repr

/-- What the supervisor decides: a message to OSCC, or that a command is due on a topic. -/
inductive Decision where
  | control (stamp : Time) (enable : Bool)
  | command (topic : Topic) (stamp : Time)
  deriving DecidableEq, Repr

/-- The supervisor has heard of the gamepad, but not for longer than the timeout. -/
def Supervisor.Lost (timeout : ℚ) (s : Supervisor) (checked : Time) : Prop :=
  0 < s.lastJoy ∧ .finite timeout < seconds (checked - s.lastJoy)

instance (timeout : ℚ) (s : Supervisor) (checked : Time) : Decidable (s.Lost timeout checked) :=
  inferInstanceAs (Decidable (_ ∧ _))

/-- Buttons count when they are pressed anew, BACK before START, and only once armed. -/
def Supervisor.press (s : Supervisor) (back start : Bool) (received stamp : Time) :
    Supervisor × List Decision :=
  let s' : Supervisor := ⟨s.mode, back, start, received⟩
  if s.backHeld = false ∧ back = true then ({ s' with mode := .armed }, [.control stamp false])
  else if s.startHeld = false ∧ start = true then
    ({ s' with mode := .enabled }, [.control stamp true])
  else (s', [])

def Supervisor.step (timeout : ℚ) (s : Supervisor) : Signal → Supervisor × List Decision
  | .pad parked back start received stamp =>
    match s.mode with
    | .disarmed =>
      ({ s with mode := if parked then .armed else .disarmed, lastJoy := received }, [])
    | .armed | .enabled => s.press back start received stamp
  | .tick checked stamp =>
    match s.mode with
    | .disarmed | .armed => (s, [])
    | .enabled =>
      if s.Lost timeout checked then ({ s with mode := .disarmed }, [.control stamp false])
      else (s, [.command .brake stamp, .command .throttle stamp, .command .steering stamp])

def supervisor (timeout : ℚ) : Machine Supervisor Signal Decision where
  init := {}
  step := Supervisor.step timeout

/-! ## The node seen by the supervisor -/

/-- A state without its amounts. -/
def State.supervision (s : State) : Supervisor where
  mode := if s.enabled then .enabled else if s.armed then .armed else .disarmed
  backHeld := s.previousBack ≠ 0
  startHeld := s.previousStart ≠ 0
  lastJoy := s.lastJoy

def Sample.signal (m : Sample) (received stamp : Time) : Signal :=
  .pad m.Parked (m.back ≠ 0) (m.start ≠ 0) received stamp

/-- An event without its amounts; a rejected joy message is not seen at all. -/
def Event.signal (cfg : Config) : Event → Option Signal
  | .joy message received stamp => (message.sample cfg).map (·.signal received stamp)
  | .tick checked stamp => some (.tick checked stamp)

/-- An output without its amount; log lines are not seen. -/
def Output.decision : Output → Option Decision
  | .enableDisable stamp enableControl => some (.control stamp enableControl)
  | .brakeCommand stamp _ => some (.command .brake stamp)
  | .throttleCommand stamp _ => some (.command .throttle stamp)
  | .steeringCommand stamp _ => some (.command .steering stamp)
  | .log _ | .undefinedRead => none

/-- What a run of the node looks like to the supervisor. -/
def signals (cfg : Config) (es : List Event) : List Signal := es.filterMap (Event.signal cfg)

def decisions (os : List Output) : List Decision := os.filterMap Output.decision

@[simp] theorem decisions_pullLogs (m : Sample) : decisions m.pullLogs = [] :=
  filterMap_pullLogs (fun _ => rfl) m

@[simp] theorem decisions_decisionOutputs (stamp : Time) (d : Option Bool) :
    decisions (decisionOutputs stamp d) = (d.map (Decision.control stamp)).toList := by
  cases d <;> rfl

theorem mode_enabled (hon : s.enabled = true) : s.supervision.mode = .enabled := by
  simp [State.supervision, hon]

theorem mode_armed (hoff : s.enabled = false) (harmed : s.armed = true) :
    s.supervision.mode = .armed := by
  simp [State.supervision, hoff, harmed]

theorem mode_disarmed (hoff : s.enabled = false) (harmed : s.armed = false) :
    s.supervision.mode = .disarmed := by
  simp [State.supervision, hoff, harmed]

/-- A trip is one change of mode. -/
@[simp] theorem supervision_tripped (s : State) :
    (tripped s).supervision = { s.supervision with mode := .disarmed } := rfl

/-- An armed node follows a message as the supervisor does a press. -/
theorem press_follow (harmed : s.armed = true) (m : Sample) (received stamp : Time) :
    s.supervision.press (m.back ≠ 0) (m.start ≠ 0) received stamp =
      ((follow cfg s m received).supervision,
        decisions (decisionOutputs stamp (decision s m))) := by
  have hback : (s.supervision.backHeld = false ∧ decide (m.back ≠ 0) = true) ↔
      s.previousBack = 0 ∧ m.back ≠ 0 := by simp [State.supervision]
  have hstart : (s.supervision.startHeld = false ∧ decide (m.start ≠ 0) = true) ↔
      s.previousStart = 0 ∧ m.start ≠ 0 := by simp [State.supervision]
  simp only [Supervisor.press, hback, hstart, decisions_decisionOutputs, decision, follow]
  split
  · simp [State.supervision, harmed]
  · split
    · simp [State.supervision]
    · simp [State.supervision]

/-- The watchdog trips when the supervisor has lost an enabled gamepad. -/
theorem watchdogTrips_iff {checked : Time} :
    watchdogTrips cfg s checked ↔
      s.enabled = true ∧ s.supervision.Lost cfg.joyTimeoutS.1 checked := Iff.rfl

/-- A signal with the same effect explains the event. -/
theorem supervision_of_signal {timeout : ℚ} {t : State} {out : List Output} {signal : Signal}
    (hsignal : e.signal cfg = some signal)
    (hstep : Supervisor.step timeout s.supervision signal = (t.supervision, decisions out)) :
    t.supervision = (supervisor timeout).stateFrom s.supervision (e.signal cfg).toList ∧
      decisions out = (supervisor timeout).traceFrom s.supervision (e.signal cfg).toList := by
  simp [hsignal, Machine.next, Machine.emit, supervisor, hstep]

/-- One event of the node is what the supervisor does on the event that it sees. -/
theorem supervision_step (cfg : Config) (s : State) (e : Event)
    (hinv : s.enabled = true → s.armed = true) :
    ((teleop cfg).next s e).supervision =
        (supervisor cfg.joyTimeoutS.1).stateFrom s.supervision (e.signal cfg).toList ∧
      decisions ((teleop cfg).emit s e) =
        (supervisor cfg.joyTimeoutS.1).traceFrom s.supervision (e.signal cfg).toList := by
  refine step_elim (P := fun t out =>
    t.supervision = (supervisor _).stateFrom s.supervision (e.signal cfg).toList ∧
      decisions out = (supervisor _).traceFrom s.supervision (e.signal cfg).toList) ?_
  intro t out hstep
  cases hstep with
  | rejected _ _ _ hm => simp [Event.signal, hm, decisions, Output.decision]
  | waiting _ _ _ m hm hunarmed hparked =>
    have hoff : s.enabled = false := by grind
    apply supervision_of_signal (by simp [Event.signal, hm]; rfl)
    simp [Supervisor.step, Sample.signal, State.supervision, hoff, hunarmed, hparked]
  | arming _ _ _ m hm hunarmed hparked =>
    have hoff : s.enabled = false := by grind
    apply supervision_of_signal (by simp [Event.signal, hm]; rfl)
    simp [Supervisor.step, Sample.signal, State.supervision, hoff, hunarmed, hparked, decisions,
      Output.decision]
  | following _ received stamp m hm harmed =>
    apply supervision_of_signal (by simp [Event.signal, hm]; rfl)
    rw [← press_follow harmed]
    cases hon : s.enabled with
    | true => simp [Supervisor.step, Sample.signal, mode_enabled hon]
    | false => simp [Supervisor.step, Sample.signal, mode_armed hon harmed]
  | tripping checked stamp hwatch =>
    obtain ⟨hon, hlost⟩ := watchdogTrips_iff.mp hwatch
    apply supervision_of_signal rfl
    simp only [Supervisor.step, mode_enabled hon, hlost, if_true, supervision_tripped]
    rfl
  | publishing checked stamp hwatch hon =>
    have hlost : ¬ s.supervision.Lost cfg.joyTimeoutS.1 checked :=
      fun hlost => hwatch (watchdogTrips_iff.mpr ⟨hon, hlost⟩)
    apply supervision_of_signal rfl
    simp only [Supervisor.step, mode_enabled hon, hlost, if_false]
    rfl
  | idle checked stamp hoff =>
    apply supervision_of_signal rfl
    cases harmed : s.armed with
    | true => simp [Supervisor.step, mode_armed hoff harmed, decisions]
    | false => simp [Supervisor.step, mode_disarmed hoff harmed, decisions]

/-! ## Whole runs -/

/-- The supervisor runs inside the node, on the signals that the node's events pass on. -/
theorem supervision_run (cfg : Config) (es : List Event) :
    let passed := (teleop cfg).passed (fun _ e => (e.signal cfg).toList) (teleop cfg).init es
    ((teleop cfg).state es).supervision = (supervisor cfg.joyTimeoutS.1).state passed ∧
      decisions ((teleop cfg).trace es) = (supervisor cfg.joyTimeoutS.1).trace passed := by
  have hkeep (s : State) (e : Event) : (∃ past, (teleop cfg).state past = s) →
      ∃ past, (teleop cfg).state past = (teleop cfg).next s e := by
    rintro ⟨past, rfl⟩
    exact ⟨past ++ [e], (teleop cfg).state_snoc past e⟩
  have hstep (s : State) (e : Event) (hreach : ∃ past, (teleop cfg).state past = s) :
      ((teleop cfg).next s e).supervision =
          (supervisor cfg.joyTimeoutS.1).stateFrom s.supervision (e.signal cfg).toList ∧
        decisions ((teleop cfg).emit s e) =
          (supervisor cfg.joyTimeoutS.1).traceFrom s.supervision (e.signal cfg).toList := by
    obtain ⟨past, rfl⟩ := hreach
    exact supervision_step cfg _ e (armed_of_enabled cfg past)
  exact Machine.component_run State.supervision rfl hkeep hstep ⟨[], rfl⟩ es

theorem passed_eq_signals (cfg : Config) (es : List Event) :
    (teleop cfg).passed (fun _ e => (e.signal cfg).toList) (teleop cfg).init es =
      signals cfg es :=
  Machine.passed_of_events (fun _ _ => rfl) _ es

/-- The node is its supervisor with amounts attached: over every run it goes through the modes
of the supervisor, and it enables, disables and sends commands when the supervisor does. -/
theorem teleop_supervised (cfg : Config) (es : List Event) :
    ((teleop cfg).state es).supervision =
        (supervisor cfg.joyTimeoutS.1).state (signals cfg es) ∧
      decisions ((teleop cfg).trace es) =
        (supervisor cfg.joyTimeoutS.1).trace (signals cfg es) := by
  rw [← passed_eq_signals]
  exact supervision_run cfg es

/-- How far triggers and stick are moved, the maxima, the smoothing and the configured indices
have no say in who is in control: two runs that look alike to the supervisor switch and send
commands at the same moments, and leave both nodes in the same mode. -/
theorem amounts_never_switch (cfg cfg' : Config) (es es' : List Event)
    (htimeout : cfg.joyTimeoutS = cfg'.joyTimeoutS) (hlook : signals cfg es = signals cfg' es') :
    decisions ((teleop cfg).trace es) = decisions ((teleop cfg').trace es') ∧
      ((teleop cfg).state es).supervision = ((teleop cfg').state es').supervision := by
  obtain ⟨hstate, htrace⟩ := supervision_run cfg es
  obtain ⟨hstate', htrace'⟩ := supervision_run cfg' es'
  rw [passed_eq_signals] at hstate htrace hstate' htrace'
  rw [hstate, htrace, hstate', htrace', htimeout, hlook]
  exact ⟨rfl, rfl⟩

/-- The same presses with full brake under a maximum of 1/10, and with a released brake and the
stick to the side: the values differ, the decisions do not. -/
theorem amounts_never_switch_weak_brake :
    let weak : Config := { Config.default with maxBrake := ⟨1 / 10, by norm_num⟩ }
    let drive (brakeTrigger steeringStick : ℚ) : List Event :=
      [.joy (padJoy 1 1 0 0 0) 1000000000 1000000000,
        .joy (padJoy brakeTrigger 1 steeringStick 0 1) 1020000000 1020000000,
        .tick 1030000000 1030000000]
    decisions ((teleop .default).trace (drive (-1) 0)) =
        decisions ((teleop weak).trace (drive (1 / 2) 1)) ∧
      ((teleop .default).state (drive (-1) 0)).supervision =
        ((teleop weak).state (drive (1 / 2) 1)).supervision := by
  intro weak drive
  exact amounts_never_switch .default weak (drive (-1) 0) (drive (1 / 2) 1) rfl (by decide +kernel)

end Roscco.Teleop
