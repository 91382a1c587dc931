import Roscco.Teleop.Steps

/-!
# The output discipline of the teleop node

Enabled implies armed, the latest EnableDisable message sent says whether the node is
enabled, and while it is enabled the command fields are those of the latest accepted joy
message. What may be published, and when, follows for whole traces.

## Main results

* `enable_discipline` — commands only between an enable and the next disable, enables
  only after both triggers were parked.
* `commands_fresh` — every published command comes from the latest joy message, in time.
-/

namespace Roscco.Teleop

open Library

variable {cfg : Config} {s : State} {e : Event} {es : List Event}

/-! ## Reading a trace -/

def Output.isCommand : Output → Bool
  | .brakeCommand _ _ | .throttleCommand _ _ | .steeringCommand _ _ => true
  | _ => false

/-- The EnableDisable messages of a trace. -/
def enables (os : List Output) : List Bool :=
  os.filterMap fun | .enableDisable _ enable => some enable | _ => none

/-- The latest EnableDisable message of a trace. -/
def lastEnable (os : List Output) : Option Bool := (enables os).getLast?

@[simp] theorem enables_nil : enables [] = [] := rfl

@[simp] theorem enables_append (os ps : List Output) :
    enables (os ++ ps) = enables os ++ enables ps := List.filterMap_append

@[simp] theorem enables_pullLogs (m : Sample) : enables m.pullLogs = [] :=
  filterMap_pullLogs (fun _ => rfl) m

@[simp] theorem enables_decisionOutputs (stamp : Time) (d : Option Bool) :
    enables (decisionOutputs stamp d) = d.toList := by
  cases d <;> rfl

theorem mem_enables {os : List Output} {enable : Bool} :
    enable ∈ enables os ↔ ∃ stamp, .enableDisable stamp enable ∈ os := by
  rw [enables, List.mem_filterMap]
  constructor
  · rintro ⟨o, ho, heq⟩
    cases o with
    | enableDisable stamp sent =>
      obtain rfl : sent = enable := by simpa using heq
      exact ⟨stamp, ho⟩
    | _ => simp at heq
  · rintro ⟨stamp, ho⟩
    exact ⟨_, ho, rfl⟩

theorem lastEnable_append_of_silent {os ps : List Output} (h : enables ps = []) :
    lastEnable (os ++ ps) = lastEnable os := by
  simp [lastEnable, h]

theorem enables_eq_nil_of_prefix {os ps : List Output} (h : os <+: ps) (hp : enables ps = []) :
    enables os = [] := by
  obtain ⟨qs, rfl⟩ := h
  simp only [enables_append, List.append_eq_nil_iff] at hp
  exact hp.1

/-- After a disable only a later enable can make the latest message an enable. -/
theorem exists_enable_after_disable {os ps : List Output} {stamp : Time}
    (h : lastEnable (os ++ .enableDisable stamp false :: ps) = some true) :
    ∃ later, Output.enableDisable later true ∈ ps := by
  have hlast : (false :: enables ps).getLast? = some true := by
    have heq : enables (os ++ .enableDisable stamp false :: ps) =
        enables os ++ (false :: enables ps) := by
      rw [enables_append]
      rfl
    rw [lastEnable, heq, List.getLast?_append] at h
    simpa using h
  exact mem_enables.mp (by simpa using List.mem_of_getLast? hlast)

/-! ## What one event sends -/

theorem not_isCommand_of_joy {joy : Joy} {received stamp : Time} {o : Output}
    (ho : o ∈ (teleop cfg).emit s (.joy joy received stamp)) : o.isCommand = false := by
  revert ho
  refine step_elim (P := fun _ out => o ∈ out → o.isCommand = false) ?_
  intro t out hstep ho
  cases hstep with
  | rejected | arming => simp_all [Output.isCommand]
  | waiting _ _ _ m =>
    rcases mem_pullLogs ho with rfl | rfl <;> rfl
  | following _ _ _ m =>
    cases hd : decision s m <;> simp only [hd, decisionOutputs] at ho <;>
      simp_all [Output.isCommand]
    rcases ho with rfl | rfl <;> rfl

/-- Commands come as one full triple, on a tick of an enabled node. -/
theorem emit_of_isCommand {o : Output} (ho : o ∈ (teleop cfg).emit s e)
    (hc : o.isCommand = true) :
    ∃ checked stamp, e = .tick checked stamp ∧ s.enabled = true ∧
      ¬ watchdogTrips cfg s checked ∧
      (teleop cfg).emit s e = [.brakeCommand stamp s.brake, .throttleCommand stamp s.throttle,
        .steeringCommand stamp (nextAverage cfg s)] := by
  cases e with
  | joy joy received stamp =>
    rw [not_isCommand_of_joy ho] at hc
    contradiction
  | tick checked stamp =>
    have hstep := step_spec cfg s (.tick checked stamp)
    generalize (teleop cfg).next s (.tick checked stamp) = t at hstep
    generalize (teleop cfg).emit s (.tick checked stamp) = out at hstep ho ⊢
    cases hstep with
    | tripping => simp at ho; rcases ho with rfl | rfl | rfl <;> simp [Output.isCommand] at hc
    | publishing _ _ htrip henabled => exact ⟨checked, stamp, rfl, henabled, htrip, rfl⟩
    | idle => simp at ho

/-- An enable is sent only by an armed node, on a START press that its memory calls fresh. -/
theorem emit_of_enable {stamp : Time} (ho : .enableDisable stamp true ∈ (teleop cfg).emit s e) :
    ∃ joy received m, e = .joy joy received stamp ∧ joy.sample cfg = some m ∧
      s.armed = true ∧ s.previousStart = 0 ∧ m.start ≠ 0 := by
  have hstep := step_spec cfg s e
  generalize (teleop cfg).next s e = t at hstep
  generalize (teleop cfg).emit s e = out at hstep ho
  cases hstep with
  | following joy received stamp' m hm harmed =>
    obtain ⟨hd, rfl⟩ := mem_decisionOutputs.mp ho
    obtain ⟨-, hfresh, hpressed⟩ := decision_eq_some_true.mp hd
    exact ⟨joy, received, m, rfl, hm, harmed, hfresh, hpressed⟩
  | waiting _ _ _ m =>
    rcases mem_pullLogs ho with h | h <;> contradiction
  | _ => simp at ho

/-- No event reads a joy array past its end. -/
theorem undefinedRead_not_mem_emit : .undefinedRead ∉ (teleop cfg).emit s e := by
  refine step_elim (P := fun _ out => .undefinedRead ∉ out) ?_
  intro t out hstep ho
  cases hstep with
  | waiting _ _ _ m =>
    rcases mem_pullLogs ho with h | h <;> contradiction
  | following _ _ _ m =>
    cases hd : decision s m <;> simp [hd, decisionOutputs] at ho
  | _ => simp at ho

/-- A disabled node that sends no enable stays disabled. -/
theorem disabled_step (hoff : s.enabled = false)
    (hno : true ∉ enables ((teleop cfg).emit s e)) :
    ((teleop cfg).next s e).enabled = false := by
  revert hno
  refine step_elim (P := fun t out => true ∉ enables out → t.enabled = false) ?_
  intro t out hstep hno
  cases hstep with
  | rejected | waiting | arming | idle => exact hoff
  | following _ _ _ m =>
    rw [enables_decisionOutputs] at hno
    cases hd : decision s m with
    | none => simpa [follow, hd] using hoff
    | some enable =>
      cases enable with
      | false => simp [follow, hd]
      | true => simp [hd] at hno
  | tripping => rfl
  | publishing _ _ _ hon => simp [hon] at hoff

/-- A disabled node sends no command before the next enable. -/
theorem no_command_of_disabled {later : List Event} (hoff : s.enabled = false)
    (hno : true ∉ enables ((teleop cfg).traceFrom s later)) :
    ∀ o ∈ (teleop cfg).traceFrom s later, o.isCommand = false := by
  induction later generalizing s with
  | nil => simp
  | cons e later ih =>
    rw [Machine.traceFrom_cons, enables_append, List.mem_append, not_or] at hno
    intro o ho
    rcases List.mem_append.mp ho with ho | ho
    · apply Bool.eq_false_iff.mpr
      intro hc
      obtain ⟨_, _, _, hon, -⟩ := emit_of_isCommand ho hc
      simp [hoff] at hon
    · exact ih (disabled_step hoff hno.1) hno.2 o ho

/-! ## Invariants -/

/-- Control is enabled only while the triggers are armed. -/
theorem armed_of_enabled (cfg : Config) (es : List Event) :
    ((teleop cfg).state es).enabled = true → ((teleop cfg).state es).armed = true := by
  refine (teleop cfg).invariant (I := fun s => s.enabled = true → s.armed = true)
    (by simp [teleop]) ?_ es
  intro s e ih
  refine step_elim (P := fun t _ => t.enabled = true → t.armed = true) ?_
  intro t out hstep
  cases hstep with
  | rejected | waiting | publishing | idle => exact ih
  | arming => exact fun _ => rfl
  | following _ _ _ _ _ harmed => exact fun _ => harmed
  | tripping => exact fun h => h

/-- The node is enabled exactly when the latest EnableDisable message it sent says so. -/
theorem enabled_eq_lastEnable (cfg : Config) (es : List Event) :
    ((teleop cfg).state es).enabled = (lastEnable ((teleop cfg).trace es)).getD false := by
  refine (teleop cfg).invariant_run
    (I := fun es s => s.enabled = (lastEnable ((teleop cfg).trace es)).getD false) rfl ?_ es
  intro es e ih
  rw [Machine.trace_snoc]
  refine step_elim (P := fun t out =>
    t.enabled = (lastEnable ((teleop cfg).trace es ++ out)).getD false) ?_
  intro t out hstep
  cases hstep with
  | rejected | arming | publishing | idle =>
    rw [lastEnable_append_of_silent rfl]
    exact ih
  | waiting _ _ _ m =>
    rw [lastEnable_append_of_silent (enables_pullLogs m)]
    exact ih
  | tripping => simp [lastEnable, enables, tripped]
  | following _ _ _ m =>
    cases hd : decision ((teleop cfg).state es) m with
    | none => simpa [follow, hd, lastEnable] using ih
    | some enable => simp [follow, hd, lastEnable]

/-- A joy message that is accepted with both triggers parked. -/
def Event.Parks (cfg : Config) (e : Event) : Prop :=
  ∃ x, e.received cfg = some x ∧ x.sample.Parked

/-- A tick at which the watchdog trips. -/
def Event.Trips (cfg : Config) (s : State) : Event → Prop
  | .joy _ _ _ => False
  | .tick checked _ => watchdogTrips cfg s checked

instance (cfg : Config) (s : State) : DecidablePred (Event.Trips cfg s)
  | .joy _ _ _ => isFalse id
  | .tick checked _ => inferInstanceAs (Decidable (watchdogTrips cfg s checked))

/-- The run contains a parked message with no watchdog trip after it. -/
def ParkedSinceTrip (cfg : Config) (es : List Event) : Prop :=
  ∃ past f post, es = past ++ f :: post ∧ f.Parks cfg ∧
    Historically (fun mid g => ¬ g.Trips cfg ((teleop cfg).state (past ++ f :: mid))) post

theorem ParkedSinceTrip.snoc (h : ParkedSinceTrip cfg es)
    (he : ¬ e.Trips cfg ((teleop cfg).state es)) : ParkedSinceTrip cfg (es ++ [e]) := by
  obtain ⟨past, f, post, rfl, hparks, hpost⟩ := h
  exact ⟨past, f, post ++ [e], by simp, hparks, historically_snoc.mpr ⟨hpost, he⟩⟩

/-- An armed node has seen parked triggers after its last watchdog trip. -/
theorem parkedSinceTrip_of_armed (cfg : Config) (es : List Event) :
    ((teleop cfg).state es).armed = true → ParkedSinceTrip cfg es := by
  refine (teleop cfg).invariant_run
    (I := fun es s => s.armed = true → ParkedSinceTrip cfg es) (by simp [teleop]) ?_ es
  intro es e ih
  refine step_elim (P := fun t _ => t.armed = true → ParkedSinceTrip cfg (es ++ [e])) ?_
  intro t out hstep harmed
  cases hstep with
  | rejected => exact (ih harmed).snoc id
  | waiting _ _ _ _ _ hoff => grind
  | arming joy received stamp m hm _ hparked =>
    exact ⟨es, _, [], rfl, ⟨⟨received, m⟩, by simp [Event.received, hm], hparked⟩, by simp⟩
  | following _ _ _ _ _ hon => exact (ih hon).snoc id
  | tripping => simp [tripped] at harmed
  | publishing _ _ htrip => exact (ih harmed).snoc htrip
  | idle _ _ hoff =>
    exact (ih harmed).snoc fun htrip => by simp [watchdogTrips, hoff, Event.Trips] at htrip

/-! ## The discipline of the whole trace -/

/-- Commands are sent only while the latest EnableDisable message is an enable. -/
theorem commands_only_while_enabled (cfg : Config) (es : List Event) :
    Historically (fun past o => o.isCommand = true → lastEnable past = some true)
      ((teleop cfg).trace es) := by
  refine (teleop cfg).historically_trace ?_ es
  intro es e _ past o hprefix hc
  have hmem : o ∈ (teleop cfg).emit ((teleop cfg).state es) e := hprefix.subset (by simp)
  obtain ⟨checked, stamp, rfl, henabled, -, hemit⟩ := emit_of_isCommand hmem hc
  have hsilent : enables past = [] :=
    enables_eq_nil_of_prefix ((List.prefix_append past [o]).trans (hemit ▸ hprefix)) rfl
  rw [lastEnable_append_of_silent hsilent]
  have hlast := enabled_eq_lastEnable cfg es
  rw [henabled] at hlast
  cases h : lastEnable ((teleop cfg).trace es) with
  | none => simp [h] at hlast
  | some b => simpa [h] using hlast.symm

/-- The enable discipline of every run: commands are full triples sent only between an
enable and the next disable; an enable follows a parked message with no watchdog trip in
between; no joy array is read past its end. -/
theorem enable_discipline (cfg : Config) (es : List Event) :
    Historically (fun past o => o.isCommand = true → lastEnable past = some true)
      ((teleop cfg).trace es) ∧
    Historically (fun past e =>
      let s := (teleop cfg).state past
      (∀ o ∈ (teleop cfg).emit s e, o.isCommand = false) ∨
        ∃ checked stamp brake throttle torque, e = .tick checked stamp ∧
          (teleop cfg).emit s e = [.brakeCommand stamp brake, .throttleCommand stamp throttle,
            .steeringCommand stamp torque]) es ∧
    (∀ past stamp mid post,
      (teleop cfg).trace es = past ++ .enableDisable stamp false :: (mid ++ post) →
      (∀ later, Output.enableDisable later true ∉ mid) → ∀ o ∈ mid, o.isCommand = false) ∧
    Historically (fun past e => ∀ stamp,
      .enableDisable stamp true ∈ (teleop cfg).emit ((teleop cfg).state past) e →
        (e.received cfg).isSome = true ∧ ParkedSinceTrip cfg past) es ∧
    .undefinedRead ∉ (teleop cfg).trace es := by
  have hdiscipline := commands_only_while_enabled cfg es
  refine ⟨hdiscipline, ?_, ?_, ?_, ?_⟩
  · intro past e _
    by_cases h : ∃ o ∈ (teleop cfg).emit ((teleop cfg).state past) e, o.isCommand = true
    · obtain ⟨o, ho, hc⟩ := h
      obtain ⟨checked, stamp, he, -, -, hemit⟩ := emit_of_isCommand ho hc
      exact .inr ⟨checked, stamp, _, _, _, he, hemit⟩
    · push Not at h
      exact .inl fun o ho => Bool.eq_false_iff.mpr (h o ho)
  · intro past stamp mid post htrace hno o ho
    obtain ⟨before, after, rfl⟩ := List.append_of_mem ho
    have hsplit : (teleop cfg).trace es =
        (past ++ .enableDisable stamp false :: before) ++ o :: (after ++ post) := by
      rw [htrace]
      simp
    rw [hsplit] at hdiscipline
    apply Bool.eq_false_iff.mpr
    intro hc
    obtain ⟨later, hlater⟩ := exists_enable_after_disable (hdiscipline.of_split hc)
    exact hno later (List.mem_append_left _ hlater)
  · intro past e _ stamp ho
    obtain ⟨joy, received, m, rfl, hm, harmed, -⟩ := emit_of_enable ho
    exact ⟨by simp [Event.received, hm], parkedSinceTrip_of_armed cfg past harmed⟩
  · refine (teleop cfg).invariant_run
      (I := fun es _ => Output.undefinedRead ∉ (teleop cfg).trace es) (by simp) ?_ es
    intro es e ih
    rw [Machine.trace_snoc, List.mem_append, not_or]
    exact ⟨ih, undefinedRead_not_mem_emit⟩

/-! ## Freshness -/

/-- A watchdog that does not trip has found the gamepad in time. -/
theorem in_time_of_not_trips {checked : Time} (htrip : ¬ watchdogTrips cfg s checked)
    (hon : s.enabled = true) (hpos : 0 < s.lastJoy) :
    seconds (checked - s.lastJoy) ≤ .finite cfg.joyTimeoutS.1 := by
  have hnot : ¬ Double.finite cfg.joyTimeoutS.1 < seconds (checked - s.lastJoy) :=
    fun hlt => htrip ⟨hon, hpos, hlt⟩
  simpa [seconds] using hnot

/-- While control is enabled the command fields are those of the latest accepted message. -/
structure Fresh (cfg : Config) (es : List Event) (s : State) : Prop where
  armed : s.armed = true
  latest : ∃ x older, accepted cfg es = x :: older ∧ s.lastJoy = x.time ∧
    s.brake = brakeOf cfg x.sample ∧ s.throttle = throttleOf cfg x.sample ∧
    s.steering = steeringOf cfg x.sample

theorem fresh_of_enabled (cfg : Config) (es : List Event) :
    ((teleop cfg).state es).enabled = true → Fresh cfg es ((teleop cfg).state es) := by
  refine (teleop cfg).invariant_run (I := fun es s => s.enabled = true → Fresh cfg es s)
    (by simp [teleop]) ?_ es
  intro es e ih
  refine step_elim (P := fun t _ => t.enabled = true → Fresh cfg (es ++ [e]) t) ?_
  intro t out hstep henabled
  cases hstep with
  | rejected joy received stamp hnone =>
    obtain ⟨harmed, hlatest⟩ := ih henabled
    exact ⟨harmed, by rwa [accepted_snoc_rejected hnone]⟩
  | waiting _ _ _ _ _ hoff | arming _ _ _ _ _ hoff =>
    have harmed := (ih henabled).armed
    grind
  | following joy received stamp m hm harmed =>
    exact ⟨harmed, ⟨received, m⟩, _, accepted_snoc_joy hm es received stamp, rfl, rfl, rfl, rfl⟩
  | tripping => simp [tripped] at henabled
  | publishing checked stamp | idle checked stamp =>
    obtain ⟨harmed, hlatest⟩ := ih henabled
    exact ⟨harmed, by rwa [accepted_snoc_tick]⟩

/-- The clock reading that enters `last_joy_` or the watchdog. -/
def Event.clock : Event → Time
  | .joy _ received _ => received
  | .tick checked _ => checked

theorem time_pos_of_mem_accepted {x : Received} (hpos : ∀ e ∈ es, 0 < e.clock)
    (hx : x ∈ accepted cfg es) : 0 < x.time := by
  obtain ⟨e, he, heq⟩ := List.mem_filterMap.mp (List.mem_reverse.mp hx)
  cases e with
  | tick => simp [Event.received] at heq
  | joy joy received stamp =>
    obtain ⟨m, -, rfl⟩ := Option.map_eq_some_iff.mp heq
    exact hpos _ he

/-- Whatever a tick publishes was computed from the latest accepted joy message, which is
not older than the timeout. -/
theorem commands_fresh (cfg : Config) (es : List Event) (hpos : ∀ e ∈ es, 0 < e.clock)
    (checked stamp : Time) (o : Output)
    (ho : o ∈ (teleop cfg).emit ((teleop cfg).state es) (.tick checked stamp))
    (hc : o.isCommand = true) :
    ∃ x older, accepted cfg es = x :: older ∧
      seconds (checked - x.time) ≤ .finite cfg.joyTimeoutS.1 ∧
      ((teleop cfg).state es).steering =
        cfg.maxSteering.1 * linearTransform x.sample.steeringStick kStickMax kStickMin 1 (-1) ∧
      (teleop cfg).emit ((teleop cfg).state es) (.tick checked stamp) =
        [.brakeCommand stamp
          (cfg.maxBrake.1 * linearTransform x.sample.brakeTrigger kTriggerMax kTriggerMin 1 0),
         .throttleCommand stamp
          (cfg.maxThrottle.1 *
            linearTransform x.sample.throttleTrigger kTriggerMax kTriggerMin 1 0),
         .steeringCommand stamp (exponentialAverage ((teleop cfg).state es).steeringAverage
          ((teleop cfg).state es).steering cfg.smoothingFactor.1)] := by
  obtain ⟨checked', stamp', he, henabled, htrip, hemit⟩ := emit_of_isCommand ho hc
  obtain ⟨rfl, rfl⟩ : checked = checked' ∧ stamp = stamp' := by simpa using he
  obtain ⟨-, x, older, haccepted, hlast, hbrake, hthrottle, hsteering⟩ :=
    fresh_of_enabled cfg es henabled
  have hx : 0 < x.time := time_pos_of_mem_accepted hpos (haccepted ▸ List.mem_cons_self)
  refine ⟨x, older, haccepted, ?_, hsteering, ?_⟩
  · have hnot : ¬ Double.finite cfg.joyTimeoutS.1 < seconds (checked - x.time) := by
      intro hlt
      exact htrip ⟨henabled, by rwa [hlast], by rwa [hlast]⟩
    simpa [seconds] using hnot
  · rw [hemit, hbrake, hthrottle]
    rfl

/-- Arm, enable with the brake trigger half way, and tick 20 ms later. -/
theorem commands_fresh_first_tick :
    ∃ x older, accepted Config.default
        [.joy (padJoy 1 1 0 0 0) 1000000000 1000000000,
          .joy (padJoy (1 / 2) 1 0 0 1) 1100000000 1100000000] = x :: older ∧
      seconds (1120000000 - x.time) ≤ .finite (3 / 10) := by
  obtain ⟨x, older, haccepted, htime, -⟩ := commands_fresh Config.default
    [.joy (padJoy 1 1 0 0 0) 1000000000 1000000000,
      .joy (padJoy (1 / 2) 1 0 0 1) 1100000000 1100000000]
    (by simp [Event.clock]) 1120000000 1120000000 (.brakeCommand 1120000000 (.finite (1 / 4)))
    (by decide +kernel) rfl
  exact ⟨x, older, haccepted, htime⟩

end Roscco.Teleop
