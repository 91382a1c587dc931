import Roscco.Teleop.Discipline

/-!
# Re-arming and the button edges

Two promises of the arming logic fail in the code, because a piece of memory is not
updated on one path. The watchdog is the only thing that disarms, and it only looks while
control is enabled: a pad lost and found while control is disabled stays armed. And the
edge detector's memory is only written once armed: a START button held while the triggers
are being armed looks freshly pressed in the next message. Each promise holds in every
run that keeps clear of its path. A BACK press is safe from both: whatever enabled control
has written the memory, so an enabled node never misses it.
-/

namespace Roscco.Teleop

open Library

variable {cfg : Config}

/-! ## Re-arming after a gap -/

/-- Two consecutive accepted messages are more than the timeout apart. -/
def gap (cfg : Config) (earlier later : Received) : Prop :=
  .finite cfg.joyTimeoutS.1 < seconds (later.time - earlier.time)

instance (cfg : Config) : DecidableRel (gap cfg) :=
  fun _ _ => inferInstanceAs (Decidable (Double.finite _ < _))

/-- If this event turns control on, some message accepted since the last gap was parked. -/
def EnablesRearmed (cfg : Config) (es : List Event) (e : Event) : Prop :=
  ((teleop cfg).state es).enabled = false → ((teleop cfg).state (es ++ [e])).enabled = true →
    ∃ x ∈ sinceGap (gap cfg) (accepted cfg (es ++ [e])), x.sample.Parked

/-- An accepted message that ends a gap while the node is still armed is itself parked. -/
def ResumesParked (cfg : Config) (s : State) (e : Event) : Prop :=
  ∀ x ∈ e.received cfg, s.armed = true →
    .finite cfg.joyTimeoutS.1 < seconds (x.time - s.lastJoy) → x.sample.Parked

instance (cfg : Config) (s : State) (e : Event) : Decidable (ResumesParked cfg s e) :=
  inferInstanceAs (Decidable (∀ x ∈ e.received cfg, _ → _ → _))

/-- Positive clock readings that never go back. -/
def ClockOk (es : List Event) : Prop :=
  (∀ e ∈ es, 0 < e.clock) ∧ (es.map Event.clock).Pairwise (· ≤ ·)

instance (es : List Event) : Decidable (ClockOk es) := inferInstanceAs (Decidable (_ ∧ _))

/-- While the node is armed, `last_joy_` is the time of the latest accepted message, and
some message accepted since the last gap was parked. -/
structure ArmedInEpisode (cfg : Config) (es : List Event) (s : State) : Prop where
  latest : ∀ x ∈ (accepted cfg es).head?, s.lastJoy = x.time
  parked : ∃ x ∈ sinceGap (gap cfg) (accepted cfg es), x.sample.Parked

theorem armedInEpisode_of_armed (cfg : Config) (es : List Event)
    (along : Historically (fun past e => ResumesParked cfg ((teleop cfg).state past) e) es) :
    ((teleop cfg).state es).armed = true → ArmedInEpisode cfg es ((teleop cfg).state es) := by
  refine (teleop cfg).invariant_along
    (I := fun es s => s.armed = true → ArmedInEpisode cfg es s) (by simp [teleop]) ?_ es along
  intro es e hresume ih
  refine step_elim (P := fun t _ => t.armed = true → ArmedInEpisode cfg (es ++ [e]) t) ?_
  intro t out hstep harmed
  cases hstep with
  | rejected joy received stamp hnone =>
    obtain ⟨hlatest, hparked⟩ := ih harmed
    rw [← accepted_snoc_rejected hnone es received stamp] at hlatest hparked
    exact ⟨hlatest, hparked⟩
  | waiting _ _ _ _ _ hoff => grind
  | arming joy received stamp m hm _ hparked =>
    refine ⟨?_, ⟨received, m⟩, ?_, hparked⟩ <;> rw [accepted_snoc_joy hm]
    · simp
    · exact mem_sinceGap_self
  | following joy received stamp m hm hon =>
    obtain ⟨hlatest, x, hx, hparked⟩ := ih hon
    refine ⟨by simp [accepted_snoc_joy hm, follow], ?_⟩
    rw [accepted_snoc_joy hm]
    by_cases hgap : ∃ y ∈ (accepted cfg es).head?, gap cfg y ⟨received, m⟩
    · -- the message ends a gap, so the condition makes it parked itself
      obtain ⟨y, hy, hgap⟩ := hgap
      refine ⟨⟨received, m⟩, mem_sinceGap_self, ?_⟩
      refine hresume ⟨received, m⟩ (by simp [Event.received, hm]) hon ?_
      rw [hlatest y hy]
      exact hgap
    · exact ⟨x, sinceGap_subset_cons (fun y hy hg => hgap ⟨y, hy, hg⟩) hx, hparked⟩
  | tripping => simp [tripped] at harmed
  | publishing checked stamp | idle checked stamp =>
    obtain ⟨hlatest, hparked⟩ := ih harmed
    rw [← accepted_snoc_tick cfg es checked stamp] at hlatest hparked
    exact ⟨hlatest, hparked⟩

/-- In a run where no armed node resumes on unparked triggers after a gap, every message
that turns control on comes after the triggers were parked again. -/
theorem enables_rearmed_of_resumes_parked (cfg : Config) (es : List Event)
    (along : Historically (fun past e => ResumesParked cfg ((teleop cfg).state past) e) es) :
    Historically (EnablesRearmed cfg) es := by
  intro past e hprefix _ hon
  exact (armedInEpisode_of_armed cfg (past ++ [e]) (along.of_prefix hprefix)
    (armed_of_enabled cfg (past ++ [e]) hon)).parked

/-- A gap in which the watchdog disarms: the pad has to be parked again before START. -/
theorem enables_rearmed_of_resumes_parked_after_trip :
    Historically (EnablesRearmed Config.default)
      [.joy (padJoy 1 1 0 0 0) 1000000000 1000000000,
        .joy (padJoy 1 1 0 0 1) 1100000000 1100000000, .tick 5000000000 5000000000,
        .joy (padJoy 1 1 0 0 0) 9000000000 9000000000,
        .joy (padJoy 1 1 0 0 1) 9100000000 9100000000] := by
  exact enables_rearmed_of_resumes_parked Config.default _ (by decide +kernel)

/-- A pad that is lost while control is disabled and comes back with unmoved triggers,
which read as one half, is enabled by its first START press. -/
theorem not_enables_rearmed :
    ¬ ∀ cfg es e, ClockOk (es ++ [e]) → EnablesRearmed cfg es e := by
  intro h
  have hparked := h Config.default [.joy (padJoy 1 1 0 0 0) 1000000000 1000000000]
    (.joy (padJoy 0 0 0 0 1) 9000000000 9000000000) (by decide +kernel) (by decide +kernel)
    (by decide +kernel)
  revert hparked
  decide +kernel

/-! ## The START edge -/

/-- An enable is sent only for a message with START pressed right after an accepted
message with START released. -/
def EnablesOnEdge (cfg : Config) (es : List Event) (e : Event) : Prop :=
  ∀ stamp, .enableDisable stamp true ∈ (teleop cfg).emit ((teleop cfg).state es) e →
    ∃ x, e.received cfg = some x ∧ x.sample.start ≠ 0 ∧
      ∃ y ∈ (accepted cfg es).head?, y.sample.start = 0

/-- The message that arms the triggers has START released, or the edge memory, which
arming leaves alone, already holds a press. -/
def ArmsReleased (cfg : Config) (s : State) (e : Event) : Prop :=
  ∀ x ∈ e.received cfg, s.armed = false → x.sample.Parked →
    x.sample.start = 0 ∨ s.previousStart ≠ 0

instance (cfg : Config) (s : State) (e : Event) : Decidable (ArmsReleased cfg s e) :=
  inferInstanceAs (Decidable (∀ x ∈ e.received cfg, _ → _ → _))

/-- While the node is armed, a START released in the memory was released in the latest
accepted message. -/
def MemoryCurrent (cfg : Config) (es : List Event) (s : State) : Prop :=
  ∃ y ∈ (accepted cfg es).head?, s.previousStart = 0 → y.sample.start = 0

theorem memoryCurrent_of_armed (cfg : Config) (es : List Event)
    (along : Historically (fun past e => ArmsReleased cfg ((teleop cfg).state past) e) es) :
    ((teleop cfg).state es).armed = true → MemoryCurrent cfg es ((teleop cfg).state es) := by
  refine (teleop cfg).invariant_along (I := fun es s => s.armed = true → MemoryCurrent cfg es s)
    (by simp [teleop]) ?_ es along
  intro es e hreleased ih
  refine step_elim (P := fun t _ => t.armed = true → MemoryCurrent cfg (es ++ [e]) t) ?_
  intro t out hstep harmed
  cases hstep with
  | rejected joy received stamp hnone =>
    simpa only [MemoryCurrent, accepted_snoc_rejected hnone] using ih harmed
  | waiting _ _ _ _ _ hoff => grind
  | arming joy received stamp m hm hoff hparked =>
    refine ⟨⟨received, m⟩, by simp [accepted_snoc_joy hm], ?_⟩
    intro hmemory
    exact (hreleased ⟨received, m⟩ (by simp [Event.received, hm]) hoff hparked).resolve_right
      (not_not_intro hmemory)
  | following joy received stamp m hm =>
    exact ⟨⟨received, m⟩, by simp [accepted_snoc_joy hm], id⟩
  | tripping => simp [tripped] at harmed
  | publishing checked stamp | idle checked stamp =>
    simpa only [MemoryCurrent, accepted_snoc_tick] using ih harmed

/-- In a run where the triggers are never armed by a message with START freshly held, every
enable answers a START press that the message before it did not show. -/
theorem enables_on_edge_of_arms_released (cfg : Config) (es : List Event)
    (along : Historically (fun past e => ArmsReleased cfg ((teleop cfg).state past) e) es) :
    Historically (EnablesOnEdge cfg) es := by
  intro past e hprefix stamp ho
  obtain ⟨joy, received, m, rfl, hm, harmed, hmemory, hpressed⟩ := emit_of_enable ho
  obtain ⟨y, hy, hreleased⟩ := memoryCurrent_of_armed cfg past (along.before hprefix) harmed
  exact ⟨⟨received, m⟩, by simp [Event.received, hm], hpressed, y, hy, hreleased hmemory⟩

/-- Armed with START released, then pressed. -/
theorem enables_on_edge_of_arms_released_press :
    Historically (EnablesOnEdge Config.default)
      [.joy (padJoy 1 1 0 0 0) 1000000000 1000000000,
        .joy (padJoy 1 1 0 0 1) 1020000000 1020000000] :=
  enables_on_edge_of_arms_released Config.default _ (by decide +kernel)

/-- START is held from the message that arms the triggers on, and still enables control. -/
theorem not_enables_on_edge : ¬ ∀ cfg es e, EnablesOnEdge cfg es e := by
  intro h
  obtain ⟨x, -, -, y, hy, hreleased⟩ :=
    h Config.default [.joy (padJoy 1 1 0 0 1) 1000000000 1000000000]
      (.joy (padJoy 1 1 0 0 1) 1020000000 1020000000) 1020000000 (by decide +kernel)
  have hhead : (accepted Config.default
      [.joy (padJoy 1 1 0 0 1) 1000000000 1000000000]).head? =
        some ⟨1000000000, ⟨.finite 1, .finite 1, .finite 0, 0, 1⟩⟩ := by decide +kernel
  rw [hhead] at hy
  obtain rfl : ⟨1000000000, ⟨.finite 1, .finite 1, .finite 0, 0, 1⟩⟩ = y := by simpa using hy
  exact absurd hreleased (by decide)

/-! ## The BACK edge -/

/-- An accepted message with BACK pressed, right after one with BACK released, reaches an
enabled node. -/
structure PressesBack (cfg : Config) (es : List Event) (e : Event) : Prop where
  enabled : ((teleop cfg).state es).enabled = true
  pressed : ∃ x ∈ e.received cfg, x.sample.back ≠ 0
  released : ∃ y ∈ (accepted cfg es).head?, y.sample.back = 0

/-- While control is enabled the memory of BACK is that of the latest accepted message: the
message that enabled control wrote it, and so did every accepted one since. -/
theorem previousBack_of_enabled (cfg : Config) (es : List Event) :
    ((teleop cfg).state es).enabled = true →
      ∃ y ∈ (accepted cfg es).head?, ((teleop cfg).state es).previousBack = y.sample.back := by
  refine (teleop cfg).invariant_run (I := fun es s => s.enabled = true →
    ∃ y ∈ (accepted cfg es).head?, s.previousBack = y.sample.back) (by simp [teleop]) ?_ es
  intro es e ih
  have harmed := armed_of_enabled cfg es
  refine step_elim (P := fun t _ => t.enabled = true →
    ∃ y ∈ (accepted cfg (es ++ [e])).head?, t.previousBack = y.sample.back) ?_
  intro t out hstep henabled
  cases hstep with
  | rejected joy received stamp hnone =>
    simpa only [accepted_snoc_rejected hnone] using ih henabled
  | waiting _ _ _ _ _ hoff | arming _ _ _ _ _ hoff =>
    have hon := harmed henabled
    grind
  | following joy received stamp m hm =>
    exact ⟨⟨received, m⟩, by simp [accepted_snoc_joy hm], rfl⟩
  | tripping => simp [tripped] at henabled
  | publishing checked stamp | idle checked stamp =>
    simpa only [accepted_snoc_tick] using ih henabled

/-- A BACK press on an enabled node sends a disable, whatever START does. -/
theorem emit_of_pressesBack {es : List Event} {e : Event} (h : PressesBack cfg es e) :
    (∃ stamp, (teleop cfg).emit ((teleop cfg).state es) e =
        [.enableDisable stamp false, .log (.control false)]) ∧
      ((teleop cfg).state (es ++ [e])).enabled = false := by
  obtain ⟨henabled, ⟨x, hx, hpressed⟩, y, hy, hreleased⟩ := h
  have harmed := armed_of_enabled cfg es henabled
  obtain ⟨y', hy', hmemory⟩ := previousBack_of_enabled cfg es henabled
  obtain rfl : y' = y := Option.some.inj (hy'.symm.trans hy)
  rw [Machine.state_snoc]
  have hstep := step_spec cfg ((teleop cfg).state es) e
  generalize (teleop cfg).next ((teleop cfg).state es) e = t at hstep ⊢
  generalize (teleop cfg).emit ((teleop cfg).state es) e = out at hstep ⊢
  cases hstep with
  | following joy received stamp m hm =>
    obtain rfl : x = ⟨received, m⟩ := by simpa [Event.received, hm, eq_comm] using hx
    have hd : decision ((teleop cfg).state es) m = some false :=
      decision_eq_some_false.mpr ⟨hmemory.trans hreleased, hpressed⟩
    exact ⟨⟨stamp, by rw [hd]; rfl⟩, by simp [follow, hd]⟩
  | rejected joy received stamp hnone => simp [Event.received, hnone] at hx
  | waiting _ _ _ _ _ hoff | arming _ _ _ _ _ hoff => simp [harmed] at hoff
  | tripping | publishing | idle => simp [Event.received] at hx

/-- A BACK press always disables: the disable is sent, control is off, and no command is
sent before another enable. -/
theorem back_press_disables (cfg : Config) (es : List Event) (e : Event)
    (h : PressesBack cfg es e) :
    (∃ stamp, .enableDisable stamp false ∈ (teleop cfg).emit ((teleop cfg).state es) e) ∧
    ((teleop cfg).state (es ++ [e])).enabled = false ∧
    (∀ o ∈ (teleop cfg).emit ((teleop cfg).state es) e, o.isCommand = false) ∧
    ∀ later,
      let out := (teleop cfg).traceFrom ((teleop cfg).state (es ++ [e])) later
      (∀ stamp, Output.enableDisable stamp true ∉ out) → ∀ o ∈ out, o.isCommand = false := by
  obtain ⟨⟨stamp, hemit⟩, hoff⟩ := emit_of_pressesBack h
  refine ⟨⟨stamp, by simp [hemit]⟩, hoff, by simp [hemit, Output.isCommand], ?_⟩
  intro later out hno
  refine no_command_of_disabled hoff fun henable => ?_
  obtain ⟨stamp', hmem⟩ := mem_enables.mp henable
  exact hno stamp' hmem

/-- BACK wins over a START pressed in the same message. -/
theorem back_press_disables_with_start :
    ((teleop Config.default).state
      ([.joy (padJoy 1 1 0 0 0) 1000000000 1000000000,
        .joy (padJoy 1 1 0 0 1) 1020000000 1020000000,
        .joy (padJoy 1 1 0 0 0) 1040000000 1040000000] ++
        [.joy (padJoy 1 1 0 1 1) 1060000000 1060000000])).enabled = false :=
  (back_press_disables Config.default
    [.joy (padJoy 1 1 0 0 0) 1000000000 1000000000,
      .joy (padJoy 1 1 0 0 1) 1020000000 1020000000,
      .joy (padJoy 1 1 0 0 0) 1040000000 1040000000]
    (.joy (padJoy 1 1 0 1 1) 1060000000 1060000000)
    ⟨by decide +kernel, by decide +kernel, by decide +kernel⟩).2.1

end Roscco.Teleop
