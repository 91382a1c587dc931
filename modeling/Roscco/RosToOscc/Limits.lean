import Mathlib.Algebra.Order.Group.Abs
import Mathlib.Order.Monotone.Basic
import Roscco.RosToOscc.Basic

/-!
# Command limits

The constructor accepts a minimum above its maximum. On such a channel `std::clamp` is
called outside its precondition and can return the minimum, which the limits forbid; on
every other channel each command is limited as configured.

## Main results

* `limits_hold_iff_ordered` — when the limits of a run are respected.
* `commands_limited` — with ordered limits the bridge is one limiter for each channel.
-/

namespace Roscco.RosToOscc

open Library

variable {cfg : Config} {channel : Channel} {e : Event} {o : Output}

/-! ## Ordered channels -/

/-- The limits of a channel leave it at least one value. -/
def Config.Ordered (cfg : Config) (channel : Channel) : Prop :=
  cfg.lower channel ≤ cfg.upper channel

instance (cfg : Config) (channel : Channel) : Decidable (cfg.Ordered channel) :=
  inferInstanceAs (Decidable (_ ≤ _))

/-! ## One command -/

/-- The value that is clamped for a request: zero stands in for a non-finite one. -/
def sanitized : Double → ℚ
  | .finite q => q
  | _ => 0

/-- The value that a channel sends for a request. -/
def limited (cfg : Config) (channel : Channel) (requested : Double) : Double :=
  Double.clamp (.finite (sanitized requested)) (.finite (cfg.lower channel))
    (.finite (cfg.upper channel))

theorem limited_of_ordered (h : cfg.Ordered channel) (requested : Double) :
    limited cfg channel requested =
      .finite (max (cfg.lower channel) (min (sanitized requested) (cfg.upper channel))) :=
  Double.clamp_finite h

/-- One call of `std::clamp`, with the sanitized request, decides what is sent; the rest
of a clamp is log lines. -/
theorem clamp_spec (value lo hi : Double) (what : String) :
    (clamp value lo hi what).1 = Double.clamp (.finite (sanitized value)) lo hi ∧
      ∃ before after : List Log, (clamp value lo hi what).2 =
        before.map .log ++ .clampCall (.finite (sanitized value)) lo hi :: after.map .log := by
  cases value with
  | finite q =>
    refine ⟨rfl, [], ?_⟩
    by_cases h : Double.clamp (.finite q) lo hi ≠ .finite q
    · exact ⟨[.clamped what (.finite q) (Double.clamp (.finite q) lo hi) lo hi], by
        simp [clamp, sanitized, h]⟩
    · exact ⟨[], by simp [clamp, sanitized, not_not.mp h]⟩
  | posInf | negInf | nan => exact ⟨rfl, [.nonFinite what], [], rfl⟩

/-- The channel and the request of a command message. -/
def Event.command : Event → Option (Channel × Double)
  | .brakeCommand brakePosition _ => some (.brake, brakePosition)
  | .steeringCommand steeringTorque _ => some (.steering, steeringTorque)
  | .throttleCommand throttlePosition _ => some (.throttle, throttlePosition)
  | .enableDisable _ _ => none

/-- Every other message enables or disables. -/
theorem Event.eq_enableDisable (h : e.command = none) :
    ∃ enable result, e = .enableDisable enable result := by
  cases e with
  | enableDisable enable result => exact ⟨enable, result, rfl⟩
  | brakeCommand | steeringCommand | throttleCommand => simp [Event.command] at h

/-- A command message makes one call of `std::clamp`, between its channel's limits, and one
OSCC call with the result, on its own channel. -/
theorem handle_command (cfg : Config) {requested : Double}
    (h : e.command = some (channel, requested)) :
    ∃ before between after : List Log, handle cfg e =
      before.map .log ++
        .clampCall (.finite (sanitized requested)) (.finite (cfg.lower channel))
          (.finite (cfg.upper channel)) ::
        between.map .log ++ .osccPublish channel (limited cfg channel requested) ::
          after.map .log := by
  have hcallback : ∃ what action result, handle cfg e = commandCallback channel what action
      requested (cfg.lower channel) (cfg.upper channel) result := by
    cases e with
    | brakeCommand _ result | steeringCommand _ result | throttleCommand _ result =>
      obtain ⟨rfl, rfl⟩ : _ = channel ∧ _ = requested := by simpa [Event.command] using h
      exact ⟨_, _, result, rfl⟩
    | enableDisable => simp [Event.command] at h
  obtain ⟨what, action, result, heq⟩ := hcallback
  obtain ⟨hvalue, before, between, hout⟩ := clamp_spec requested (.finite (cfg.lower channel))
    (.finite (cfg.upper channel)) what
  have hreport : ∃ after : List Log, (report result action).2 = after.map .log := by
    cases result with
    | ok => exact ⟨[], rfl⟩
    | error => exact ⟨[.osccError action], rfl⟩
    | warning => exact ⟨[.osccWarning action], rfl⟩
  obtain ⟨after, hafter⟩ := hreport
  refine ⟨before, between, after, ?_⟩
  calc handle cfg e
      = (clamp requested (.finite (cfg.lower channel)) (.finite (cfg.upper channel)) what).2 ++
          .osccPublish channel
            (clamp requested (.finite (cfg.lower channel)) (.finite (cfg.upper channel)) what).1 ::
          (report result action).2 := heq
    _ = _ := by rw [hvalue, hout, hafter, limited]

/-! ## The limits -/

/-- `std::clamp` is called inside its precondition, and OSCC gets nothing above the maximum
of the channel. -/
def Output.WithinLimits (cfg : Config) : Output → Prop
  | .clampCall _ lo hi => lo ≤ hi
  | .osccPublish channel value => value ≤ .finite (cfg.upper channel)
  | .osccEnable | .osccDisable | .log _ => True

/-- One message respects the limits exactly when the limits of its channel are ordered. -/
theorem handle_withinLimits_iff :
    (∀ o ∈ handle cfg e, o.WithinLimits cfg) ↔ ∀ c ∈ e.command, cfg.Ordered c.1 := by
  cases h : e.command with
  | none =>
    obtain ⟨enable, result, rfl⟩ := Event.eq_enableDisable h
    cases enable <;> cases result <;>
      simp [handle, enableDisableCallback, report, Output.WithinLimits]
  | some c =>
    obtain ⟨before, between, after, heq⟩ := handle_command cfg h
    simp only [Option.mem_some_iff, forall_eq', heq]
    constructor
    · intro hall
      have hcall := hall (.clampCall (.finite (sanitized c.2)) (.finite (cfg.lower c.1))
        (.finite (cfg.upper c.1))) (by simp)
      exact Double.finite_le.mp hcall
    · intro hordered o ho
      have hcases : (∃ line, o = .log line) ∨
          o = .clampCall (.finite (sanitized c.2)) (.finite (cfg.lower c.1))
            (.finite (cfg.upper c.1)) ∨ o = .osccPublish c.1 (limited cfg c.1 c.2) := by
        simp only [List.mem_append, List.mem_cons, List.mem_map] at ho
        grind
      rcases hcases with ⟨line, rfl⟩ | rfl | rfl
      · trivial
      · exact Double.finite_le.mpr hordered
      · rw [limited_of_ordered hordered]
        exact Double.finite_le.mpr (max_le hordered (min_le_right _ _))

/-- A run of the bridge respects the limits exactly when it commands ordered channels only. -/
theorem limits_hold_iff_ordered (cfg : Config) (es : List Event) :
    (∀ o ∈ (rosToOscc cfg).trace es, o.WithinLimits cfg) ↔
      ∀ e ∈ es, ∀ c ∈ e.command, cfg.Ordered c.1 := by
  rw [Machine.forall_mem_trace]
  have hstep : ∀ past e, (∀ o ∈ (rosToOscc cfg).emit ((rosToOscc cfg).state past) e,
      o.WithinLimits cfg) ↔ ∀ c ∈ e.command, cfg.Ordered c.1 :=
    fun _ _ => handle_withinLimits_iff
  simp only [hstep]
  exact historically_const

/-- A brake minimum of 0.5 above its maximum of 0.2 sends 0.5 for a request of 0.3. -/
theorem not_limits_hold : ¬ ∀ cfg es, ∀ o ∈ (rosToOscc cfg).trace es, o.WithinLimits cfg := by
  intro h
  have hsent := h { Config.default with
      brakeMin := ⟨1 / 2, by norm_num⟩
      brakeMax := ⟨1 / 5, by norm_num⟩ }
    [.brakeCommand (.finite (3 / 10)) .ok] (.osccPublish .brake (.finite (1 / 2)))
    (by decide +kernel)
  exact absurd (Double.finite_le.mp hsent) (by norm_num [Config.upper])

/-! ## Faithful limiting -/

/-- What a limiter to `[lo, hi]` makes of a request: nothing more than it has to of a finite
one, and the value nearest to zero of any other. -/
structure Limiter (lo hi : ℚ) (f : Double → ℚ) : Prop where
  lower : ∀ v, lo ≤ f v
  upper : ∀ v, f v ≤ hi
  inside : ∀ q, lo ≤ q → q ≤ hi → f (.finite q) = q
  monotone : Monotone fun q => f (.finite q)
  nearest : ∀ v, v.isFinite = false → ∀ q, lo ≤ q → q ≤ hi → |f v| ≤ |q|

/-- The value that a channel sends, as a number. -/
def limit (cfg : Config) (channel : Channel) (requested : Double) : ℚ :=
  max (cfg.lower channel) (min (sanitized requested) (cfg.upper channel))

/-- The point of an interval that is nearest to zero. -/
theorem abs_max_min_zero_le {lo hi q : ℚ} (hlo : lo ≤ q) (hhi : q ≤ hi) :
    |max lo (min 0 hi)| ≤ |q| := by
  rcases le_total lo 0 with hneg | hpos
  · rcases le_total 0 hi with hup | hdown
    · rw [min_eq_left hup, max_eq_right hneg, abs_zero]
      exact abs_nonneg q
    · rw [min_eq_right hdown, max_eq_right (hlo.trans hhi), abs_of_nonpos hdown,
        abs_of_nonpos (hhi.trans hdown)]
      exact neg_le_neg hhi
  · have hq : 0 ≤ q := hpos.trans hlo
    rw [min_eq_left (hq.trans hhi), max_eq_left hpos, abs_of_nonneg hpos, abs_of_nonneg hq]
    exact hlo

theorem limiter_limit (h : cfg.Ordered channel) :
    Limiter (cfg.lower channel) (cfg.upper channel) (limit cfg channel) where
  lower v := le_max_left _ _
  upper v := max_le h (min_le_right _ _)
  inside q hlo hhi := by rw [limit, sanitized, min_eq_left hhi, max_eq_right hlo]
  monotone q r hqr := max_le_max le_rfl (min_le_min hqr le_rfl)
  nearest v hv q hlo hhi := by
    have hzero : sanitized v = 0 := by
      cases v with
      | finite => simp at hv
      | posInf | negInf | nan => rfl
    rw [limit, hzero]
    exact abs_max_min_zero_le hlo hhi

/-- The calls of the OSCC API in a trace. -/
def osccCalls (os : List Output) : List Output :=
  os.filter fun
    | .osccPublish _ _ | .osccEnable | .osccDisable => true
    | .clampCall _ _ _ | .log _ => false

/-- The values sent on a channel. -/
def sent (channel : Channel) (os : List Output) : List Double :=
  os.filterMap fun | .osccPublish c value => if c = channel then some value else none | _ => none

/-- The request of a command message on this channel. -/
def Event.request (channel : Channel) (e : Event) : Option Double :=
  e.command.bind fun c => if c.1 = channel then some c.2 else none

/-- The requests of a run on this channel. -/
def requests (channel : Channel) (es : List Event) : List Double :=
  es.filterMap (Event.request channel)

@[simp] theorem sent_append (os ps : List Output) :
    sent channel (os ++ ps) = sent channel os ++ sent channel ps := List.filterMap_append

@[simp] theorem osccCalls_append (os ps : List Output) :
    osccCalls (os ++ ps) = osccCalls os ++ osccCalls ps := List.filter_append _ _

@[simp] theorem osccCalls_logs (lines : List Log) : osccCalls (lines.map .log) = [] := by
  simp [osccCalls]

/-- A command message makes exactly one OSCC call, on its own channel. -/
theorem osccCalls_command {requested : Double} (h : e.command = some (channel, requested)) :
    osccCalls (handle cfg e) = [.osccPublish channel (limited cfg channel requested)] := by
  obtain ⟨before, between, after, heq⟩ := handle_command cfg h
  have hclamp (v lo hi : Double) (os : List Output) :
      osccCalls (.clampCall v lo hi :: os) = osccCalls os := rfl
  have hpublish (v : Double) (os : List Output) :
      osccCalls (.osccPublish channel v :: os) = .osccPublish channel v :: osccCalls os := rfl
  simp [heq, hclamp, hpublish]

/-- What one message sends on a channel. -/
theorem sent_handle (cfg : Config) (channel : Channel) (e : Event) :
    sent channel (handle cfg e) = ((e.request channel).map (limited cfg channel)).toList := by
  cases h : e.command with
  | none =>
    obtain ⟨enable, result, rfl⟩ := Event.eq_enableDisable h
    cases enable <;> cases result <;> rfl
  | some c =>
    obtain ⟨before, between, after, heq⟩ := handle_command cfg h
    rw [heq]
    by_cases hc : c.1 = channel <;> simp [sent, Event.request, h, hc]

theorem sent_trace (cfg : Config) (channel : Channel) (es : List Event) :
    sent channel ((rosToOscc cfg).trace es) = (requests channel es).map (limited cfg channel) := by
  induction es using List.reverseRecOn with
  | nil => rfl
  | append_singleton es e ih =>
    have hemit : (rosToOscc cfg).emit ((rosToOscc cfg).state es) e = handle cfg e := rfl
    rw [Machine.trace_snoc, sent_append, ih, hemit, sent_handle, requests, requests,
      List.filterMap_append, List.map_append]
    cases h : e.request channel <;> simp [h]

/-- With ordered limits the bridge is a limiter on each channel: the values sent are the
limited requests in order, every command message makes one OSCC call, and a steering request
that is not finite is sent as zero. -/
theorem commands_limited (cfg : Config) (hordered : ∀ channel, cfg.Ordered channel) :
    ∃ f : Channel → Double → ℚ,
      (∀ channel, Limiter (cfg.lower channel) (cfg.upper channel) (f channel)) ∧
      (∀ v, v.isFinite = false → f .steering v = 0) ∧
      ∀ es, (∀ channel, sent channel ((rosToOscc cfg).trace es) =
          (requests channel es).map fun v => .finite (f channel v)) ∧
        Historically (fun past e => ∀ channel requested,
          e.command = some (channel, requested) →
            osccCalls ((rosToOscc cfg).emit ((rosToOscc cfg).state past) e) =
              [.osccPublish channel (.finite (f channel requested))]) es := by
  have hlimited (channel : Channel) (v : Double) :
      limited cfg channel v = .finite (limit cfg channel v) :=
    limited_of_ordered (hordered channel) v
  refine ⟨limit cfg, fun channel => limiter_limit (hordered channel), ?_, ?_⟩
  · intro v hv
    have hzero := (limiter_limit (hordered .steering)).nearest v hv 0 cfg.steeringMin.2.2
      cfg.steeringMax.2.1
    rwa [abs_zero, abs_nonpos_iff] at hzero
  · intro es
    constructor
    · intro channel
      rw [sent_trace]
      exact List.map_congr_left fun v _ => hlimited channel v
    · intro past e _ channel requested h
      rw [← hlimited]
      exact osccCalls_command h

/-- Limits that leave the brake no zero: a NaN is sent as the minimum. -/
theorem commands_limited_brake_floor :
    let cfg : Config := { Config.default with brakeMin := ⟨1 / 5, by norm_num⟩ }
    ∃ f : Channel → Double → ℚ, Limiter (1 / 5) 1 (f .brake) ∧
      sent .brake ((rosToOscc cfg).trace [.brakeCommand .nan .ok]) = [.finite (f .brake .nan)] := by
  intro cfg
  obtain ⟨f, hlimiter, -, hsent⟩ := commands_limited cfg (by
    intro channel
    cases channel <;> decide +kernel)
  exact ⟨f, hlimiter .brake, (hsent _).1 .brake⟩

end Roscco.RosToOscc
