import Roscco.CommandLink.Delivery
import Roscco.Teleop.TorqueMemory

/-!
# Where the commands come from

Nothing is sent to OSCC that the gamepad has not asked for. However late a command arrives and
whichever others are lost on the way, it was published by an enabled node whose latest joy
message was not too old, and it is the limited image of what this message asks for; a torque
also carries what is left of the messages before it.

## Main results

* `commands_asked_for` — the joy messages behind every value that OSCC gets.
-/

namespace Roscco.CommandLink

open Library
open RosToOscc (Channel limited sent)

variable {cfg : Teleop.Config} {past : List Teleop.Event} {e : Teleop.Event}

/-- What a tick after these callbacks publishes on a channel, by the latest joy message. -/
inductive AskedFor (cfg : Teleop.Config) (past : List Teleop.Event) (tick : Teleop.Event)
    (latest : Teleop.Sample) : Channel → Double → Prop
  | brake : AskedFor cfg past tick latest .brake (Teleop.brakeOf cfg latest)
  | throttle : AskedFor cfg past tick latest .throttle (Teleop.throttleOf cfg latest)
  | steering (numbers : List ℚ)
    (hsetpoints : Teleop.setpoints cfg (past ++ [tick]) = numbers.map .finite) :
    AskedFor cfg past tick latest .steering (.finite (fading cfg.smoothingFactor.1 numbers))

/-- A value was published by an enabled node, for a joy message no older than the time limit. -/
def Originates (cfg : Teleop.Config) (es : List Teleop.Event) (channel : Channel) (v : Double) :
    Prop :=
  ∃ past checked stamp, past ++ [.tick checked stamp] <+: es ∧
    ((Teleop.teleop cfg).state past).enabled = true ∧
    ∃ x older, Teleop.accepted cfg past = x :: older ∧
      seconds (checked - x.time) ≤ .finite cfg.joyTimeoutS.1 ∧
      AskedFor cfg past (.tick checked stamp) x.sample channel v

/-- The torque of a publishing tick. -/
theorem torque_asked_for (hrange : ∀ e ∈ past, e.AxesInRange)
    (hpublishes : e.Publishes cfg ((Teleop.teleop cfg).state past)) (latest : Teleop.Sample) :
    AskedFor cfg past e latest .steering
      (Teleop.nextAverage cfg ((Teleop.teleop cfg).state past)) := by
  obtain ⟨⟨numbers, hnumbers, haverage⟩, -⟩ :=
    Teleop.remembers_step (e := e) hrange (Teleop.remembers_state cfg past hrange)
  rw [(Teleop.torque_publish hpublishes).2] at haverage
  rw [haverage]
  exact .steering numbers hnumbers

/-- What a publishing tick sends on the topic of a channel. -/
theorem value_asked_for (hrange : ∀ e ∈ past, e.AxesInRange)
    (hpublishes : e.Publishes cfg ((Teleop.teleop cfg).state past)) {latest : Teleop.Received}
    {older : List Teleop.Received} (hlatest : Teleop.accepted cfg past = latest :: older)
    (hon : ((Teleop.teleop cfg).state past).enabled = true) (channel : Channel) :
    AskedFor cfg past e latest.sample channel
      (((Teleop.teleop cfg).state past).value cfg (topic channel)) := by
  obtain ⟨-, x, older', haccepted, -, hbrake, hthrottle, -⟩ :=
    Teleop.fresh_of_enabled cfg past hon
  obtain ⟨rfl, -⟩ := List.cons.inj (hlatest.symm.trans haccepted)
  cases channel with
  | brake =>
    rw [topic, Teleop.State.value, hbrake]
    exact .brake
  | throttle =>
    rw [topic, Teleop.State.value, hthrottle]
    exact .throttle
  | steering => exact torque_asked_for hrange hpublishes latest.sample

/-- The watchdog lets a tick publish only while the latest joy message is fresh. -/
theorem fresh_of_publishes (hclock : ∀ e ∈ past, 0 < e.clock) {checked stamp : Time}
    (hpublishes : Teleop.Event.Publishes cfg ((Teleop.teleop cfg).state past)
      (.tick checked stamp)) :
    ∃ x older, Teleop.accepted cfg past = x :: older ∧
      seconds (checked - x.time) ≤ .finite cfg.joyTimeoutS.1 := by
  obtain ⟨htrip, hon⟩ := hpublishes
  obtain ⟨-, x, older, haccepted, hlast, -⟩ := Teleop.fresh_of_enabled cfg past hon
  have hx : 0 < x.time :=
    Teleop.time_pos_of_mem_accepted hclock (haccepted ▸ List.mem_cons_self)
  have hfresh := Teleop.in_time_of_not_trips htrip hon (hlast ▸ hx)
  rw [hlast] at hfresh
  exact ⟨x, older, haccepted, hfresh⟩

/-- Whatever the teleop node publishes has been asked for. -/
theorem published_originates (cfg : Teleop.Config) (es : List Teleop.Event)
    (hrange : ∀ e ∈ es, e.AxesInRange) (hclock : ∀ e ∈ es, 0 < e.clock) (channel : Channel) :
    ∀ v ∈ Teleop.values (topic channel) ((Teleop.teleop cfg).trace es),
      Originates cfg es channel v := by
  have hall : ∀ o ∈ (Teleop.teleop cfg).trace es, ∀ v ∈ o.value (topic channel),
      Originates cfg es channel v := by
    rw [Machine.forall_mem_trace]
    intro past e hprefix o ho v hv
    have hpast (x : Teleop.Event) (hx : x ∈ past) : x ∈ es :=
      hprefix.subset (List.mem_append_left _ hx)
    have hsent : v ∈ Teleop.values (topic channel)
        ((Teleop.teleop cfg).emit ((Teleop.teleop cfg).state past) e) :=
      List.mem_filterMap.mpr ⟨o, ho, hv⟩
    rw [Teleop.values_emit] at hsent
    split at hsent
    · next hpublishes =>
      obtain rfl := List.mem_singleton.mp hsent
      obtain ⟨checked, stamp, rfl⟩ : ∃ checked stamp, e = .tick checked stamp := by
        cases e with
        | joy => exact absurd hpublishes id
        | tick checked stamp => exact ⟨checked, stamp, rfl⟩
      obtain ⟨x, older, haccepted, hfresh⟩ :=
        fresh_of_publishes (fun x hx => hclock x (hpast x hx)) hpublishes
      refine ⟨past, checked, stamp, hprefix, hpublishes.2, x, older, haccepted, hfresh, ?_⟩
      exact value_asked_for (fun x hx => hrange x (hpast x hx)) hpublishes haccepted
        hpublishes.2 channel
    · simp at hsent
  intro v hv
  obtain ⟨o, ho, hvalue⟩ := List.mem_filterMap.mp hv
  exact hall o ho v hvalue

/-- Every value that OSCC gets goes back to the gamepad, over a topic that makes no message up and
while the axes are in their range and the clock is positive: it is the limited image of a value
that some tick published while the node was enabled and the latest joy message not too old,
which is what the triggers of this message ask for, or the stick's set-points up to it. -/
theorem commands_asked_for (net : Network) (cfg : Teleop.Config) (limits : RosToOscc.Config)
    (channel : Channel) (horder : (net.commands channel).InOrder) (es : List (Event net))
    (hrange : ∀ e ∈ teleopEvents es, e.AxesInRange) (hclock : ∀ e ∈ teleopEvents es, 0 < e.clock) :
    ∀ v ∈ sent channel (bridgeOutputs ((commandLink net cfg limits).trace es)),
      ∃ asked, Originates cfg (teleopEvents es) channel asked ∧
        v = limited limits channel asked := by
  obtain ⟨taken, hsent, hsublist⟩ := commands_run contextual_sublist horder cfg limits es
  rw [hsent]
  intro v hv
  obtain ⟨asked, hasked, rfl⟩ := List.mem_map.mp hv
  have hpublished : asked ∈ Teleop.values (topic channel)
      ((Teleop.teleop cfg).trace (teleopEvents es)) :=
    hsublist.subset (List.mem_append_left _ hasked)
  exact ⟨asked, published_originates cfg _ hrange hclock channel asked hpublished, rfl⟩

/-- A brake trigger that is pulled half way is enabled, published and delivered. -/
theorem commands_asked_for_half_brake :
    let es : List (Event .matched) :=
      [.teleop (.joy (Teleop.padJoy 1 1 0 0 0) 1000000000 1000000000),
        .teleop (.joy (Teleop.padJoy 0 1 0 0 1) 1020000000 1020000000),
        .teleop (.tick 1030000000 1030000000), .command .brake .ok]
    ∃ asked, Originates .default (teleopEvents es) .brake asked ∧
      .finite (1 / 2) = limited .default .brake asked := by
  intro es
  exact commands_asked_for .matched .default .default .brake
    (Transport.history_inOrder 10 Double) es (by decide +kernel) (by decide +kernel)
    (.finite (1 / 2)) (by decide +kernel)

end Roscco.CommandLink
