import Roscco.CommandLink.Basic

/-!
# What reaches OSCC

Every publishing tick of the teleop node leads to at most one call of OSCC on each channel, with
the limited value that the tick sends, in the order of the ticks, as long as the topics do not
make messages up, repeat or reorder them. Where `enable_disable` does not lose its last message
either, a drained topic leaves OSCC switched as the teleop node is. After a disable only
commands that were already in flight reach OSCC.

## Main results

* `commands_delivered` — the commands that OSCC gets are those of the ticks, limited.
* `switches_agree` — a drained topic leaves OSCC as the teleop node wants it.
* `disable_leaves_flight` — what can still reach OSCC after a disable.
-/

namespace Roscco.CommandLink

open Library
open RosToOscc (Channel OsccResult limited sent)

variable {net : Network} {cfg : Teleop.Config} {limits : RosToOscc.Config}

/-! ## One step -/

/-- A command makes the bridge send one limited value, on its own channel. -/
theorem handle_message (limits : RosToOscc.Config) (channel other : Channel) (value : Double)
    (result : OsccResult) :
    sent other (RosToOscc.handle limits (message channel value result)) =
        (if channel = other then [limited limits other value] else []) ∧
      switches (RosToOscc.handle limits (message channel value result)) = [] := by
  have hcommand : (message channel value result).command = some (channel, value) := by
    cases channel <;> rfl
  refine ⟨?_, ?_⟩
  · rw [RosToOscc.sent_handle, RosToOscc.Event.request, hcommand]
    by_cases h : channel = other <;> simp [h]
  · obtain ⟨before, between, after, heq⟩ := RosToOscc.handle_command limits hcommand
    rw [heq]
    simp [switches]

/-- An `EnableDisable` message makes the bridge switch OSCC, and send nothing. -/
theorem handle_enableDisable (limits : RosToOscc.Config) (enable : Bool) (result : OsccResult) :
    (∀ channel, sent channel (RosToOscc.handle limits (.enableDisable enable result)) = []) ∧
      switches (RosToOscc.handle limits (.enableDisable enable result)) = [enable] := by
  cases enable <;> cases result <;> exact ⟨fun _ => rfl, rfl⟩

section

variable {R : List Double → List Double → Prop} {channel : Channel}

/-- What one step does to the commands of a channel. -/
theorem command_hop (hR : Contextual R) (hkeeps : (net.commands channel).Keeps R)
    (cfg : Teleop.Config) (limits : RosToOscc.Config) (s : State net) (e : Event net) :
    ∃ taken, sent channel (bridgeOutputs ((commandLink net cfg limits).emit s e)) =
        taken.map (limited limits channel) ∧
      Transport.Hop R (s.commandsInFlight channel)
        (Teleop.values (topic channel)
          (teleopOutputs ((commandLink net cfg limits).emit s e))) taken
        (((commandLink net cfg limits).next s e).commandsInFlight channel) := by
  have hnone := Transport.Hop.none hR ((net.commands channel).flight (s.commands channel))
  simp only [commandLink, Machine.emit, Machine.next, State.commandsInFlight]
  cases e with
  | teleop e =>
    refine ⟨[], by simp [step, publish, sent], ?_⟩
    simpa [step, publish] using hkeeps.hop_sendAll hR (s.commands channel) _
  | command c result =>
    cases hc : (net.commands c).take (s.commands c) with
    | none =>
      refine ⟨[], by simp [step, deliverCommand, hc, sent, bridgeOutputs], ?_⟩
      simpa [step, deliverCommand, hc, teleopOutputs, Teleop.values] using hnone
    | some arrived =>
      obtain ⟨value, rest⟩ := arrived
      obtain ⟨hsent, -⟩ := handle_message limits c channel value result
      by_cases h : c = channel
      · subst h
        refine ⟨[value], by simpa [step, deliverCommand, hc] using hsent, ?_⟩
        simpa [step, deliverCommand, hc, Teleop.values] using hkeeps.hop_take hc
      · refine ⟨[], by simpa [step, deliverCommand, hc, h] using hsent, ?_⟩
        simpa [step, deliverCommand, hc, Ne.symm h, Teleop.values] using hnone
  | enableDisable result =>
    cases hc : net.enableDisable.take s.enableDisable with
    | none =>
      refine ⟨[], by simp [step, deliverEnableDisable, hc, sent, bridgeOutputs], ?_⟩
      simpa [step, deliverEnableDisable, hc, teleopOutputs, Teleop.values] using hnone
    | some arrived =>
      refine ⟨[], ?_, ?_⟩
      · simpa [step, deliverEnableDisable, hc] using
          (handle_enableDisable limits arrived.1 result).1 channel
      · simpa [step, deliverEnableDisable, hc, Teleop.values] using hnone
  | moveCommand c a =>
    refine ⟨[], by simp [step, sent, bridgeOutputs], ?_⟩
    by_cases h : c = channel
    · subst h
      simpa [step, teleopOutputs, Teleop.values] using hkeeps.hop_move (s.commands c) a
    · simpa [step, Ne.symm h, teleopOutputs, Teleop.values] using hnone
  | moveEnableDisable a =>
    refine ⟨[], by simp [step, sent, bridgeOutputs], ?_⟩
    simpa [step, teleopOutputs, Teleop.values] using hnone

end

/-- What one step does to `enable_disable`. -/
theorem enables_hop {R : List Bool → List Bool → Prop} (hR : Contextual R)
    (hkeeps : net.enableDisable.Keeps R) (cfg : Teleop.Config) (limits : RosToOscc.Config)
    (s : State net) (e : Event net) :
    Transport.Hop R s.enablesInFlight
      (Teleop.enables (teleopOutputs ((commandLink net cfg limits).emit s e)))
      (switches (bridgeOutputs ((commandLink net cfg limits).emit s e)))
      ((commandLink net cfg limits).next s e).enablesInFlight := by
  have hnone := Transport.Hop.none hR (net.enableDisable.flight s.enableDisable)
  simp only [commandLink, Machine.emit, Machine.next, State.enablesInFlight]
  cases e with
  | teleop e =>
    simpa [step, publish, switches] using hkeeps.hop_sendAll hR s.enableDisable _
  | command c result =>
    cases hc : (net.commands c).take (s.commands c) with
    | none => simpa [step, deliverCommand, hc, teleopOutputs, bridgeOutputs, switches] using hnone
    | some arrived =>
      obtain ⟨-, hswitches⟩ := handle_message limits c c arrived.1 result
      simpa [step, deliverCommand, hc, hswitches] using hnone
  | enableDisable result =>
    cases hc : net.enableDisable.take s.enableDisable with
    | none =>
      simpa [step, deliverEnableDisable, hc, teleopOutputs, bridgeOutputs, switches] using hnone
    | some arrived =>
      obtain ⟨-, hswitches⟩ := handle_enableDisable limits arrived.1 result
      simpa [step, deliverEnableDisable, hc, hswitches] using hkeeps.hop_take hc
  | moveCommand c a => simpa [step, teleopOutputs, bridgeOutputs, switches] using hnone
  | moveEnableDisable a =>
    simpa [step, teleopOutputs, bridgeOutputs, switches] using
      hkeeps.hop_move s.enableDisable a

/-- The teleop node is a component, and takes no notice of the rest. -/
theorem teleop_step (cfg : Teleop.Config) (limits : RosToOscc.Config) (s : State net)
    (e : Event net) :
    ((commandLink net cfg limits).next s e).teleop =
        (Teleop.teleop cfg).stateFrom s.teleop e.teleop?.toList ∧
      teleopOutputs ((commandLink net cfg limits).emit s e) =
        (Teleop.teleop cfg).traceFrom s.teleop e.teleop?.toList := by
  simp only [commandLink, Machine.emit, Machine.next]
  cases e with
  | teleop e => simp [step, publish, Event.teleop?, Teleop.teleop, Machine.next, Machine.emit]
  | command c result =>
    cases hc : (net.commands c).take (s.commands c) <;>
      simp [step, deliverCommand, hc, Event.teleop?, teleopOutputs]
  | enableDisable result =>
    cases hc : net.enableDisable.take s.enableDisable <;>
      simp [step, deliverEnableDisable, hc, Event.teleop?, teleopOutputs]
  | moveCommand | moveEnableDisable => simp [step, Event.teleop?, teleopOutputs]

/-! ## Runs -/

theorem teleop_from (cfg : Teleop.Config) (limits : RosToOscc.Config) (s : State net)
    (es : List (Event net)) :
    ((commandLink net cfg limits).stateFrom s es).teleop =
        (Teleop.teleop cfg).stateFrom s.teleop (teleopEvents es) ∧
      teleopOutputs ((commandLink net cfg limits).traceFrom s es) =
        (Teleop.teleop cfg).traceFrom s.teleop (teleopEvents es) := by
  have hpassed := (commandLink net cfg limits).passed_of_events
    (fun (_ : State net) (e : Event net) => (rfl : e.teleop?.toList = _)) s es
  rw [teleopEvents, ← hpassed]
  exact Machine.component_from State.teleop (C := fun _ => True) (fun _ _ _ => trivial)
    (fun s e _ => teleop_step cfg limits s e) trivial es

/-- The commands of a channel along a part of a run. -/
theorem commands_from {R : List Double → List Double → Prop} (hR : Contextual R)
    {channel : Channel} (hkeeps : (net.commands channel).Keeps R) (cfg : Teleop.Config)
    (limits : RosToOscc.Config) (s : State net) (es : List (Event net)) : ∃ taken,
      sent channel (bridgeOutputs ((commandLink net cfg limits).traceFrom s es)) =
        taken.map (limited limits channel) ∧
      R (s.commandsInFlight channel ++ Teleop.values (topic channel)
          ((Teleop.teleop cfg).traceFrom s.teleop (teleopEvents es)))
        (taken ++ ((commandLink net cfg limits).stateFrom s es).commandsInFlight channel) := by
  have hfrom := (commandLink net cfg limits).transport_from hR
    (fun s => s.commandsInFlight channel)
    (fun os => Teleop.values (topic channel) (teleopOutputs os))
    (fun os => sent channel (bridgeOutputs os)) (limited limits channel) (by simp) (by simp)
    (fun s e => command_hop hR hkeeps cfg limits s e) s es
  rwa [(teleop_from cfg limits s es).2] at hfrom

/-- The messages on `enable_disable` along a part of a run. -/
theorem enables_from {R : List Bool → List Bool → Prop} (hR : Contextual R)
    (hkeeps : net.enableDisable.Keeps R) (cfg : Teleop.Config) (limits : RosToOscc.Config)
    (s : State net) (es : List (Event net)) :
    R (s.enablesInFlight ++ Teleop.enables
        ((Teleop.teleop cfg).traceFrom s.teleop (teleopEvents es)))
      (switches (bridgeOutputs ((commandLink net cfg limits).traceFrom s es)) ++
        ((commandLink net cfg limits).stateFrom s es).enablesInFlight) := by
  obtain ⟨taken, htaken, hhop⟩ := (commandLink net cfg limits).transport_from hR
    State.enablesInFlight (fun os => Teleop.enables (teleopOutputs os))
    (fun os => switches (bridgeOutputs os)) id (by simp) (by simp)
    (fun s e => ⟨_, (List.map_id _).symm, enables_hop hR hkeeps cfg limits s e⟩) s es
  rw [List.map_id] at htaken
  rw [(teleop_from cfg limits s es).2] at hhop
  rwa [htaken]

/-- The commands of a channel along a whole run. -/
theorem commands_run {R : List Double → List Double → Prop} (hR : Contextual R)
    {channel : Channel} (hkeeps : (net.commands channel).Keeps R) (cfg : Teleop.Config)
    (limits : RosToOscc.Config) (es : List (Event net)) : ∃ taken,
      sent channel (bridgeOutputs ((commandLink net cfg limits).trace es)) =
        taken.map (limited limits channel) ∧
      R (Teleop.values (topic channel) ((Teleop.teleop cfg).trace (teleopEvents es)))
        (taken ++ ((commandLink net cfg limits).state es).commandsInFlight channel) := by
  have hfrom := commands_from hR hkeeps cfg limits (commandLink net cfg limits).init es
  have hinit : (commandLink net cfg limits).init.commandsInFlight channel = [] := hkeeps.init
  rwa [hinit, List.nil_append] at hfrom

/-- What the publishing ticks of a run send on the topic of a channel, limited. -/
def tickCommands (cfg : Teleop.Config) (limits : RosToOscc.Config) (channel : Channel)
    (es : List Teleop.Event) : List Double :=
  ((Teleop.teleop cfg).found (Teleop.Event.Publishes cfg) (Teleop.teleop cfg).init es).map
    fun t => limited limits channel (t.value cfg (topic channel))

theorem map_limited_values (cfg : Teleop.Config) (limits : RosToOscc.Config) (channel : Channel)
    (es : List Teleop.Event) :
    (Teleop.values (topic channel) ((Teleop.teleop cfg).trace es)).map (limited limits channel) =
      tickCommands cfg limits channel es := by
  rw [Teleop.values_trace, List.map_map]
  rfl

/-- Over a topic that makes no message up, repeats and reorders none, every publishing tick
leads to at most one call of OSCC on a channel, with the limited value that the tick sends, and
the calls come in the order of the ticks. Over one that loses no message either, a tick whose
command is not still in flight has led to its call. -/
theorem commands_delivered (net : Network) (cfg : Teleop.Config) (limits : RosToOscc.Config)
    (channel : Channel) (horder : (net.commands channel).InOrder) (es : List (Event net)) :
    let delivered := sent channel (bridgeOutputs ((commandLink net cfg limits).trace es))
    let flight := ((commandLink net cfg limits).state es).commandsInFlight channel
    (delivered ++ flight.map (limited limits channel)).Sublist
        (tickCommands cfg limits channel (teleopEvents es)) ∧
      ((net.commands channel).Lossless →
        delivered ++ flight.map (limited limits channel) =
          tickCommands cfg limits channel (teleopEvents es)) := by
  intro delivered flight
  constructor
  · obtain ⟨taken, hsent, hsublist⟩ := commands_run contextual_sublist horder cfg limits es
    rw [show delivered = taken.map _ from hsent, ← List.map_append, ← map_limited_values]
    exact hsublist.map (limited limits channel)
  · intro hlossless
    obtain ⟨taken, hsent, heq⟩ := commands_run contextual_eq hlossless cfg limits es
    rw [show delivered = taken.map _ from hsent, ← List.map_append, ← map_limited_values, heq]

/-- Half brake at the first tick and none at the second. The bridge has received the first. -/
theorem commands_delivered_two_ticks :
    let net : Network := ⟨fun _ => .fifo Double, .fifo Bool⟩
    let link := commandLink net .default .default
    let es : List (Event net) := [.teleop (.joy (Teleop.padJoy 1 1 0 0 0) 1000000000 1000000000),
      .teleop (.joy (Teleop.padJoy 0 1 0 0 1) 1020000000 1020000000),
      .teleop (.tick 1030000000 1030000000),
      .teleop (.joy (Teleop.padJoy 1 1 0 0 0) 1040000000 1040000000),
      .teleop (.tick 1050000000 1050000000), .command .brake .ok]
    sent .brake (bridgeOutputs (link.trace es)) = [.finite (1 / 2)] ∧
      (link.state es).commandsInFlight .brake = [0] ∧
      tickCommands .default .default .brake (teleopEvents es) = [.finite (1 / 2), 0] := by
  intro net link es
  have hsent : sent .brake (bridgeOutputs (link.trace es)) = [.finite (1 / 2)] := by
    decide +kernel
  have hflight : (link.state es).commandsInFlight .brake = [0] := by decide +kernel
  have hall := (commands_delivered net .default .default .brake (Transport.fifo_inOrder Double)
    es).2 (Transport.fifo_lossless Double)
  rw [hsent, hflight] at hall
  exact ⟨hsent, hflight, hall.symm⟩

/-- Over an `enable_disable` that makes no message up, repeats and reorders none, OSCC is
switched by the messages of the teleop node, in the order in which they were published. Where
the topic does not lose its last message either, the last switch that has arrived or is still in
flight is the last one published: once nothing is in flight, OSCC has last been told to enable
exactly when the teleop node is enabled. -/
theorem switches_agree (net : Network) (cfg : Teleop.Config) (limits : RosToOscc.Config)
    (horder : net.enableDisable.InOrder) (es : List (Event net)) :
    let switched := switches (bridgeOutputs ((commandLink net cfg limits).trace es))
    let s := (commandLink net cfg limits).state es
    (switched ++ s.enablesInFlight).Sublist
        (Teleop.enables ((Teleop.teleop cfg).trace (teleopEvents es))) ∧
      (net.enableDisable.KeepsLast →
        s.teleop.enabled = (switched ++ s.enablesInFlight).getLast?.getD false) := by
  intro switched s
  have hrun {R : List Bool → List Bool → Prop} (hR : Contextual R)
      (hkeeps : net.enableDisable.Keeps R) :
      R (Teleop.enables ((Teleop.teleop cfg).trace (teleopEvents es)))
        (switched ++ s.enablesInFlight) := by
    have hfrom := enables_from hR hkeeps cfg limits (commandLink net cfg limits).init es
    have hinit : (commandLink net cfg limits).init.enablesInFlight = [] := hkeeps.init
    rwa [hinit, List.nil_append] at hfrom
  refine ⟨hrun contextual_sublist horder, fun hlast => ?_⟩
  calc s.teleop.enabled
      = ((Teleop.teleop cfg).state (teleopEvents es)).enabled := by
        exact congrArg Teleop.State.enabled (teleop_from cfg limits _ es).1
    _ = (Teleop.lastEnable ((Teleop.teleop cfg).trace (teleopEvents es))).getD false :=
        Teleop.enabled_eq_lastEnable cfg (teleopEvents es)
    _ = _ := congrArg (·.getD false) (hrun contextual_getLast? hlast).symm

/-- The pad is armed and enabled; with the message delivered, both sides are on. -/
theorem switches_agree_enabled :
    let link := commandLink .matched .default .default
    let es : List (Event .matched) :=
      [.teleop (.joy (Teleop.padJoy 1 1 0 0 0) 1000000000 1000000000),
        .teleop (.joy (Teleop.padJoy 1 1 0 0 1) 1020000000 1020000000), .enableDisable .ok]
    switches (bridgeOutputs (link.trace es)) = [true] ∧ (link.state es).enablesInFlight = [] ∧
      (link.state es).teleop.enabled = true := by
  intro link es
  have hswitched : switches (bridgeOutputs (link.trace es)) = [true] := by decide +kernel
  have hflight : (link.state es).enablesInFlight = [] := by decide +kernel
  have hlast := (switches_agree .matched .default .default (Transport.history_inOrder 10 Bool)
    es).2 (Transport.history_keepsLast (by decide) Bool)
  rw [hswitched, hflight] at hlast
  exact ⟨hswitched, hflight, hlast⟩

/-- After a disable only what was already in flight can reach OSCC: until the teleop node
publishes another enable, each channel sends no other commands. -/
theorem disable_leaves_flight (net : Network) (cfg : Teleop.Config) (limits : RosToOscc.Config)
    (channel : Channel) (horder : (net.commands channel).InOrder) (past later : List (Event net))
    (hoff : ((commandLink net cfg limits).state past).teleop.enabled = false)
    (hno : true ∉ Teleop.enables (teleopOutputs ((commandLink net cfg limits).traceFrom
      ((commandLink net cfg limits).state past) later))) :
    (sent channel (bridgeOutputs ((commandLink net cfg limits).traceFrom
        ((commandLink net cfg limits).state past) later)) ++
      (((commandLink net cfg limits).stateFrom ((commandLink net cfg limits).state past)
        later).commandsInFlight channel).map (limited limits channel)).Sublist
      ((((commandLink net cfg limits).state past).commandsInFlight channel).map
        (limited limits channel)) := by
  generalize (commandLink net cfg limits).state past = s at hoff hno ⊢
  rw [(teleop_from cfg limits s later).2] at hno
  have hsilent : Teleop.values (topic channel)
      ((Teleop.teleop cfg).traceFrom s.teleop (teleopEvents later)) = [] :=
    Teleop.values_eq_nil (Teleop.no_command_of_disabled hoff hno) (topic channel)
  obtain ⟨taken, hsent, hsublist⟩ := commands_from contextual_sublist horder cfg limits s later
  rw [hsilent, List.append_nil] at hsublist
  rw [hsent, ← List.map_append]
  exact hsublist.map (limited limits channel)

/-- A full brake command is published, then BACK is pressed. OSCC is disabled first and gets the
command after that. -/
theorem disable_leaves_flight_late_brake :
    let link := commandLink .matched .default .default
    let past : List (Event .matched) :=
      [.teleop (.joy (Teleop.padJoy 1 1 0 0 0) 1000000000 1000000000),
        .teleop (.joy (Teleop.padJoy (-1) 1 1 0 1) 1020000000 1020000000),
        .teleop (.tick 1030000000 1030000000), .enableDisable .ok,
        .teleop (.joy (Teleop.padJoy (-1) 1 1 1 0) 1040000000 1040000000)]
    let later : List (Event .matched) := [.enableDisable .ok, .command .brake .ok]
    switches (bridgeOutputs (link.traceFrom (link.state past) (later.take 1))) = [false] ∧
      sent .brake (bridgeOutputs (link.traceFrom (link.state past) later)) = [1] ∧
      (sent .brake (bridgeOutputs (link.traceFrom (link.state past) later)) ++
        ((link.stateFrom (link.state past) later).commandsInFlight .brake).map
          (limited .default .brake)).Sublist
        (((link.state past).commandsInFlight .brake).map (limited .default .brake)) := by
  intro link past later
  refine ⟨by decide +kernel, by decide +kernel, ?_⟩
  exact disable_leaves_flight .matched .default .default .brake
    (Transport.history_inOrder 10 Double) past later (by decide +kernel) (by decide +kernel)

end Roscco.CommandLink
