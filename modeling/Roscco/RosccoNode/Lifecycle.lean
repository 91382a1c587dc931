import Roscco.RosccoNode.Basic

/-!
# The order of the OSCC calls

Reports are subscribed to before the first command and after OSCC is opened; after `spin` the
node disables OSCC, detaches its callbacks and closes OSCC, in this order, and commands nothing
in between. A process that fails or throws on the way up has commanded nothing.

## Main results

* `calls_scripted` — the OSCC calls of a run, and of a process that has come to its end.
-/

namespace Roscco.RosccoNode

open Library
open OsccToRos (Topic)

variable {parameters : Overrides} {s t : State} {e : Event}

/-! ## The script -/

/-- The calls that command the vehicle. -/
def OsccCall.isCommand : OsccCall → Bool
  | .osccPublish _ _ | .osccEnable | .osccDisable => true
  | .osccOpen _ | .osccSubscribe _ | .osccUnsubscribe _ | .osccClose _ => false

/-- The OSCC call that an observation is. -/
def Output.osccCall : Output → Option OsccCall
  | .call made => some made
  | .subscriber (.osccPublish channel value) => some (.osccPublish channel value)
  | .subscriber .osccEnable => some .osccEnable
  | .subscriber .osccDisable => some .osccDisable
  | .subscriber (.clampCall _ _ _) | .subscriber (.log _) | .publisher _ | .log _ => none

def osccCalls (os : List Output) : List OsccCall := os.filterMap Output.osccCall

/-- The topics in the order of the subscriptions. -/
def topics : List Topic := [.brake, .steering, .throttle, .fault, .obd]

/-- The topics that come before this one. -/
def before (topic : Topic) : List Topic := topics.takeWhile (· ≠ topic)

/-- The way up: OSCC is opened and the callbacks are attached. -/
def wayUp (canChannel : Int) : List OsccCall := .osccOpen canChannel :: topics.map .osccSubscribe

/-- The calls of a process that runs to its end, with these commands while it spins. -/
def script (canChannel : Int) (commands : List OsccCall) : List OsccCall :=
  wayUp canChannel ++ commands ++
    .osccDisable :: (topics.map .osccUnsubscribe ++ [.osccClose canChannel])

/-- The calls made when `main` is in this phase. -/
inductive Made : Phase → List OsccCall → Prop
  | opening : Made .opening []
  | constructingPublisher (c) : Made (.constructingPublisher c) [.osccOpen c.1]
  | subscribing (c node topic) :
    Made (.subscribing c node topic) (.osccOpen c.1 :: (before topic).map .osccSubscribe)
  | constructingSubscriber (c node) : Made (.constructingSubscriber c node) (wayUp c.1)
  | spinning (c node limits commands) (hcommands : ∀ call ∈ commands, call.isCommand = true) :
    Made (.spinning c node limits) (wayUp c.1 ++ commands)
  | disabling (c commands) (hcommands : ∀ call ∈ commands, call.isCommand = true) :
    Made (.disabling c) (wayUp c.1 ++ commands)
  | unsubscribing (c topic commands) (hcommands : ∀ call ∈ commands, call.isCommand = true) :
    Made (.unsubscribing c topic)
      (wayUp c.1 ++ commands ++ .osccDisable :: (before topic).map .osccUnsubscribe)
  | closing (c commands) (hcommands : ∀ call ∈ commands, call.isCommand = true) :
    Made (.closing c) (wayUp c.1 ++ commands ++ .osccDisable :: topics.map .osccUnsubscribe)
  | failed (c : DeclaredInt 0 15) : Made (.returned 1) [.osccOpen c.1]
  | finished (c : DeclaredInt 0 15) (commands)
    (hcommands : ∀ call ∈ commands, call.isCommand = true) :
    Made (.returned 0) (script c.1 commands)
  | terminated (c : DeclaredInt 0 15) (calls) (h : calls <+: wayUp c.1) : Made .terminated calls

@[simp] theorem osccCalls_append (os ps : List Output) :
    osccCalls (os ++ ps) = osccCalls os ++ osccCalls ps := List.filterMap_append

@[simp] theorem osccCalls_nil : osccCalls [] = [] := rfl

@[simp] theorem osccCalls_call (call : OsccCall) (os : List Output) :
    osccCalls (.call call :: os) = call :: osccCalls os := rfl

@[simp] theorem osccCalls_log (line : Log) (os : List Output) :
    osccCalls (.log line :: os) = osccCalls os := rfl

@[simp] theorem osccCalls_map_publisher (os : List OsccToRos.Output) :
    osccCalls (os.map .publisher) = [] := by
  simp [osccCalls, Output.osccCall]

@[simp] theorem osccCalls_map_log {α : Type} (f : α → Log) (lines : List α) :
    osccCalls (lines.map (.log ∘ f)) = [] := by
  simp [osccCalls, Output.osccCall]

/-- The subscriber makes no other calls than commands. -/
theorem isCommand_of_subscriber {os : List RosToOscc.Output} {call : OsccCall}
    (h : call ∈ osccCalls (os.map .subscriber)) : call.isCommand = true := by
  obtain ⟨o, ho, hcall⟩ := List.mem_filterMap.mp h
  obtain ⟨o', -, rfl⟩ := List.mem_map.mp ho
  cases o' <;> simp [Output.osccCall] at hcall <;> subst hcall <;> rfl

@[simp] theorem before_brake : before .brake = [] := rfl

theorem before_isPrefix (topic : Topic) : before topic <+: topics := List.takeWhile_prefix _

theorem before_next {topic topic' : Topic} (h : topic.next = some topic') :
    before topic' = before topic ++ [topic] := by
  cases topic <;> simp [Topic.next] at h <;> subst h <;> decide

theorem topics_of_next {topic : Topic} (h : topic.next = none) :
    topics = before topic ++ [topic] := by
  cases topic <;> simp [Topic.next] at h
  decide

/-! ## One step -/

/-- The next step of `main` follows the script. -/
theorem made_mainStep {calls : List OsccCall} (h : Made s.phase calls)
    (result : RosToOscc.OsccResult) :
    Made (mainStep parameters s result).1.phase
      (calls ++ osccCalls (mainStep parameters s result).2) := by
  generalize hphase : s.phase = phase at h
  cases h with
  | opening =>
    simp only [mainStep, hphase]
    split
    · next canChannel _ _ _ =>
      split
      · exact .constructingPublisher canChannel
      · exact .failed canChannel
    · exact .terminated ⟨0, by decide⟩ [] List.nil_prefix
  | constructingPublisher c =>
    simp only [mainStep, hphase]
    split
    · simpa using Made.subscribing c _ .brake
    · exact .terminated c _ (by simp [wayUp])
  | subscribing c node topic =>
    simp only [mainStep, hphase]
    cases hnext : topic.next with
    | none =>
      have hmade := Made.constructingSubscriber c node
      rw [wayUp, topics_of_next hnext] at hmade
      simpa using hmade
    | some topic' =>
      have hmade := Made.subscribing c node topic'
      rw [before_next hnext] at hmade
      simpa using hmade
  | constructingSubscriber c node =>
    simp only [mainStep, hphase]
    split
    · simpa using Made.spinning c node _ [] (by simp)
    · exact .terminated c _ (by simp)
  | disabling c commands hcommands =>
    have hmade := Made.unsubscribing c .brake commands hcommands
    simp only [mainStep, hphase]
    split <;> simpa using hmade
  | unsubscribing c topic commands hcommands =>
    simp only [mainStep, hphase]
    cases hnext : topic.next with
    | none =>
      have hmade := Made.closing c commands hcommands
      rw [topics_of_next hnext] at hmade
      simpa using hmade
    | some topic' =>
      have hmade := Made.unsubscribing c topic' commands hcommands
      rw [before_next hnext] at hmade
      simpa using hmade
  | closing c commands hcommands =>
    have hmade := Made.finished c commands hcommands
    simp only [mainStep, hphase]
    split <;> simpa [script] using hmade
  | spinning c node limits commands hcommands =>
    simpa [mainStep, hphase] using Made.spinning c node limits commands hcommands
  | failed c => simpa [mainStep, hphase] using Made.failed c
  | finished c commands hcommands =>
    simpa [mainStep, hphase] using Made.finished c commands hcommands
  | terminated c calls hcalls =>
    simpa [mainStep, hphase] using Made.terminated c calls hcalls

/-- The executor only adds commands, and leaves them when it is done. -/
theorem made_spinStep {calls : List OsccCall} {c : DeclaredInt 0 15} {node : ObdFeedback.Node}
    {limits : RosToOscc.Config} (hphase : s.phase = .spinning c node limits)
    (h : Made s.phase calls) (e : Event) :
    Made (spinStep node limits c s e).1.phase
      (calls ++ osccCalls (spinStep node limits c s e).2) := by
  cases e with
  | drain now => simpa [spinStep] using h
  | message m =>
    simp only [spinStep]
    split
    · rw [hphase] at h ⊢
      cases h with
      | spinning _ _ _ commands hcommands =>
        rw [List.append_assoc]
        refine .spinning c node limits _ fun call hcall => ?_
        exact (List.mem_append.mp hcall).elim (hcommands call) isCommand_of_subscriber
    · simpa using h
  | interrupt =>
    simp only [spinStep]
    split
    · rw [hphase] at h
      cases h with
      | spinning _ _ _ commands hcommands =>
        simpa using Made.disabling c commands hcommands
    · simpa using h
  | main | report => simpa [spinStep] using h

/-- One event follows the script. -/
theorem made_step {calls : List OsccCall} (parameters : Overrides) (h : Made s.phase calls)
    (e : Event) :
    Made ((rosccoNode parameters).next s e).phase
      (calls ++ osccCalls ((rosccoNode parameters).emit s e)) := by
  simp only [rosccoNode, Machine.next, Machine.emit]
  cases e with
  | main result => exact made_mainStep h result
  | report topic report clock =>
    simp only [step]
    split <;> simpa using h
  | drain | message | interrupt =>
    simp only [step]
    split
    · exact made_spinStep ‹_› h _
    · simpa using h

/-! ## Runs -/

theorem made_run (parameters : Overrides) (es : List Event) :
    Made ((rosccoNode parameters).state es).phase
      (osccCalls ((rosccoNode parameters).trace es)) := by
  refine (rosccoNode parameters).invariant_run
    (I := fun es s => Made s.phase (osccCalls ((rosccoNode parameters).trace es))) .opening ?_ es
  intro es e h
  rw [Machine.trace_snoc, osccCalls_append]
  exact made_step parameters h e

/-- What has been called is a beginning of the script. -/
theorem Made.isPrefix {phase : Phase} {calls : List OsccCall} (h : Made phase calls) :
    ∃ (c : DeclaredInt 0 15) (commands : List OsccCall),
      (∀ call ∈ commands, call.isCommand = true) ∧ calls <+: script c.1 commands := by
  have hup (c : DeclaredInt 0 15) : wayUp c.1 <+: script c.1 [] :=
    ⟨_, by simp [script]; rfl⟩
  cases h with
  | opening => exact ⟨⟨0, by decide⟩, [], by simp, List.nil_prefix⟩
  | constructingPublisher c | failed c => exact ⟨c, [], by simp, ⟨_, rfl⟩⟩
  | subscribing c node topic =>
    refine ⟨c, [], by simp, List.IsPrefix.trans ?_ (hup c)⟩
    exact List.cons_prefix_cons.mpr ⟨rfl, (before_isPrefix topic).map _⟩
  | constructingSubscriber c node => exact ⟨c, [], by simp, hup c⟩
  | spinning c node limits commands hcommands | disabling c commands hcommands =>
    exact ⟨c, commands, hcommands, List.prefix_append _ _⟩
  | unsubscribing c topic commands hcommands =>
    refine ⟨c, commands, hcommands, List.prefix_append_right_inj _ |>.mpr ?_⟩
    exact List.cons_prefix_cons.mpr
      ⟨rfl, ((before_isPrefix topic).map _).trans (List.prefix_append _ _)⟩
  | closing c commands hcommands =>
    exact ⟨c, commands, hcommands, ⟨[.osccClose c.1], by simp [script]⟩⟩
  | finished c commands hcommands => exact ⟨c, commands, hcommands, List.prefix_rfl⟩
  | terminated c calls hcalls => exact ⟨c, [], by simp, hcalls.trans (hup c)⟩

/-- The OSCC calls of a run are a beginning of the script: OSCC is opened first, all callbacks
are attached before the first command, and after the last `oscc_disable` the callbacks are
detached and OSCC is closed without another command. A process that returns 0 has gone through
all of it; one that could not open OSCC or threw has commanded nothing. -/
theorem calls_scripted (parameters : Overrides) (es : List Event) :
    let phase := ((rosccoNode parameters).state es).phase
    let calls := osccCalls ((rosccoNode parameters).trace es)
    (∃ (c : DeclaredInt 0 15) (commands : List OsccCall),
      (∀ call ∈ commands, call.isCommand = true) ∧ calls <+: script c.1 commands ∧
        (phase = .returned 0 → calls = script c.1 commands)) ∧
    (phase = .returned 1 ∨ phase = .terminated → ∀ call ∈ calls, call.isCommand = false) := by
  intro phase calls
  have hmade : Made phase calls := made_run parameters es
  clear_value phase calls
  constructor
  · by_cases hphase : phase = .returned 0
    · rw [hphase] at hmade
      cases hmade with
      | finished c commands hcommands =>
        exact ⟨c, commands, hcommands, List.prefix_rfl, fun _ => rfl⟩
    · obtain ⟨c, commands, hcommands, hprefix⟩ := hmade.isPrefix
      exact ⟨c, commands, hcommands, hprefix, fun h => absurd h hphase⟩
  · have hup (c : DeclaredInt 0 15) : ∀ call ∈ wayUp c.1, call.isCommand = false := by
      simp [wayUp, topics, OsccCall.isCommand]
    rintro (hphase | hphase) <;> rw [hphase] at hmade
    · cases hmade with
      | failed c => simp [OsccCall.isCommand]
    · cases hmade with
      | terminated c _ hcalls => exact fun call hcall => hup c call (hcalls.subset hcall)

end Roscco.RosccoNode
