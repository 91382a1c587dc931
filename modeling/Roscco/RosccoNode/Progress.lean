import Roscco.RosccoNode.Lifecycle

/-!
# The way up and the way down

Reports, drains and messages come between the steps of `main`, but they cannot hold it up or
lead it astray: where the process comes to rest is decided by the parameters and by whether OSCC
could be opened, and once `spin` has returned it goes all the way down, whatever OSCC answers.

## Main results

* `node_comes_up` — where the process comes to rest.
* `node_goes_down` — the calls of the way down, made and to go.
-/

namespace Roscco.RosccoNode

open Library
open OsccToRos (Topic)
open RosToOscc (OsccResult)

variable {parameters : Overrides} {s : State} {e : Event} {opened : OsccResult}

/-! ## What is ahead of `main` -/

/-- The topics from this one on. -/
def onwards (topic : Topic) : List Topic := topics.dropWhile (· ≠ topic)

/-- The steps of `main` to the next rest. -/
def Phase.stepsToGo : Phase → ℕ
  | .opening => 8
  | .constructingPublisher _ | .disabling _ => 7
  | .subscribing _ _ topic | .unsubscribing _ topic => (onwards topic).length + 1
  | .constructingSubscriber _ _ | .closing _ => 1
  | .spinning _ _ _ | .returned _ | .terminated => 0

/-- Where the process rests after the construction of the subscriber. -/
def subscribed (parameters : Overrides) (canChannel : DeclaredInt 0 15)
    (node : ObdFeedback.Node) : Phase :=
  (RosToOscc.Config.declare parameters).elim .terminated (.spinning canChannel node)

/-- Where it rests after the construction of both bridges. -/
def constructed (parameters : Overrides) (canChannel : DeclaredInt 0 15) : Phase :=
  (ObdFeedback.Config.declare parameters).elim .terminated fun cfg =>
    subscribed parameters canChannel (ObdFeedback.Node.construct cfg).1

/-- Where the process comes to rest, with this result of `oscc_open`. -/
def Phase.rest (parameters : Overrides) (opened : OsccResult) : Phase → Phase
  | .opening =>
    match declareInt parameters "can_channel" 0 0 15,
        declareInt parameters "drain_period_ms" 5 1 100 with
    | some canChannel, some _ =>
      if opened = .ok then constructed parameters canChannel else .returned 1
    | _, _ => .terminated
  | .constructingPublisher canChannel => constructed parameters canChannel
  | .subscribing canChannel node _ | .constructingSubscriber canChannel node =>
    subscribed parameters canChannel node
  | .disabling _ | .unsubscribing _ _ | .closing _ => .returned 0
  | phase@(.spinning _ _ _) | phase@(.returned _) | phase@.terminated => phase

/-- The calls of the way down that `main` has not made yet. -/
def Phase.callsToGo : Phase → List OsccCall
  | .disabling canChannel =>
    .osccDisable :: (topics.map .osccUnsubscribe ++ [.osccClose canChannel.1])
  | .unsubscribing canChannel topic =>
    (onwards topic).map .osccUnsubscribe ++ [.osccClose canChannel.1]
  | .closing canChannel => [.osccClose canChannel.1]
  | .opening | .constructingPublisher _ | .subscribing _ _ _ | .constructingSubscriber _ _
  | .spinning _ _ _ | .returned _ | .terminated => []

/-- `spin` has returned. -/
def Phase.GoesDown : Phase → Prop
  | .disabling _ | .unsubscribing _ _ | .closing _ => True
  | .returned code => code = 0
  | .opening | .constructingPublisher _ | .subscribing _ _ _ | .constructingSubscriber _ _
  | .spinning _ _ _ | .terminated => False

/-- What the OSCC calls of `main` have returned. -/
def mainResults (es : List Event) : List OsccResult :=
  es.filterMap fun | .main result => some result | _ => none

theorem onwards_next {topic topic' : Topic} (h : topic.next = some topic') :
    onwards topic = topic :: onwards topic' := by
  cases topic <;> simp [Topic.next] at h <;> subst h <;> decide

theorem onwards_last {topic : Topic} (h : topic.next = none) : onwards topic = [topic] := by
  cases topic <;> simp [Topic.next] at h
  decide

theorem onwards_brake : onwards .brake = topics := by decide

theorem rest_of_stepsToGo {phase : Phase} (h : phase.stepsToGo = 0) :
    phase.rest parameters opened = phase := by
  cases phase <;> simp [Phase.stepsToGo] at h <;> rfl

theorem returned_of_goesDown {phase : Phase} (hdown : phase.GoesDown)
    (hgo : phase.stepsToGo = 0) : phase = .returned 0 := by
  cases phase with
  | returned code => exact congrArg Phase.returned hdown
  | spinning | terminated => exact absurd hdown id
  | _ => simp [Phase.stepsToGo] at hgo

/-! ## One step -/

theorem next_main (parameters : Overrides) (s : State) (result : OsccResult) :
    (rosccoNode parameters).next s (.main result) = (mainStep parameters s result).1 := rfl

theorem emit_main (parameters : Overrides) (s : State) (result : OsccResult) :
    (rosccoNode parameters).emit s (.main result) = (mainStep parameters s result).2 := rfl

/-- A step of `main` is one step fewer to go. -/
theorem stepsToGo_mainStep (parameters : Overrides) (s : State) (result : OsccResult) :
    (mainStep parameters s result).1.phase.stepsToGo ≤ s.phase.stepsToGo - 1 := by
  cases hphase : s.phase with
  | opening =>
    simp only [mainStep, hphase]
    split
    · split <;> simp [Phase.stepsToGo]
    · simp [Phase.stepsToGo]
  | constructingPublisher =>
    simp only [mainStep, hphase]
    split <;> simp [Phase.stepsToGo, onwards_brake, topics]
  | subscribing c node topic =>
    simp only [mainStep, hphase]
    cases hnext : topic.next with
    | none => simp [Phase.stepsToGo, onwards_last hnext]
    | some topic' => simp [Phase.stepsToGo, onwards_next hnext]
  | unsubscribing c topic =>
    simp only [mainStep, hphase]
    cases hnext : topic.next with
    | none => simp [Phase.stepsToGo, onwards_last hnext]
    | some topic' => simp [Phase.stepsToGo, onwards_next hnext]
  | constructingSubscriber =>
    simp only [mainStep, hphase]
    split <;> simp [Phase.stepsToGo]
  | disabling => simp [mainStep, hphase, Phase.stepsToGo, onwards_brake, topics]
  | closing | spinning | returned | terminated => simp [mainStep, hphase, Phase.stepsToGo]

/-- It leads to the same rest, and leaves `oscc_open` behind. -/
theorem rest_mainStep {result : OsccResult} (h : s.phase = .opening → result = opened) :
    (mainStep parameters s result).1.phase.rest parameters opened =
        s.phase.rest parameters opened ∧
      (mainStep parameters s result).1.phase ≠ .opening := by
  cases hphase : s.phase with
  | opening =>
    obtain rfl := h hphase
    simp only [mainStep, hphase]
    cases hchannel : declareInt parameters "can_channel" 0 0 15 with
    | none => simp [Phase.rest, hchannel]
    | some canChannel =>
      cases hperiod : declareInt parameters "drain_period_ms" 5 1 100 with
      | none => simp [Phase.rest, hchannel, hperiod]
      | some _ => by_cases hok : result = .ok <;> simp [Phase.rest, hchannel, hperiod, hok]
  | constructingPublisher =>
    simp only [mainStep, hphase]
    split <;> simp [Phase.rest, constructed, *]
  | subscribing c node topic =>
    simp only [mainStep, hphase]
    cases topic.next <;> simp [Phase.rest]
  | constructingSubscriber =>
    simp only [mainStep, hphase]
    split <;> simp [Phase.rest, subscribed, *]
  | unsubscribing c topic =>
    simp only [mainStep, hphase]
    cases topic.next <;> simp [Phase.rest]
  | disabling | closing | spinning | returned | terminated =>
    simp [mainStep, hphase, Phase.rest]

/-- On the way down `main` makes the next call to go, whatever the ones before have returned. -/
theorem callsToGo_mainStep (h : s.phase.GoesDown) (result : OsccResult) :
    osccCalls (mainStep parameters s result).2 ++
        (mainStep parameters s result).1.phase.callsToGo = s.phase.callsToGo ∧
      (mainStep parameters s result).1.phase.GoesDown := by
  cases hphase : s.phase with
  | disabling c =>
    simp only [mainStep, hphase]
    split <;> simp [Phase.callsToGo, Phase.GoesDown, onwards_brake]
  | unsubscribing c topic =>
    simp only [mainStep, hphase]
    cases hnext : topic.next with
    | none => simp [Phase.callsToGo, Phase.GoesDown, onwards_last hnext]
    | some topic' => simp [Phase.callsToGo, Phase.GoesDown, onwards_next hnext]
  | closing c =>
    simp only [mainStep, hphase]
    split <;> simp [Phase.callsToGo, Phase.GoesDown]
  | returned =>
    rw [hphase] at h
    simpa [mainStep, hphase, Phase.callsToGo, Phase.GoesDown] using h
  | opening | constructingPublisher | subscribing | constructingSubscriber | spinning
  | terminated =>
    rw [hphase] at h
    exact absurd h id

/-- Other events leave `main` where it is, except the end of `spin`. -/
theorem phase_next (parameters : Overrides) (s : State) (hmain : ∀ result, e ≠ .main result)
    (hspin : e ≠ .interrupt) : ((rosccoNode parameters).next s e).phase = s.phase := by
  simp only [rosccoNode, Machine.next]
  cases e with
  | main result => exact absurd rfl (hmain result)
  | report topic r clock =>
    simp only [step]
    split <;> rfl
  | drain now =>
    simp only [step]
    split <;> rfl
  | message m =>
    simp only [step]
    split
    · simp only [spinStep]
      split <;> rfl
    · rfl
  | interrupt => exact absurd rfl hspin

/-- After `spin` only `main` calls OSCC, and it is not held up. -/
theorem quiet_of_goesDown (parameters : Overrides) (h : s.phase.GoesDown)
    (hmain : ∀ result, e ≠ .main result) :
    ((rosccoNode parameters).next s e).phase = s.phase ∧
      osccCalls ((rosccoNode parameters).emit s e) = [] := by
  simp only [rosccoNode, Machine.next, Machine.emit]
  cases e with
  | main result => exact absurd rfl (hmain result)
  | report topic r clock =>
    simp only [step]
    split <;> simp
  | drain | message | interrupt =>
    simp only [step]
    split
    · next hphase =>
      rw [hphase] at h
      exact absurd h id
    · exact ⟨rfl, rfl⟩

/-! ## Runs -/

theorem mainResults_main (result : OsccResult) (es : List Event) :
    mainResults (.main result :: es) = result :: mainResults es := rfl

theorem mainResults_cons (hmain : ∀ result, e ≠ .main result) (es : List Event) :
    mainResults (e :: es) = mainResults es := by
  cases e with
  | main result => exact absurd rfl (hmain result)
  | report | drain | message | interrupt => rfl

/-- Enough steps of `main` lead to the next rest, whatever else happens while `spin` goes on. -/
theorem rest_from (es : List Event) (hspin : .interrupt ∉ es)
    (hopened : s.phase = .opening → (mainResults es).head? = some opened)
    (hsteps : s.phase.stepsToGo ≤ (mainResults es).length) :
    ((rosccoNode parameters).stateFrom s es).phase = s.phase.rest parameters opened := by
  induction es generalizing s with
  | nil => exact (rest_of_stepsToGo (Nat.le_zero.mp hsteps)).symm
  | cons e es ih =>
    rw [List.mem_cons, not_or] at hspin
    rw [Machine.stateFrom_cons]
    by_cases hmain : ∃ result, e = .main result
    · obtain ⟨result, rfl⟩ := hmain
      rw [mainResults_main] at hopened hsteps
      have hfirst (h : s.phase = .opening) : result = opened := Option.some.inj (hopened h)
      obtain ⟨hrest, hopening⟩ := rest_mainStep hfirst
      have hgo := stepsToGo_mainStep parameters s result
      rw [List.length_cons] at hsteps
      rw [next_main, ← hrest]
      exact ih hspin.2 (fun h => absurd h hopening) (by omega)
    · rw [not_exists] at hmain
      have hphase := phase_next parameters s hmain (Ne.symm hspin.1)
      rw [mainResults_cons hmain] at hopened hsteps
      rw [← hphase] at hopened hsteps ⊢
      exact ih hspin.2 hopened hsteps

/-- The way down is one list of calls: those made and those to go. -/
theorem down_from (parameters : Overrides) (es : List Event) (h : s.phase.GoesDown) :
    osccCalls ((rosccoNode parameters).traceFrom s es) ++
        ((rosccoNode parameters).stateFrom s es).phase.callsToGo = s.phase.callsToGo ∧
      ((rosccoNode parameters).stateFrom s es).phase.GoesDown ∧
      ((rosccoNode parameters).stateFrom s es).phase.stepsToGo ≤
        s.phase.stepsToGo - (mainResults es).length := by
  induction es generalizing s with
  | nil => exact ⟨rfl, h, le_rfl⟩
  | cons e es ih =>
    rw [Machine.stateFrom_cons, Machine.traceFrom_cons, osccCalls_append, List.append_assoc]
    by_cases hmain : ∃ result, e = .main result
    · obtain ⟨result, rfl⟩ := hmain
      obtain ⟨hmade, hnext⟩ := callsToGo_mainStep h result
      have hgo := stepsToGo_mainStep parameters s result
      obtain ⟨hcalls, hdown, hlater⟩ := ih hnext
      rw [next_main, emit_main, hcalls, mainResults_main, List.length_cons]
      exact ⟨hmade, hdown, by omega⟩
    · rw [not_exists] at hmain
      obtain ⟨hphase, hquiet⟩ := quiet_of_goesDown parameters h hmain
      rw [← hphase] at h
      obtain ⟨hcalls, hdown, hgo⟩ := ih h
      rw [hphase] at hcalls hgo
      rw [hquiet, mainResults_cons hmain]
      exact ⟨hcalls, hdown, hgo⟩

/-- Until it is interrupted, the process comes to rest after at most eight steps of `main`,
however many signals come in between: it spins with what the parameters say, or OSCC could not
be opened, or a parameter was rejected. -/
theorem node_comes_up (parameters : Overrides) (es : List Event) (hspin : .interrupt ∉ es)
    (hopened : (mainResults es).head? = some opened) (hsteps : 8 ≤ (mainResults es).length) :
    ((rosccoNode parameters).state es).phase = Phase.opening.rest parameters opened :=
  rest_from (s := (rosccoNode parameters).init) es hspin (fun _ => hopened) hsteps

/-- Two reports come too early, and two more between the subscriptions. Without overrides the
node spins with its defaults; an integer for a limit ends the process. -/
theorem node_comes_up_early_reports :
    let early : List Event := List.replicate 2 (.report .brake none ⟨1700000000, 5⟩)
    let es := early ++ List.replicate 4 (.main .ok) ++ early ++ List.replicate 4 (.main .ok)
    let mistyped : Overrides :=
      ⟨fun name => if name = "limits.brake_max" then some (.integer 1) else none⟩
    ((rosccoNode {}).state es).phase =
        .spinning ⟨0, by decide⟩ (ObdFeedback.Node.construct .default).1 .default ∧
      ((rosccoNode mistyped).state es).phase = .terminated := by
  intro early es mistyped
  have hrest (parameters : Overrides) :
      ((rosccoNode parameters).state es).phase = Phase.opening.rest parameters .ok :=
    node_comes_up parameters es (by simp [es, early]) rfl (by decide +kernel)
  rw [hrest, hrest]
  constructor
  · simp (disch := decide) only [Phase.rest, declareInt_default, constructed, subscribed,
      ObdFeedback.Config.declare_default, RosToOscc.Config.declare_default, Option.elim, if_true]
  · have hlimits : RosToOscc.Config.declare mistyped = none := by
      rw [← Option.isNone_iff_eq_none]
      decide +kernel
    have hconstructed (canChannel : DeclaredInt 0 15) :
        constructed mistyped canChannel = .terminated := by
      cases hcfg : ObdFeedback.Config.declare mistyped <;>
        simp [constructed, subscribed, hcfg, hlimits]
    simp only [Phase.rest, hconstructed]
    split <;> rfl

/-- Once `spin` has returned, the calls made and those to go are the whole way down at every
moment, whatever OSCC answers and whatever else happens; after seven steps of `main` all of them
have been made and the process has returned 0. -/
theorem node_goes_down (parameters : Overrides) (past later : List Event)
    (canChannel : DeclaredInt 0 15)
    (hspun : ((rosccoNode parameters).state past).phase = .disabling canChannel) :
    let made := osccCalls
      ((rosccoNode parameters).traceFrom ((rosccoNode parameters).state past) later)
    let phase := ((rosccoNode parameters).state (past ++ later)).phase
    let wayDown := .osccDisable :: (topics.map .osccUnsubscribe ++ [.osccClose canChannel.1])
    made ++ phase.callsToGo = wayDown ∧
      (7 ≤ (mainResults later).length → made = wayDown ∧ phase = .returned 0) := by
  intro made phase wayDown
  obtain ⟨hcalls, hdown, hgo⟩ := down_from parameters later (by rw [hspun]; trivial)
  rw [← Machine.state_append] at hcalls hdown hgo
  rw [hspun] at hcalls hgo
  refine ⟨hcalls, fun hsteps => ?_⟩
  have hreturned : phase = .returned 0 :=
    returned_of_goesDown hdown (Nat.le_zero.mp (hgo.trans_eq (Nat.sub_eq_zero_of_le hsteps)))
  have hnone : phase.callsToGo = [] := congrArg Phase.callsToGo hreturned
  exact ⟨by rwa [hnone, List.append_nil] at hcalls, hreturned⟩

/-- OSCC refuses everything on the way down, and a brake report comes after the callback has been
detached. -/
theorem node_goes_down_refused :
    let past : List Event := List.replicate 8 (.main .ok) ++ [.interrupt]
    let later : List Event := List.replicate 3 (.main .error) ++
      .report .brake none ⟨1700000000, 5⟩ :: List.replicate 4 (.main .error)
    ∃ canChannel : DeclaredInt 0 15,
      osccCalls ((rosccoNode {}).traceFrom ((rosccoNode {}).state past) later) =
        .osccDisable :: (topics.map .osccUnsubscribe ++ [.osccClose canChannel.1]) ∧
      ((rosccoNode {}).state (past ++ later)).phase = .returned 0 := by
  intro past later
  have hspun : ∃ canChannel, ((rosccoNode {}).state past).phase = .disabling canChannel := by
    have hcalls : ((rosccoNode {}).state past).phase.callsToGo.head? = some .osccDisable := by
      decide +kernel
    generalize ((rosccoNode {}).state past).phase = phase at hcalls
    cases phase with
    | disabling canChannel => exact ⟨canChannel, rfl⟩
    | unsubscribing _ topic => cases topic <;> simp [Phase.callsToGo, onwards, topics] at hcalls
    | _ => simp [Phase.callsToGo] at hcalls
  obtain ⟨canChannel, hspun⟩ := hspun
  exact ⟨canChannel, (node_goes_down {} past later canChannel hspun).2 (by decide +kernel)⟩

end Roscco.RosccoNode
