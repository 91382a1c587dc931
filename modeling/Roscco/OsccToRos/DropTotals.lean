import Roscco.OsccToRos.Conservation
import Roscco.OsccToRos.DropWarnings

/-!
# The totals of the drop warnings

`drain` loads the counter in one step and compares it in a later one, and callbacks may drop
more reports in between. The totals that it warns about are still true ones, each of an earlier
moment, and every warning has a larger total than the one before.

## Main results

* `drop_totals_increase` — while fewer than `2^64` reports are dropped the totals increase.
-/

namespace Roscco.OsccToRos

open Library

variable {node : ObdFeedback.Node} {s : State} {e : Event} {es : List Event}

/-- The totals that `drain` has warned about. -/
def totals (os : List Output) : List ℕ := (dropWarnings os).map fun c => c.2.toNat

/-- A total is the number of reports dropped at an earlier moment of the run. -/
def WasTotal (node : ObdFeedback.Node) (es : List Event) (total : ℕ) : Prop :=
  ∃ past, past <+: es ∧ total = refused ((osccToRos node).trace past)

theorem WasTotal.snoc {total : ℕ} (h : WasTotal node es total) (e : Event) :
    WasTotal node (es ++ [e]) total := by
  obtain ⟨past, hpast, htotal⟩ := h
  exact ⟨past, hpast.trans (List.prefix_append es [e]), htotal⟩

/-- The counts never fall. -/
theorem refused_le_of_isPrefix {past : List Event} (h : past <+: es) :
    refused ((osccToRos node).trace past) ≤ refused ((osccToRos node).trace es) := by
  obtain ⟨later, rfl⟩ := h
  rw [Machine.trace_append, refused_append]
  exact Nat.le_add_right _ _

@[simp] theorem totals_append (os ps : List Output) :
    totals (os ++ ps) = totals os ++ totals ps := by
  simp [totals]

/-- The loaded total is the number of reports dropped so far. -/
theorem dropped_eq (node : ObdFeedback.Node) (es : List Event)
    (hfew : refused ((osccToRos node).trace es) < 2 ^ 64) :
    ((osccToRos node).state es).dropped.toNat = refused ((osccToRos node).trace es) := by
  rw [(reports_accounted node es).2, BitVec.toNat_ofNat, Nat.mod_eq_of_lt hfew]

/-- What the totals of a run and the totals that `drain` keeps have to do with each other. -/
structure Totals (node : ObdFeedback.Node) (es : List Event) (s : State) : Prop where
  increase : (totals ((osccToRos node).trace es)).Pairwise (· < ·)
  le_last : ∀ total ∈ totals ((osccToRos node).trace es), total ≤ s.lastReportedDrops.toNat
  wasTotal : ∀ total ∈ totals ((osccToRos node).trace es), WasTotal node es total
  last : s.lastReportedDrops.toNat ≤ refused ((osccToRos node).trace es)
  loaded : ∀ drops, s.drain = .comparingDrops drops →
    WasTotal node es drops.toNat ∧ s.lastReportedDrops.toNat ≤ drops.toNat

theorem popStep_not_comparing {topic : Topic} (popper : SignalQueue.Popper (Item topic))
    (drops : BitVec 64) : (popStep s topic popper).drain ≠ .comparingDrops drops := by
  cases popper with
  | idle | checked | copied => simp [popStep, SignalQueue.popStep]
  | loaded tail =>
    by_cases hempty : tail = (s.queues topic).head
    · cases topic <;> simp [popStep, SignalQueue.popStep, hempty, Drain.afterLoop, Topic.next]
    · simp [popStep, SignalQueue.popStep, hempty]

/-- The comparison waits for the drain, or the counter has just been loaded. -/
theorem comparing_next {drops : BitVec 64}
    (h : ((osccToRos node).next s e).drain = .comparingDrops drops) :
    e.compares s = none ∧
      (s.drain = .comparingDrops drops ∨ s.drain = .loadingDrops ∧ drops = s.dropped) := by
  cases e with
  | callback topic report clock =>
    exact ⟨rfl, .inl ((enqueue_drain s report clock).symm.trans h)⟩
  | drain now =>
    change (drainStep node s now).1.drain = .comparingDrops drops at h
    cases hdrain : s.drain with
    | loadingDrops =>
      refine ⟨by simp [Event.compares, hdrain], .inr ⟨rfl, ?_⟩⟩
      simpa [drainStep, hdrain, eq_comm] using h
    | popping topic popper =>
      simp only [drainStep, hdrain] at h
      exact absurd h (popStep_not_comparing popper drops)
    | publishing topic item =>
      cases topic <;> simp [drainStep, hdrain, Drain.afterPublish] at h
    | comparingDrops loaded =>
      simp only [drainStep, hdrain] at h
      split at h <;> simp at h
    | idle | loggingFault | processing | checkingStaleness => simp [drainStep, hdrain] at h

theorem drain_of_compares {c : Time × BitVec 64} (h : e.compares s = some c) :
    s.drain = .comparingDrops c.2 := by
  cases e with
  | callback => simp [Event.compares] at h
  | drain now =>
    cases hdrain : s.drain with
    | comparingDrops drops =>
      obtain rfl : (now, drops) = c := by simpa [Event.compares, hdrain] using h
      rfl
    | idle | popping | publishing | loggingFault | processing | checkingStaleness
    | loadingDrops => simp [Event.compares, hdrain] at h

/-- One event keeps the totals in order. -/
theorem totals_next (hfew : refused ((osccToRos node).trace (es ++ [e])) < 2 ^ 64)
    (h : Totals node es ((osccToRos node).state es)) :
    Totals node (es ++ [e]) ((osccToRos node).next ((osccToRos node).state es) e) := by
  have hgrow : refused ((osccToRos node).trace es) ≤ refused ((osccToRos node).trace (es ++ [e])) :=
    refused_le_of_isPrefix (List.prefix_append es [e])
  have hdropped := dropped_eq node es (hgrow.trans_lt hfew)
  have hnow : WasTotal node es (refused ((osccToRos node).trace es)) :=
    ⟨es, List.prefix_rfl, rfl⟩
  cases hc : e.compares ((osccToRos node).state es) with
  | none =>
    obtain ⟨hquiet, hlast⟩ := quiet_of_compares_eq_none node hc
    have htotals : totals ((osccToRos node).trace (es ++ [e])) =
        totals ((osccToRos node).trace es) := by
      rw [Machine.trace_snoc, totals_append, totals, totals, hquiet]
      simp
    constructor
    · rw [htotals]
      exact h.increase
    · rw [htotals, hlast]
      exact h.le_last
    · rw [htotals]
      exact fun total htotal => (h.wasTotal total htotal).snoc e
    · rw [hlast]
      exact h.last.trans hgrow
    · intro drops hdrops
      rw [hlast]
      obtain ⟨-, hdrain | ⟨-, rfl⟩⟩ := comparing_next hdrops
      · obtain ⟨hwas, hle⟩ := h.loaded drops hdrain
        exact ⟨hwas.snoc e, hle⟩
      · rw [hdropped]
        exact ⟨hnow.snoc e, h.last⟩
  | some c =>
    obtain ⟨hwarn, hlast⟩ := step_of_compares node hc
    obtain ⟨hwas, hle⟩ := h.loaded c.2 (drain_of_compares hc)
    have hloaded (drops : BitVec 64) :
        ((osccToRos node).next ((osccToRos node).state es) e).drain ≠ .comparingDrops drops :=
      fun hdrops => by simp [(comparing_next hdrops).1] at hc
    have hbound : c.2.toNat ≤ refused ((osccToRos node).trace (es ++ [e])) := by
      obtain ⟨past, hpast, heq⟩ := hwas.snoc e
      rw [heq]
      exact refused_le_of_isPrefix hpast
    have hold : ∀ total ∈ totals ((osccToRos node).trace es), total ≤ c.2.toNat :=
      fun total htotal => (h.le_last total htotal).trans hle
    by_cases hchange : c.2 = ((osccToRos node).state es).lastReportedDrops
    · have htotals : totals ((osccToRos node).trace (es ++ [e])) =
          totals ((osccToRos node).trace es) := by
        rw [Machine.trace_snoc, totals_append, totals, totals, hwarn]
        simp [hchange]
      refine ⟨htotals ▸ h.increase, ?_, ?_, hlast ▸ hbound, fun drops hdrops =>
        absurd hdrops (hloaded drops)⟩
      · rw [htotals, hlast]
        exact hold
      · rw [htotals]
        exact fun total htotal => (h.wasTotal total htotal).snoc e
    · have hlt : ((osccToRos node).state es).lastReportedDrops.toNat < c.2.toNat :=
        lt_of_le_of_ne hle fun heq => hchange (BitVec.eq_of_toNat_eq heq.symm)
      have htotals : totals ((osccToRos node).trace (es ++ [e])) =
          totals ((osccToRos node).trace es) ++ [c.2.toNat] := by
        rw [Machine.trace_snoc, totals_append, totals, totals, hwarn]
        simp [hchange]
      refine ⟨?_, ?_, ?_, hlast ▸ hbound, fun drops hdrops => absurd hdrops (hloaded drops)⟩
      · rw [htotals, List.pairwise_append]
        refine ⟨h.increase, List.pairwise_singleton _ _, fun total htotal last hmem => ?_⟩
        rw [List.mem_singleton.mp hmem]
        exact (h.le_last total htotal).trans_lt hlt
      · rw [htotals, hlast]
        exact List.forall_mem_append.mpr ⟨hold, by simp⟩
      · rw [htotals]
        exact List.forall_mem_append.mpr
          ⟨fun total htotal => (h.wasTotal total htotal).snoc e, by simpa using hwas.snoc e⟩

/-- While fewer than `2^64` reports are dropped, every warning has a larger total than the one
before, and each total was the number of reports dropped so far when it was loaded. -/
theorem drop_totals_increase (node : ObdFeedback.Node) (es : List Event)
    (hfew : refused ((osccToRos node).trace es) < 2 ^ 64) :
    (totals ((osccToRos node).trace es)).Pairwise (· < ·) ∧
      ∀ total ∈ totals ((osccToRos node).trace es), ∃ past, past <+: es ∧
        total = refused ((osccToRos node).trace past) := by
  have htotals : Totals node es ((osccToRos node).state es) := by
    induction es using List.reverseRecOn with
    | nil => exact ⟨by simp [totals, dropWarnings], by simp [totals, dropWarnings],
        by simp [totals, dropWarnings], by simp [osccToRos], by simp [osccToRos]⟩
    | append_singleton es e ih =>
      rw [Machine.state_snoc]
      exact totals_next hfew
        (ih ((refused_le_of_isPrefix (List.prefix_append es [e])).trans_lt hfew))
  exact ⟨htotals.increase, htotals.wasTotal⟩

/-- A drain behind whose brake loop 64 brake reports arrive: it warns that one was dropped. -/
theorem drop_totals_increase_first :
    let node := (ObdFeedback.Node.construct .default).1
    let es : List Event := List.replicate 4 (.drain 1000000000) ++
      List.replicate 64 (.callback .brake
        (some (⟨#v[5, 172], 1, 0, 0, #v[0, 0, 0]⟩ : OsccReport)) ⟨1700000000, 0⟩) ++
      List.replicate 10 (.drain 1000000000)
    totals ((osccToRos node).trace es) = [1] ∧
      ∃ past, past <+: es ∧ 1 = refused ((osccToRos node).trace past) := by
  intro node es
  have htotals : totals ((osccToRos node).trace es) = [1] := by decide +kernel
  have hwas := (drop_totals_increase node es (by decide +kernel)).2
  exact ⟨htotals, hwas 1 (by simp [htotals])⟩

end Roscco.OsccToRos
