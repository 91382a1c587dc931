import Roscco.Library.Machine

/-!
# Components of a machine

A machine that passes some events on to a component and keeps its state makes runs of the
component: what holds of every run of the component holds inside the machine.

## Main results

* `Machine.component_from` — the component's part of a run is a run of the component.
-/

namespace Roscco.Library

namespace Machine

variable {S E O A F P : Type*}

/-- The events that a machine passes on along a run. -/
def passed (m : Machine S E O) (pass : S → E → List F) : S → List E → List F
  | _, [] => []
  | s, e :: es => pass s e ++ m.passed pass (m.next s e) es

variable {m : Machine S E O} {c : Machine A F P} {pass : S → E → List F}
  {visible : O → Option P} {s : S} {e : E} {es fs : List E}

@[simp] theorem passed_nil : m.passed pass s [] = [] := rfl

@[simp] theorem passed_cons :
    m.passed pass s (e :: es) = pass s e ++ m.passed pass (m.next s e) es := rfl

@[simp] theorem passed_append :
    m.passed pass s (es ++ fs) = m.passed pass s es ++ m.passed pass (m.stateFrom s es) fs := by
  induction es generalizing s with
  | nil => rfl
  | cons e es ih => simp [ih]

/-- Events that are passed on whatever the state. -/
theorem passed_of_events {f : E → Option F} (h : ∀ s e, pass s e = (f e).toList) (s : S)
    (es : List E) : m.passed pass s es = es.filterMap f := by
  induction es generalizing s with
  | nil => rfl
  | cons e es ih =>
    rw [passed_cons, h, ih]
    cases he : f e <;> simp [he]

/-- When every step does to a component what the events passed on do, so does every run. The
steps may rely on an invariant of the machine. -/
theorem component_from (part : S → A) {C : S → Prop} (keep : ∀ s e, C s → C (m.next s e))
    (step : ∀ s e, C s → part (m.next s e) = c.stateFrom (part s) (pass s e) ∧
      (m.emit s e).filterMap visible = c.traceFrom (part s) (pass s e))
    (hs : C s) (es : List E) :
    part (m.stateFrom s es) = c.stateFrom (part s) (m.passed pass s es) ∧
      (m.traceFrom s es).filterMap visible = c.traceFrom (part s) (m.passed pass s es) := by
  induction es generalizing s with
  | nil => exact ⟨rfl, rfl⟩
  | cons e es ih =>
    obtain ⟨hnext, hemit⟩ := step s e hs
    obtain ⟨hstate, htrace⟩ := ih (keep s e hs)
    rw [hnext] at hstate htrace
    constructor
    · rw [stateFrom_cons, passed_cons, stateFrom_append, hstate]
    · rw [traceFrom_cons, passed_cons, traceFrom_append, List.filterMap_append, hemit, htrace]

/-- A component that starts in its initial state. -/
theorem component_run (part : S → A) {C : S → Prop} (init : part m.init = c.init)
    (keep : ∀ s e, C s → C (m.next s e))
    (step : ∀ s e, C s → part (m.next s e) = c.stateFrom (part s) (pass s e) ∧
      (m.emit s e).filterMap visible = c.traceFrom (part s) (pass s e))
    (hinit : C m.init) (es : List E) :
    part (m.state es) = c.state (m.passed pass m.init es) ∧
      (m.trace es).filterMap visible = c.trace (m.passed pass m.init es) := by
  have hrun := component_from part keep step hinit es
  rwa [init] at hrun

end Machine

end Roscco.Library
