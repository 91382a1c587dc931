import Mathlib.Data.List.Basic
import Mathlib.Data.List.Infix

/-!
# Reactive machines and their runs

A machine reads one event at a time, moves its state and emits a finite list of
observations. A run is a list of events, oldest first, so a property of all runs is
proved by adding one event at the end.

## Main definitions

* `Machine.state`, `Machine.trace` — the state reached and everything observed on a run.
* `Historically` — every element of a list satisfies a predicate of its own past.
* `Machine.found` — the states in which the events of a kind happen.
* `Machine.cost` — what the steps of a run cost, bounded by a potential in `cost_add_le`.
* `Machine.Refines` — every run of one machine is explained by a run of another.
-/

namespace Roscco.Library

variable {S E O A F : Type*}

/-! ## Properties of an element and its past -/

/-- Every element of `xs` is related to the elements before it. -/
def Historically (Q : List E → E → Prop) (xs : List E) : Prop :=
  ∀ past x, past ++ [x] <+: xs → Q past x

@[simp] theorem historically_nil (Q : List E → E → Prop) : Historically Q [] := by
  intro past x h
  simp at h

/-- A property of a run holds of its beginnings. -/
theorem Historically.of_prefix {Q : List E → E → Prop} {xs ys : List E}
    (h : Historically Q xs) (hys : ys <+: xs) : Historically Q ys :=
  fun past x hp => h past x (hp.trans hys)

theorem historically_snoc {Q : List E → E → Prop} {xs : List E} {x : E} :
    Historically Q (xs ++ [x]) ↔ Historically Q xs ∧ Q xs x := by
  constructor
  · intro h
    exact ⟨h.of_prefix (List.prefix_append xs [x]), h xs x List.prefix_rfl⟩
  · rintro ⟨hxs, hx⟩ past y hp
    rcases List.prefix_concat_iff.mp hp with heq | hp
    · obtain ⟨rfl, hxy⟩ := List.append_inj' heq rfl
      obtain rfl : y = x := by simpa using hxy
      exact hx
    · exact hxs past y hp

theorem historically_append {Q : List E → E → Prop} {xs ys : List E} :
    Historically Q (xs ++ ys) ↔
      Historically Q xs ∧ Historically (fun past y => Q (xs ++ past) y) ys := by
  induction ys using List.reverseRecOn with
  | nil => simp
  | append_singleton ys y ih =>
    rw [← List.append_assoc, historically_snoc, historically_snoc, ih, and_assoc]

theorem historically_cons {Q : List E → E → Prop} {x : E} {xs : List E} :
    Historically Q (x :: xs) ↔ Q [] x ∧ Historically (fun past y => Q (x :: past) y) xs := by
  have hone : Historically Q [x] ↔ Q [] x := by
    simpa using @historically_snoc E Q [] x
  rw [← List.singleton_append, historically_append, hone]
  rfl

/-- Executable on a given list, one element and its past at a time. -/
instance decidableHistorically {Q : List E → E → Prop} [∀ past x, Decidable (Q past x)] :
    ∀ xs, Decidable (Historically Q xs)
  | [] => isTrue (historically_nil Q)
  | x :: xs =>
    have : Decidable (Historically (fun past y => Q (x :: past) y) xs) :=
      decidableHistorically xs
    decidable_of_iff _ (@historically_cons E Q x xs).symm

/-- A property of the elements alone. -/
theorem historically_const {Q : E → Prop} {xs : List E} :
    Historically (fun _ x => Q x) xs ↔ ∀ x ∈ xs, Q x := by
  induction xs using List.reverseRecOn with
  | nil => simp
  | append_singleton xs x ih => simp [historically_snoc, ih, or_imp, forall_and]

/-- What comes before an element is a beginning of the run. -/
theorem Historically.before {Q : List E → E → Prop} {xs past : List E} {x : E}
    (h : Historically Q xs) (hp : past ++ [x] <+: xs) : Historically Q past :=
  h.of_prefix ((List.prefix_append past [x]).trans hp)

/-- The index-free reading: any split of the list at an element. -/
theorem Historically.of_split {Q : List E → E → Prop} {past post : List E} {x : E}
    (h : Historically Q (past ++ x :: post)) : Q past x :=
  h past x ⟨post, by simp⟩

/-! ## Machines -/

/-- A deterministic machine with visible observations. -/
structure Machine (S E O : Type*) where
  init : S
  step : S → E → S × List O

namespace Machine

/-- The state after one event. -/
def next (m : Machine S E O) (s : S) (e : E) : S := (m.step s e).1

/-- What one event makes visible. -/
def emit (m : Machine S E O) (s : S) (e : E) : List O := (m.step s e).2

def stateFrom (m : Machine S E O) (s : S) (es : List E) : S := es.foldl m.next s

def traceFrom (m : Machine S E O) : S → List E → List O
  | _, [] => []
  | s, e :: es => m.emit s e ++ traceFrom m (m.next s e) es

/-- The state a run reaches from the initial state. -/
def state (m : Machine S E O) (es : List E) : S := m.stateFrom m.init es

/-- All observations of a run from the initial state, oldest first. -/
def trace (m : Machine S E O) (es : List E) : List O := m.traceFrom m.init es

@[simp] theorem stateFrom_nil (m : Machine S E O) (s : S) : m.stateFrom s [] = s := rfl

@[simp] theorem stateFrom_cons (m : Machine S E O) (s : S) (e : E) (es : List E) :
    m.stateFrom s (e :: es) = m.stateFrom (m.next s e) es := rfl

@[simp] theorem traceFrom_nil (m : Machine S E O) (s : S) : m.traceFrom s [] = [] := rfl

@[simp] theorem traceFrom_cons (m : Machine S E O) (s : S) (e : E) (es : List E) :
    m.traceFrom s (e :: es) = m.emit s e ++ m.traceFrom (m.next s e) es := rfl

@[simp] theorem stateFrom_append (m : Machine S E O) (s : S) (es fs : List E) :
    m.stateFrom s (es ++ fs) = m.stateFrom (m.stateFrom s es) fs :=
  List.foldl_append

@[simp] theorem traceFrom_append (m : Machine S E O) (s : S) (es fs : List E) :
    m.traceFrom s (es ++ fs) = m.traceFrom s es ++ m.traceFrom (m.stateFrom s es) fs := by
  induction es generalizing s with
  | nil => simp
  | cons e es ih => simp [ih]

@[simp] theorem state_nil (m : Machine S E O) : m.state [] = m.init := rfl

@[simp] theorem trace_nil (m : Machine S E O) : m.trace [] = [] := rfl

@[simp] theorem state_snoc (m : Machine S E O) (es : List E) (e : E) :
    m.state (es ++ [e]) = m.next (m.state es) e := by
  simp [state]

@[simp] theorem trace_snoc (m : Machine S E O) (es : List E) (e : E) :
    m.trace (es ++ [e]) = m.trace es ++ m.emit (m.state es) e := by
  simp [trace, state]

theorem state_append (m : Machine S E O) (es fs : List E) :
    m.state (es ++ fs) = m.stateFrom (m.state es) fs := by
  simp [state]

theorem trace_append (m : Machine S E O) (es fs : List E) :
    m.trace (es ++ fs) = m.trace es ++ m.traceFrom (m.state es) fs := by
  simp [trace, state]

/-- A translation of states, events and observations that every step respects translates
whole runs. -/
theorem run_translate {S' E' O' : Type*} (m : Machine S E O) (m' : Machine S' E' O')
    {f : S → S'} {g : E → E'} {k : O → O'} (init : m'.init = f m.init)
    (step : ∀ s e, m'.step (f s) (g e) = (f (m.next s e), (m.emit s e).map k)) (es : List E) :
    m'.trace (es.map g) = (m.trace es).map k ∧ m'.state (es.map g) = f (m.state es) := by
  induction es using List.reverseRecOn with
  | nil => exact ⟨rfl, init⟩
  | append_singleton es e ih =>
    obtain ⟨htrace, hstate⟩ := ih
    have hstep := step (m.state es) e
    simp [htrace, hstate, emit, next, hstep]

/-- Replacing events by others with the same step changes nothing. -/
theorem run_map (m : Machine S E O) {f : E → E} (h : ∀ s e, m.step s (f e) = m.step s e)
    (es : List E) : m.trace (es.map f) = m.trace es ∧ m.state (es.map f) = m.state es := by
  have hrun := m.run_translate m (f := id) (g := f) (k := id) rfl
    (fun s e => (h s e).trans (by simp [next, emit])) es
  rwa [List.map_id, id_eq] at hrun

/-! ## Invariants -/

/-- What is kept by every step is kept by every run. -/
theorem invariant_from (m : Machine S E O) {I : S → Prop}
    (keep : ∀ s e, I s → I (m.next s e)) {s : S} (init : I s) (es : List E) :
    I (m.stateFrom s es) := by
  induction es generalizing s with
  | nil => exact init
  | cons e es ih => exact ih (keep s e init)

/-- What holds initially and is kept by every step holds in every reachable state. -/
theorem invariant (m : Machine S E O) {I : S → Prop} (init : I m.init)
    (keep : ∀ s e, I s → I (m.next s e)) (es : List E) : I (m.state es) :=
  m.invariant_from keep init es

/-- The same for an invariant that also speaks about the run that led to the state. -/
theorem invariant_run (m : Machine S E O) {I : List E → S → Prop} (init : I [] m.init)
    (keep : ∀ es e, I es (m.state es) → I (es ++ [e]) (m.next (m.state es) e))
    (es : List E) : I es (m.state es) := by
  induction es using List.reverseRecOn with
  | nil => exact init
  | append_singleton es e ih => simpa using keep es e ih

/-- The same on the runs whose every step meets a condition. -/
theorem invariant_along (m : Machine S E O) {C : List E → E → Prop} {I : List E → S → Prop}
    (init : I [] m.init)
    (keep : ∀ es e, C es e → I es (m.state es) → I (es ++ [e]) (m.next (m.state es) e))
    (es : List E) (along : Historically C es) : I es (m.state es) := by
  induction es using List.reverseRecOn with
  | nil => exact init
  | append_singleton es e ih =>
    obtain ⟨hes, he⟩ := historically_snoc.mp along
    simpa using keep es e he (ih hes)

/-- What every observation of a run satisfies, step by step. -/
theorem forall_mem_trace (m : Machine S E O) {P : O → Prop} {es : List E} :
    (∀ o ∈ m.trace es, P o) ↔
      Historically (fun past e => ∀ o ∈ m.emit (m.state past) e, P o) es := by
  induction es using List.reverseRecOn with
  | nil => simp
  | append_singleton es e ih => simp [historically_snoc, ← ih, or_imp, forall_and]

/-- A discipline of the trace: every observation respects what was observed before it. -/
theorem historically_trace (m : Machine S E O) {Q : List O → O → Prop}
    (keep : ∀ es e, Historically Q (m.trace es) →
      Historically (fun past o => Q (m.trace es ++ past) o) (m.emit (m.state es) e))
    (es : List E) : Historically Q (m.trace es) := by
  induction es using List.reverseRecOn with
  | nil => simp
  | append_singleton es e ih =>
    rw [trace_snoc, historically_append]
    exact ⟨ih, keep es e ih⟩

/-- A run that makes a property true makes it true in one of its steps. -/
theorem exists_crossing (m : Machine S E O) {P : S → Prop} {s : S} {es : List E} (hs : ¬ P s)
    (hes : P (m.stateFrom s es)) :
    ∃ before e after, es = before ++ e :: after ∧ ¬ P (m.stateFrom s before) ∧
      P (m.next (m.stateFrom s before) e) := by
  induction es generalizing s with
  | nil => exact absurd hes hs
  | cons e es ih =>
    by_cases hnext : P (m.next s e)
    · exact ⟨[], e, es, rfl, hs, hnext⟩
    · obtain ⟨before, x, after, rfl, hbefore, hx⟩ := ih hnext hes
      exact ⟨e :: before, x, after, rfl, hbefore, hx⟩

/-- A property fails all along a run or becomes true in it for the first time. -/
theorem exists_first (m : Machine S E O) (P : S → Prop) (s : S) (es : List E) :
    Historically (fun past _ => ¬ P (m.stateFrom s past)) es ∨ ∃ past, past <+: es ∧
      Historically (fun past _ => ¬ P (m.stateFrom s past)) past ∧ P (m.stateFrom s past) := by
  induction es using List.reverseRecOn with
  | nil => exact .inl (historically_nil _)
  | append_singleton es e ih =>
    rcases ih with hnever | ⟨past, hpast, hfirst⟩
    · by_cases hP : P (m.stateFrom s es)
      · exact .inr ⟨es, List.prefix_append es [e], hnever, hP⟩
      · exact .inl (historically_snoc.mpr ⟨hnever, hP⟩)
    · exact .inr ⟨past, hpast.trans (List.prefix_append es [e]), hfirst⟩

/-! ## What the events of a kind find and show -/

/-- The states that the events of a kind find in a run, oldest first. -/
def found (m : Machine S E O) (P : S → E → Prop) [∀ s e, Decidable (P s e)] :
    S → List E → List S
  | _, [] => []
  | s, e :: es => (if P s e then [s] else []) ++ m.found P (m.next s e) es

/-- Values shown by the events of one kind only, and computed from the state they find. -/
theorem filterMap_traceFrom (m : Machine S E O) {V : Type*} {P : S → E → Prop}
    [∀ s e, Decidable (P s e)] {f : O → Option V} {g : S → V} {es : List E}
    (shows : ∀ s, ∀ e ∈ es, (m.emit s e).filterMap f = if P s e then [g s] else []) (s : S) :
    (m.traceFrom s es).filterMap f = (m.found P s es).map g := by
  induction es generalizing s with
  | nil => rfl
  | cons e es ih =>
    rw [traceFrom_cons, List.filterMap_append, shows s e List.mem_cons_self,
      ih fun s x hx => shows s x (List.mem_cons_of_mem e hx), found, List.map_append]
    split <;> rfl

/-- A machine with one observation for each event computes a function of the events exactly
when each of its steps does. -/
theorem trace_eq_map_iff (m : Machine S E O) {f : E → O} (single : ∀ s e, ∃ o, m.emit s e = [o])
    (es : List E) :
    m.trace es = es.map f ↔
      Historically (fun past e => m.emit (m.state past) e = [f e]) es := by
  induction es using List.reverseRecOn with
  | nil => simp
  | append_singleton es e ih =>
    obtain ⟨o, ho⟩ := single (m.state es) e
    rw [trace_snoc, List.map_append, historically_snoc, ← ih, ho, List.map_singleton]
    constructor
    · intro h
      exact List.append_inj' h rfl
    · rintro ⟨htrace, hlast⟩
      rw [htrace, hlast]

/-! ## Costs -/

/-- What the steps of a run cost together. -/
def cost (m : Machine S E O) (c : S → E → ℕ) : S → List E → ℕ
  | _, [] => 0
  | s, e :: es => c s e + m.cost c (m.next s e) es

theorem cost_mul (m : Machine S E O) (n : ℕ) (c : S → E → ℕ) (s : S) (es : List E) :
    m.cost (fun s e => n * c s e) s es = n * m.cost c s es := by
  induction es generalizing s with
  | nil => rfl
  | cons e es ih => rw [cost, cost, ih, Nat.mul_add]

/-- When every step is paid by the potential and by what it earns, so is every run. -/
theorem cost_add_le (m : Machine S E O) (c earned : S → E → ℕ) (potential : S → ℕ)
    {C : S → Prop}
    (pay : ∀ s e, C s → c s e + potential (m.next s e) ≤ potential s + earned s e) {s : S}
    {es : List E} (along : Historically (fun past _ => C (m.stateFrom s past)) es) :
    m.cost c s es + potential (m.stateFrom s es) ≤ potential s + m.cost earned s es := by
  induction es generalizing s with
  | nil => simp [cost]
  | cons e es ih =>
    obtain ⟨hs, hes⟩ := historically_cons.mp along
    have hstep := pay s e hs
    have hrest := ih hes
    simp only [cost, stateFrom_cons]
    omega

/-! ## Refinement -/

/-- Every run of `c` has a run of `a` with the same observations, ending in related states. -/
def Refines (c : Machine S E O) (a : Machine A F O) (R : S → A → Prop) : Prop :=
  ∀ es, ∃ fs, c.trace es = a.trace fs ∧ R (c.state es) (a.state fs)

/-- Forward simulation: each concrete step is matched by some abstract steps, none included. -/
theorem Refines.of_simulation {c : Machine S E O} {a : Machine A F O} {R : S → A → Prop}
    (init : R c.init a.init)
    (simulate : ∀ s x e, R s x →
      ∃ fs, c.emit s e = a.traceFrom x fs ∧ R (c.next s e) (a.stateFrom x fs)) :
    c.Refines a R := by
  intro es
  induction es using List.reverseRecOn with
  | nil => exact ⟨[], rfl, init⟩
  | append_singleton es e ih =>
    obtain ⟨fs, htrace, hR⟩ := ih
    obtain ⟨gs, hemit, hnext⟩ := simulate _ _ e hR
    refine ⟨fs ++ gs, ?_, ?_⟩
    · rw [trace_snoc, trace_append, htrace, hemit]
    · rwa [state_snoc, state_append]

end Machine

end Roscco.Library
