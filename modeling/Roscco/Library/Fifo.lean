import Roscco.Library.Machine

/-!
# The atomic bounded FIFO

The purpose of a queue with one producer and one consumer: each operation happens at
one instant, a push is refused exactly when `capacity` values are stored, and a pop
exactly when none is. Nothing here mentions indices, slots or a wrap-around.
-/

namespace Roscco.Library

variable {α : Type*} {capacity : Nat}

/-- At most `capacity` values, the oldest first. -/
structure Fifo (α : Type*) (capacity : Nat) where
  items : List α
  bounded : items.length ≤ capacity

namespace Fifo

inductive Op (α : Type*) where
  | push (value : α)
  | pop
  deriving DecidableEq, Repr

/-- How an operation returns. -/
inductive Result (α : Type*) where
  | pushed (value : α)
  | full (value : α)
  | popped (value : α)
  | empty
  deriving DecidableEq, Repr

def step (q : Fifo α capacity) : Op α → Fifo α capacity × List (Result α)
  | .push value =>
    if h : q.items.length < capacity then
      (⟨q.items ++ [value], by rwa [List.length_append, List.length_singleton]⟩, [.pushed value])
    else (q, [.full value])
  | .pop =>
    (⟨q.items.tail, List.length_tail ▸ (Nat.sub_le _ _).trans q.bounded⟩,
      [q.items.head?.elim .empty .popped])

def machine (α : Type*) (capacity : Nat) : Machine (Fifo α capacity) (Op α) (Result α) where
  init := ⟨[], Nat.zero_le _⟩
  step := step

/-- The values whose push succeeded. -/
def pushes (os : List (Result α)) : List α :=
  os.filterMap fun | .pushed value => some value | _ => none

/-- The values returned by successful pops. -/
def pops (os : List (Result α)) : List α :=
  os.filterMap fun | .popped value => some value | _ => none

@[simp] theorem pushes_nil : pushes ([] : List (Result α)) = [] := rfl
@[simp] theorem pops_nil : pops ([] : List (Result α)) = [] := rfl

@[simp] theorem pushes_append (os ps : List (Result α)) :
    pushes (os ++ ps) = pushes os ++ pushes ps := List.filterMap_append

@[simp] theorem pops_append (os ps : List (Result α)) :
    pops (os ++ ps) = pops os ++ pops ps := List.filterMap_append

@[simp] theorem pushes_pushed (value : α) : pushes [.pushed value] = [value] := rfl
@[simp] theorem pushes_full (value : α) : pushes [.full value] = [] := rfl
@[simp] theorem pushes_popped (value : α) : pushes [.popped value] = [] := rfl
@[simp] theorem pushes_empty : pushes [(.empty : Result α)] = [] := rfl
@[simp] theorem pops_pushed (value : α) : pops [.pushed value] = [] := rfl
@[simp] theorem pops_full (value : α) : pops [.full value] = [] := rfl
@[simp] theorem pops_popped (value : α) : pops [.popped value] = [value] := rfl
@[simp] theorem pops_empty : pops [(.empty : Result α)] = [] := rfl

theorem step_push_of_lt {q : Fifo α capacity} (value : α) (h : q.items.length < capacity) :
    (q.step (.push value)).1.items = q.items ++ [value] ∧
      (q.step (.push value)).2 = [.pushed value] := by
  simp [step, h]

theorem step_push_of_full {q : Fifo α capacity} (value : α) (h : q.items.length = capacity) :
    q.step (.push value) = (q, [.full value]) := by
  simp [step, h]

theorem step_pop_nil {q : Fifo α capacity} (h : q.items = []) :
    (q.step .pop).1.items = [] ∧ (q.step .pop).2 = [.empty] := by
  simp [step, h]

theorem step_pop_cons {q : Fifo α capacity} {value : α} {rest : List α}
    (h : q.items = value :: rest) :
    (q.step .pop).1.items = rest ∧ (q.step .pop).2 = [.popped value] := by
  simp [step, h]

/-- One operation neither loses, duplicates, reorders nor alters a value. -/
theorem step_conserves (q : Fifo α capacity) (op : Op α) :
    pops (q.step op).2 ++ (q.step op).1.items = q.items ++ pushes (q.step op).2 := by
  cases op with
  | push value =>
    rcases q.bounded.lt_or_eq with hlt | hfull
    · obtain ⟨hitems, hout⟩ := step_push_of_lt value hlt
      simp [hitems, hout]
    · simp [step_push_of_full value hfull]
  | pop =>
    cases hq : q.items with
    | nil =>
      obtain ⟨hitems, hout⟩ := step_pop_nil hq
      simp [hitems, hout]
    | cons value rest =>
      obtain ⟨hitems, hout⟩ := step_pop_cons hq
      simp [hitems, hout]

/-- Over any run, what was popped followed by what is stored is what was pushed. -/
theorem run_conserves (ops : List (Op α)) :
    pops ((machine α capacity).trace ops) ++ ((machine α capacity).state ops).items =
      pushes ((machine α capacity).trace ops) := by
  refine (machine α capacity).invariant_run
    (I := fun ops q => pops ((machine α capacity).trace ops) ++ q.items =
      pushes ((machine α capacity).trace ops)) rfl ?_ ops
  intro ops op ih
  have hstep := step_conserves ((machine α capacity).state ops) op
  simp only [Machine.trace_snoc, pops_append, pushes_append, List.append_assoc]
  rw [← ih, List.append_assoc]
  exact congrArg _ hstep

/-- At most one atomic operation: the items before, the visible result, the items after. -/
inductive Effect (capacity : Nat) : List α → List (Result α) → List α → Prop where
  | none (xs : List α) : Effect capacity xs [] xs
  | pushed (xs : List α) (value : α) :
      xs.length < capacity → Effect capacity xs [.pushed value] (xs ++ [value])
  | full (xs : List α) (value : α) :
      xs.length = capacity → Effect capacity xs [.full value] xs
  | popped (value : α) (xs : List α) : Effect capacity (value :: xs) [.popped value] xs
  | empty : Effect capacity [] [.empty] []

/-- An effect neither loses, duplicates, reorders nor alters a value. -/
theorem Effect.conserves {xs ys : List α} {os : List (Result α)} (h : Effect capacity xs os ys) :
    pops os ++ ys = xs ++ pushes os := by
  cases h <;> simp

/-- A pop is refused only when nothing is stored. -/
theorem Effect.eq_nil_of_empty {xs ys : List α} (h : Effect capacity xs [.empty] ys) :
    xs = [] := by
  cases h
  rfl

/-- Two pieces of a run with at most one operation between them. -/
theorem Effect.append {xs ys zs : List α} {os ps : List (Result α)} (h : Effect capacity xs os ys)
    (h' : Effect capacity ys ps zs) (hone : (os ++ ps).length ≤ 1) :
    Effect capacity xs (os ++ ps) zs := by
  cases os with
  | nil =>
    cases h
    exact h'
  | cons o os =>
    obtain rfl : ps = [] := by
      rw [List.length_append, List.length_cons] at hone
      exact List.length_eq_zero_iff.mp (by omega)
    cases h'
    rwa [List.append_nil]

/-- An effect is what the atomic queue does on no operation or on one. -/
theorem Effect.exists_ops {q : Fifo α capacity} {xs ys : List α} {os : List (Result α)}
    (h : Effect capacity xs os ys) (hq : q.items = xs) :
    ∃ ops, os = (machine α capacity).traceFrom q ops ∧
      ((machine α capacity).stateFrom q ops).items = ys := by
  cases h with
  | none => exact ⟨[], rfl, hq⟩
  | pushed _ value hlt =>
    subst hq
    obtain ⟨hitems, hout⟩ := step_push_of_lt value hlt
    exact ⟨[.push value], by simp [machine, Machine.emit, hout], hitems⟩
  | full _ value hfull =>
    subst hq
    have hstep := step_push_of_full value hfull
    exact ⟨[.push value], by simp [machine, Machine.emit, hstep],
      by simp [machine, Machine.next, hstep]⟩
  | popped value =>
    obtain ⟨hitems, hout⟩ := step_pop_cons hq
    exact ⟨[.pop], by simp [machine, Machine.emit, hout], hitems⟩
  | empty =>
    obtain ⟨hitems, hout⟩ := step_pop_nil hq
    exact ⟨[.pop], by simp [machine, Machine.emit, hout], hitems⟩

end Fifo

end Roscco.Library
