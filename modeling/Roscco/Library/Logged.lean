import Mathlib.Data.List.Basic

/-!
# Computations that log their operations

A computation with total operations that records each operation it executes. Whether an
operation is defined is said afterwards: `run?` is the partial computation that stops at the
first undefined one. `run?` commutes with sequencing, so a partial program and its logged
form are compared operation by operation.

## Main definitions

* `Logged` — a value and the operations executed for it, in order.
* `Logged.run?` — the partial computation, given which operations are defined.
* `Logged.All` — every executed operation satisfies a predicate.
-/

namespace Roscco.Library

universe u v

/-- A value and the operations executed for it, in order. -/
structure Logged (ω : Type u) (α : Type v) where
  value : α
  operations : List ω

namespace Logged

variable {ω : Type u} {α β : Type v} {γ : Type*}

instance : Monad (Logged ω) where
  pure a := ⟨a, []⟩
  bind x f := ⟨(f x.value).value, x.operations ++ (f x.value).operations⟩

/-- Execute one operation with the given result. -/
def exec (op : ω) (result : α) : Logged ω α := ⟨result, [op]⟩

@[simp] theorem operations_pure (a : α) : (pure a : Logged ω α).operations = [] := rfl

@[simp] theorem operations_bind (x : Logged ω α) (f : α → Logged ω β) :
    (x >>= f).operations = x.operations ++ (f x.value).operations := rfl

@[simp] theorem operations_map (f : α → β) (x : Logged ω α) :
    (f <$> x).operations = x.operations :=
  List.append_nil _

/-! ## Undefined operations -/

section Partial

variable (defined : ω → Prop) [DecidablePred defined]

/-- The partial computation that has no result once an operation is undefined. -/
def run? (x : Logged ω α) : Option α :=
  if ∀ op ∈ x.operations, defined op then some x.value else none

@[simp] theorem run?_pure (a : α) : (pure a : Logged ω α).run? defined = some a := by
  simp [run?, Pure.pure]

@[simp] theorem run?_exec (op : ω) (result : α) :
    (exec op result).run? defined = if defined op then some result else none := by
  simp [run?, exec]

@[simp] theorem run?_bind (x : Logged ω α) (f : α → Logged ω β) :
    (x >>= f).run? defined = (x.run? defined).bind fun a => (f a).run? defined := by
  have hsplit : (∀ op ∈ (x >>= f).operations, defined op) ↔
      (∀ op ∈ x.operations, defined op) ∧ ∀ op ∈ (f x.value).operations, defined op := by
    simp [or_imp, forall_and]
  by_cases hx : ∀ op ∈ x.operations, defined op
  · have hrun : x.run? defined = some x.value := if_pos hx
    rw [hrun, Option.bind_some, run?, run?]
    exact if_congr (hsplit.trans (and_iff_right hx)) rfl rfl
  · rw [run?, run?, if_neg fun h => hx (hsplit.mp h).1, if_neg hx, Option.bind_none]

@[simp] theorem run?_map (f : α → β) (x : Logged ω α) :
    (f <$> x).run? defined = (x.run? defined).map f := by
  rw [run?, run?, operations_map, apply_ite (Option.map f)]
  rfl

@[simp] theorem run?_ite (c : Prop) [Decidable c] (x y : Logged ω α) :
    (if c then x else y).run? defined = if c then x.run? defined else y.run? defined :=
  apply_ite _ _ _ _

theorem run?_foldlM (f : α → γ → Logged ω α) (xs : List γ) (a : α) :
    (xs.foldlM f a).run? defined = xs.foldlM (fun a x => (f a x).run? defined) a := by
  induction xs generalizing a with
  | nil => exact run?_pure defined a
  | cons x xs ih => simp [ih]

end Partial

/-! ## What every operation satisfies -/

variable {P : ω → Prop}

/-- Every executed operation satisfies `P`. -/
def All (P : ω → Prop) (x : Logged ω α) : Prop := ∀ op ∈ x.operations, P op

@[simp] theorem all_pure (a : α) : All P (pure a) := by
  simp [All]

@[simp] theorem all_exec {op : ω} {result : α} : All P (exec op result) ↔ P op := by
  simp [All, exec]

@[simp] theorem all_bind {x : Logged ω α} {f : α → Logged ω β} :
    All P (x >>= f) ↔ All P x ∧ All P (f x.value) := by
  simp [All, or_imp, forall_and]

@[simp] theorem all_map {f : α → β} {x : Logged ω α} : All P (f <$> x) ↔ All P x := by
  simp [All]

theorem all_foldlM {f : α → γ → Logged ω α} {xs : List γ} (h : ∀ a, ∀ x ∈ xs, All P (f a x))
    (a : α) : All P (xs.foldlM f a) := by
  induction xs generalizing a with
  | nil => exact all_pure a
  | cons x xs ih =>
    rw [List.foldlM_cons, all_bind]
    exact ⟨h a x List.mem_cons_self, ih (fun b y hy => h b y (List.mem_cons_of_mem x hy)) _⟩

/-- A computation whose operations are all defined has its value as its result. -/
theorem All.run?_eq {defined : ω → Prop} [DecidablePred defined] {x : Logged ω α}
    (h : All defined x) : x.run? defined = some x.value :=
  if_pos h

theorem All.imp {Q : ω → Prop} {x : Logged ω α} (h : All P x) (hPQ : ∀ op, P op → Q op) :
    All Q x :=
  fun op hop => hPQ op (h op hop)

end Logged

end Roscco.Library
