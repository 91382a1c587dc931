import Mathlib.Data.List.Basic
import Mathlib.Tactic.Linarith

/-!
# Timed logs

Three readings of a log whose entries carry the time they were made: what a rate limiter lets
through, the recent part that follows the last long silence, and how long a time a number of
entries takes when they keep their distance.
-/

namespace Roscco.Library

variable {α : Type*}

/-! ## Rate limiting -/

namespace RateLimit

/-- Whether an entry made at time `now` passes, given the entries emitted so far. -/
def opens (period : Int) (emitted : List (Int × α)) (now : Int) : Prop :=
  ∀ last ∈ emitted.getLast?, period ≤ now - last.1

instance (period : Int) (emitted : List (Int × α)) (now : Int) :
    Decidable (opens period emitted now) :=
  inferInstanceAs (Decidable (∀ last ∈ emitted.getLast?, period ≤ now - last.1))

/-- The entries emitted from a log: the first, and each that comes at least `period`
after the last one emitted. -/
def emitted (period : Int) (log : List (Int × α)) : List (Int × α) :=
  log.foldl (fun out entry => if opens period out entry.1 then out ++ [entry] else out) []

@[simp] theorem emitted_nil (period : Int) : emitted period ([] : List (Int × α)) = [] := rfl

theorem emitted_snoc (period : Int) (log : List (Int × α)) (entry : Int × α) :
    emitted period (log ++ [entry]) =
      if opens period (emitted period log) entry.1 then emitted period log ++ [entry]
      else emitted period log := by
  rw [emitted, List.foldl_append]
  rfl

theorem emitted_snoc_of_opens {period : Int} {log : List (Int × α)} {entry : Int × α}
    (h : opens period (emitted period log) entry.1) :
    emitted period (log ++ [entry]) = emitted period log ++ [entry] := by
  rw [emitted_snoc, if_pos h]

/-- What the last entry emitted says, and `default` before the first. -/
def latest (default : α) (emitted : List (Int × α)) : α :=
  (emitted.getLast?.map Prod.snd).getD default

@[simp] theorem latest_nil (default : α) : latest default [] = default := rfl

@[simp] theorem latest_snoc (default : α) (emitted : List (Int × α)) (entry : Int × α) :
    latest default (emitted ++ [entry]) = entry.2 := by
  simp [latest]

end RateLimit

/-! ## The part of a log after its last gap -/

/-- The newest entry and those before it, back to the first gap. The log has its newest
entry first. -/
def sinceGap (gap : α → α → Prop) [DecidableRel gap] : List α → List α
  | [] => []
  | [x] => [x]
  | x :: y :: older => if gap y x then [x] else x :: sinceGap gap (y :: older)

section SinceGap

variable {gap : α → α → Prop} [DecidableRel gap] {x : α} {older : List α}

theorem mem_sinceGap_self : x ∈ sinceGap gap (x :: older) := by
  cases older with
  | nil => simp [sinceGap]
  | cons y older =>
    simp only [sinceGap]
    split <;> simp

/-- Without a gap before it, a new entry leaves the older part in place. -/
theorem sinceGap_subset_cons (h : ∀ y ∈ older.head?, ¬ gap y x) :
    sinceGap gap older ⊆ sinceGap gap (x :: older) := by
  cases older with
  | nil => simp [sinceGap]
  | cons y older =>
    have hgap : ¬ gap y x := h y rfl
    simp [sinceGap, hgap]

end SinceGap

/-! ## Entries that keep their distance -/

/-- The entries of a log, oldest first, come at least a period apart. -/
def Paced (period : Int) (time : α → Int) (log : List α) : Prop :=
  log.IsChain fun earlier later => period ≤ time later - time earlier

instance (period : Int) (time : α → Int) (log : List α) : Decidable (Paced period time log) :=
  inferInstanceAs (Decidable (log.IsChain _))

section Paced

variable {period : Int} {time : α → Int} {log part : List α}

/-- Leaving entries out brings none closer together. -/
theorem Paced.sublist (h : Paced period time log) (hperiod : 0 ≤ period)
    (hpart : part.Sublist log) : Paced period time part := by
  have : Trans (fun x y => period ≤ time y - time x) (fun x y => period ≤ time y - time x)
      fun x y => period ≤ time y - time x := ⟨by intros; omega⟩
  exact (h.pairwise.sublist hpart).isChain

/-- The last entry is later than the first by a period for each that came in between, and one
more. -/
theorem Paced.spread {first last : α} {between : List α}
    (h : Paced period time (first :: between ++ [last])) :
    (between.length + 1) * period ≤ time last - time first := by
  induction between generalizing first with
  | nil => simpa [Paced] using h
  | cons next between ih =>
    obtain ⟨hfirst, hrest⟩ := List.isChain_cons_cons.mp h
    have hspread := ih hrest
    simp only [List.length_cons, Nat.cast_add, Nat.cast_one]
    linarith

end Paced

end Roscco.Library
