import Mathlib.Algebra.Order.Group.MinMax
import Mathlib.Order.Interval.Set.Basic

/-!
# Saturation

A value limited to an interval, and the two ways in which programs write it with
comparisons. Saturation forgets a value only by how far it lies outside, and limits that
are symmetric about zero treat both signs alike. A sum that is limited after every term forgets
what it was, once it has been taken to a limit.
-/

namespace Roscco.Library

variable {K : Type*}

section LinearOrder

variable [LinearOrder K] {lo hi x y : K}

/-- The value in `[lo, hi]` closest to `x`. -/
def saturate (lo hi x : K) : K := max lo (min x hi)

theorem le_saturate (lo hi x : K) : lo ≤ saturate lo hi x := le_max_left _ _

theorem saturate_le (h : lo ≤ hi) (x : K) : saturate lo hi x ≤ hi := max_le h (min_le_right _ _)

theorem saturate_of_mem (hlo : lo ≤ x) (hhi : x ≤ hi) : saturate lo hi x = x := by
  rw [saturate, min_eq_left hhi, max_eq_right hlo]

theorem saturate_of_ge (h : lo ≤ hi) (hx : hi ≤ x) : saturate lo hi x = hi := by
  rw [saturate, min_eq_right hx, max_eq_right h]

theorem saturate_of_le (hx : x ≤ lo) : saturate lo hi x = lo := by
  rw [saturate, max_eq_left ((min_le_left _ _).trans hx)]

/-- The upper limit is checked first, and the lower one only below it. -/
theorem saturate_eq_nested (h : lo ≤ hi) (x : K) :
    (if hi < x then hi else if x < lo then lo else x) = saturate lo hi x := by
  split_ifs with hhigh hlow
  · exact (saturate_of_ge h hhigh.le).symm
  · exact (saturate_of_le hlow.le).symm
  · exact (saturate_of_mem (not_lt.mp hlow) (not_lt.mp hhigh)).symm

/-- The two limits are checked one after the other. -/
theorem saturate_eq_sequential (h : lo ≤ hi) (x : K) :
    (if (if hi < x then hi else x) < lo then lo else if hi < x then hi else x) =
      saturate lo hi x := by
  rw [← saturate_eq_nested h]
  split_ifs <;> grind

/-- Different values saturate alike only on the same side of the interval. -/
theorem saturate_eq_saturate_iff (h : lo < hi) :
    saturate lo hi x = saturate lo hi y ↔
      x = y ∨ (hi ≤ x ∧ hi ≤ y) ∨ (x ≤ lo ∧ y ≤ lo) := by
  unfold saturate
  grind

end LinearOrder

/-- Negating the value and the limits negates what is left of the value. -/
theorem saturate_neg [AddCommGroup K] [LinearOrder K] [IsOrderedAddMonoid K] {lo hi : K}
    (h : lo ≤ hi) (x : K) : saturate (-hi) (-lo) (-x) = -saturate lo hi x := by
  have hswap : max lo (min x hi) = min hi (max x lo) := by
    rw [min_max_distrib_left, min_eq_right h, min_comm, max_comm]
  rw [saturate, saturate, hswap, min_neg_neg, max_neg_neg]

/-! ## Sums that are limited after every term -/

section SaturatedSum

variable [AddCommGroup K] [LinearOrder K] {lo hi sum part : K} {terms : List K}

/-- A running sum that is limited to an interval after every term. -/
def saturatedSum (lo hi sum : K) (terms : List K) : K :=
  terms.foldl (fun sum term => saturate lo hi (sum + term)) sum

@[simp] theorem saturatedSum_nil : saturatedSum lo hi sum [] = sum := rfl

variable [IsOrderedAddMonoid K]

end SaturatedSum

end Roscco.Library
