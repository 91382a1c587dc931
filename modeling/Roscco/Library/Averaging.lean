import Mathlib.Algebra.BigOperators.Fin
import Mathlib.Analysis.Convex.Basic

/-!
# Exponential averages

One step of an exponential average goes a fixed part of the way from the average to the
set-point. It stays in every convex set that contains both, and the distance that is left
shrinks by the same factor in every step. Written out, an average is a sum of set-points whose
weights fade with their age.
-/

namespace Roscco.Library

variable {K : Type*} [Field K] [LinearOrder K] [IsStrictOrderedRing K]

/-- The average after one more set-point. -/
def smooth (factor average setpoint : K) : K := setpoint * factor + (1 - factor) * average

/-- One value follows another on the way to a target: the rest of the way is the given part
of what it was, and nothing overshoots. -/
structure Approaches (ratio target before after : K) : Prop where
  distance : |after - target| = ratio * |before - target|
  between : after ∈ Set.uIcc before target

variable {factor average setpoint : K}

/-- The average of what a convex set contains is in the set. -/
theorem smooth_mem (hpos : 0 ≤ factor) (hone : factor ≤ 1) {s : Set K} (hs : Convex K s)
    (haverage : average ∈ s) (hsetpoint : setpoint ∈ s) : smooth factor average setpoint ∈ s := by
  have hmem := hs haverage hsetpoint (sub_nonneg.mpr hone) hpos (by ring)
  have heq : smooth factor average setpoint = (1 - factor) • average + factor • setpoint := by
    simp only [smooth, smul_eq_mul]
    ring
  rwa [heq]

/-- The average approaches the set-point. -/
theorem approaches_smooth (hpos : 0 ≤ factor) (hone : factor ≤ 1) (average setpoint : K) :
    Approaches (1 - factor) setpoint average (smooth factor average setpoint) where
  distance := by
    have heq : smooth factor average setpoint - setpoint = (1 - factor) * (average - setpoint) := by
      rw [smooth]
      ring
    rw [heq, abs_mul, abs_of_nonneg (sub_nonneg.mpr hone)]
  between := smooth_mem hpos hone (convex_uIcc average setpoint) Set.left_mem_uIcc
    Set.right_mem_uIcc

/-! ## Weights -/

/-- The average of set-points, the newest first: each weighs less by the same factor for every
one that came after it. -/
def fading (factor : K) (setpoints : List K) : K :=
  ∑ age : Fin setpoints.length, factor * (1 - factor) ^ age.val * setpoints[age]

omit [LinearOrder K] [IsStrictOrderedRing K] in
@[simp] theorem fading_nil (factor : K) : fading factor [] = 0 := by simp [fading]

omit [LinearOrder K] [IsStrictOrderedRing K] in
/-- One more set-point is one more step of the average. -/
theorem fading_cons (factor setpoint : K) (setpoints : List K) :
    fading factor (setpoint :: setpoints) = smooth factor (fading factor setpoints) setpoint := by
  simp only [fading, smooth, List.length_cons, Fin.sum_univ_succ, Finset.mul_sum]
  congr 1
  · simp
    ring
  · refine Finset.sum_congr rfl fun age _ => ?_
    simp
    ring

/-- The same set-point brings two averages closer. -/
theorem abs_smooth_sub_smooth_le (hone : factor ≤ 1) {average average' distance : K}
    (h : |average - average'| ≤ distance) (setpoint : K) :
    |smooth factor average setpoint - smooth factor average' setpoint| ≤
      (1 - factor) * distance := by
  have heq : smooth factor average setpoint - smooth factor average' setpoint =
      (1 - factor) * (average - average') := by
    simp only [smooth]
    ring
  rw [heq, abs_mul, abs_of_nonneg (sub_nonneg.mpr hone)]
  exact mul_le_mul_of_nonneg_left h (sub_nonneg.mpr hone)

/-- Two sequences of equal length that come together: after a first distance every element is
closer by a factor. -/
structure Merging (ratio distance : K) (xs ys : List K) : Prop where
  length : xs.length = ys.length
  close : ∀ k x y, xs[k]? = some x → ys[k]? = some y → |x - y| ≤ ratio ^ (k + 1) * distance

omit [IsStrictOrderedRing K] in
theorem merging_nil (ratio distance : K) : Merging ratio distance [] [] where
  length := rfl
  close := by simp

omit [IsStrictOrderedRing K] in
theorem Merging.cons {ratio distance x y : K} {xs ys : List K} (hxy : |x - y| ≤ ratio * distance)
    (h : Merging ratio (ratio * distance) xs ys) : Merging ratio distance (x :: xs) (y :: ys) where
  length := congrArg (· + 1) h.length
  close k x' y' hx hy := by
    cases k with
    | zero =>
      obtain rfl : x = x' := by simpa using hx
      obtain rfl : y = y' := by simpa using hy
      simpa using hxy
    | succ k =>
      have hclose := h.close k x' y' (by simpa using hx) (by simpa using hy)
      rwa [← mul_assoc, ← pow_succ] at hclose

end Roscco.Library
