import Mathlib.Algebra.Order.Field.Rat
import Mathlib.Data.Rat.Defs
import Mathlib.Tactic.NormNum
import Mathlib.Tactic.Ring

/-!
# Doubles with exact arithmetic

A `double` is a rational, an infinity or a NaN. Arithmetic on finite values is exact (no
rounding and no overflow) and there is one zero. The special cases are those of the
IEEE standard: every comparison with a NaN is false, `∞ - ∞` and `0 * ∞` are NaN.
-/

namespace Roscco.Library

inductive Double where
  | finite (q : ℚ)
  | posInf
  | negInf
  | nan
  deriving DecidableEq, Repr, Inhabited

namespace Double

instance : Coe ℚ Double := ⟨finite⟩
instance : Zero Double := ⟨finite 0⟩
instance : One Double := ⟨finite 1⟩

def isFinite : Double → Bool
  | finite _ => true
  | _ => false

/-- The sign of a value that is not a NaN. -/
def sign : Double → Int
  | finite q => if q < 0 then -1 else if q = 0 then 0 else 1
  | posInf => 1
  | negInf => -1
  | nan => 0

/-- The infinity of a given sign; a product or quotient without a sign is a NaN. -/
def infinity (s : Int) : Double :=
  if 0 < s then posInf else if s < 0 then negInf else nan

def neg : Double → Double
  | finite q => finite (-q)
  | posInf => negInf
  | negInf => posInf
  | nan => nan

def add : Double → Double → Double
  | finite a, finite b => finite (a + b)
  | nan, _ | _, nan => nan
  | posInf, negInf | negInf, posInf => nan
  | posInf, _ | _, posInf => posInf
  | negInf, _ | _, negInf => negInf

def mul : Double → Double → Double
  | finite a, finite b => finite (a * b)
  | nan, _ | _, nan => nan
  | a, b => infinity (a.sign * b.sign)

/-- The one zero divides like a positive zero. -/
def div : Double → Double → Double
  | finite a, finite b => if b = 0 then infinity (finite a).sign else finite (a / b)
  | nan, _ | _, nan => nan
  | finite _, _ => finite 0
  | a, finite b => if b = 0 then a else infinity (a.sign * (finite b).sign)
  | _, _ => nan

def ltb : Double → Double → Bool
  | finite a, finite b => decide (a < b)
  | negInf, finite _ | negInf, posInf | finite _, posInf => true
  | _, _ => false

def leb : Double → Double → Bool
  | finite a, finite b => decide (a ≤ b)
  | nan, _ | _, nan => false
  | negInf, _ | _, posInf => true
  | _, _ => false

instance : Neg Double := ⟨neg⟩
instance : Add Double := ⟨add⟩
instance : Sub Double := ⟨fun a b => add a (neg b)⟩
instance : Mul Double := ⟨mul⟩
instance : Div Double := ⟨div⟩
instance : LT Double := ⟨fun a b => ltb a b = true⟩
instance : LE Double := ⟨fun a b => leb a b = true⟩

instance : DecidableRel ((· < ·) : Double → Double → Prop) :=
  fun a b => inferInstanceAs (Decidable (ltb a b = true))

instance : DecidableRel ((· ≤ ·) : Double → Double → Prop) :=
  fun a b => inferInstanceAs (Decidable (leb a b = true))

/-! ## Finite values -/

variable {a b : ℚ}

@[simp] theorem zero_eq : (0 : Double) = finite 0 := rfl
@[simp] theorem one_eq : (1 : Double) = finite 1 := rfl
@[simp] theorem isFinite_finite : isFinite (finite a) = true := rfl
@[simp] theorem finite_add : finite a + finite b = finite (a + b) := rfl
@[simp] theorem finite_mul : finite a * finite b = finite (a * b) := rfl

@[simp] theorem neg_finite : -finite a = finite (-a) := rfl

@[simp] theorem finite_sub : finite a - finite b = finite (a - b) := by
  change finite (a + -b) = finite (a - b)
  rw [sub_eq_add_neg]

theorem finite_div (h : b ≠ 0) : finite a / finite b = finite (a / b) := if_neg h

@[simp] theorem finite_lt : finite a < finite b ↔ a < b := decide_eq_true_iff

@[simp] theorem finite_le : finite a ≤ finite b ↔ a ≤ b := decide_eq_true_iff

/-! ## All values -/

protected theorem mul_comm (x y : Double) : x * y = y * x := by
  cases x <;> cases y <;> first | rfl | skip
  · simp [mul_comm]
  all_goals
    change infinity _ = infinity _
    rw [mul_comm]

@[simp] theorem add_zero (x : Double) : x + finite 0 = x := by
  cases x <;> first | rfl | simp

/-! ## Ranges -/

/-- A number from `lo` to `hi`. -/
def Within (lo hi : ℚ) (v : Double) : Prop := finite lo ≤ v ∧ v ≤ finite hi

instance (lo hi : ℚ) (v : Double) : Decidable (v.Within lo hi) :=
  inferInstanceAs (Decidable (_ ∧ _))

theorem within_iff {lo hi : ℚ} {v : Double} :
    v.Within lo hi ↔ ∃ q ∈ Set.Icc lo hi, v = finite q := by
  constructor
  · rintro ⟨hlo, hhi⟩
    cases v with
    | finite q => exact ⟨q, ⟨finite_le.mp hlo, finite_le.mp hhi⟩, rfl⟩
    | posInf => exact Bool.noConfusion hhi
    | negInf | nan => exact Bool.noConfusion hlo
  · rintro ⟨q, ⟨hlo, hhi⟩, rfl⟩
    exact ⟨finite_le.mpr hlo, finite_le.mpr hhi⟩

theorem Within.scale {lo hi c : ℚ} {v : Double} (hc : 0 ≤ c) (hv : v.Within lo hi) :
    (finite c * v).Within (c * lo) (c * hi) := by
  obtain ⟨q, ⟨hlo, hhi⟩, rfl⟩ := within_iff.mp hv
  exact within_iff.mpr ⟨c * q, ⟨mul_le_mul_of_nonneg_left hlo hc,
    mul_le_mul_of_nonneg_left hhi hc⟩, rfl⟩

/-! ## Clamping -/

/-- `std::clamp`; its precondition `lo ≤ hi` is the caller's. -/
def clamp (v lo hi : Double) : Double :=
  if v < lo then lo else if hi < v then hi else v

/-- Inside its precondition, `std::clamp` moves a finite value to the nearest point of
`[lo, hi]`. -/
theorem clamp_finite {v lo hi : ℚ} (h : lo ≤ hi) :
    clamp (finite v) (finite lo) (finite hi) = finite (max lo (min v hi)) := by
  simp only [clamp, finite_lt]
  split_ifs with hlo hhi
  · rw [max_eq_left ((min_le_left v hi).trans hlo.le)]
  · rw [min_eq_right hhi.le, max_eq_right h]
  · rw [min_eq_left (not_lt.mp hhi), max_eq_right (not_lt.mp hlo)]

end Double

end Roscco.Library
