import Roscco.Library.Double

/-!
# What the nodes use of rclcpp

Time points, durations and declared parameters. A parameter declared with a range is a
value together with the proof that it lies in the range: rclcpp rejects any other value,
at declaration and on every later set.
-/

namespace Roscco

open Library

/-- A ROS time point, or a difference of two, in nanoseconds. -/
abbrev Time := Int

/-- `rclcpp::Duration::seconds`. -/
def seconds (duration : Int) : Double := .finite (duration / 1000000000)

/-- An integer parameter constrained to `[lo, hi]`. -/
abbrev DeclaredInt (lo hi : Int) := { v : Int // lo ≤ v ∧ v ≤ hi }

/-- A double parameter constrained to `[lo, hi]`; the bounds are finite, so the value is. -/
abbrev DeclaredDouble (lo hi : ℚ) := { v : ℚ // lo ≤ v ∧ v ≤ hi }

/-- Full scale is allowed where fractions are. -/
theorem one_mem_fraction : (0 : ℚ) ≤ 1 ∧ (1 : ℚ) ≤ 1 := by norm_num

/-- The value of a parameter. Numbers are finite. -/
inductive ParameterValue where
  | bool (value : Bool)
  | integer (value : Int)
  | double (value : ℚ)
  | string (value : String)
  /-- A value of one of the array types, which no parameter of these nodes has. -/
  | array
  deriving DecidableEq, Repr

namespace ParameterValue

def bool? : ParameterValue → Option Bool
  | .bool value => some value
  | .integer _ | .double _ | .string _ | .array => none

def integer? : ParameterValue → Option Int
  | .integer value => some value
  | .bool _ | .double _ | .string _ | .array => none

def double? : ParameterValue → Option ℚ
  | .double value => some value
  | .bool _ | .integer _ | .string _ | .array => none

end ParameterValue

/-- The values given to a node for its parameters, by name. -/
structure Overrides where
  value : String → Option ParameterValue := fun _ => none

/-- `declare_parameter`: the override or else the default. The type of a parameter is that of
its default, and an override of any other type is rejected, an integer for a double too. -/
def declareParameter {α : Type} (node : Overrides) (name : String) (default : α)
    (read : ParameterValue → Option α) : Option α :=
  (node.value name).elim (some default) read

/-- A value in `[lo, hi]`. -/
def checkRange {α : Type} [LE α] [DecidableLE α] (lo hi v : α) :
    Option { v : α // lo ≤ v ∧ v ≤ hi } :=
  if h : lo ≤ v ∧ v ≤ hi then some ⟨v, h⟩ else none

/-- `declareInt`: the override or else the default, rejected outside `[lo, hi]`. -/
def declareInt (node : Overrides) (name : String) (default lo hi : Int) :
    Option (DeclaredInt lo hi) := do
  let v ← declareParameter node name default ParameterValue.integer?
  checkRange lo hi v

/-- `declareDouble`: the override or else the default, rejected outside `[lo, hi]`. -/
def declareDouble (node : Overrides) (name : String) (default lo hi : ℚ) :
    Option (DeclaredDouble lo hi) := do
  let v ← declareParameter node name default ParameterValue.double?
  checkRange lo hi v

/-- `declareBool`: booleans take no range. -/
def declareBool (node : Overrides) (name : String) (default : Bool) : Option Bool :=
  declareParameter node name default ParameterValue.bool?

/-! ## A node without overrides -/

theorem checkRange_eq {α : Type} [LE α] [DecidableLE α] {lo hi v : α} (h : lo ≤ v ∧ v ≤ hi) :
    checkRange lo hi v = some ⟨v, h⟩ := dif_pos h

@[simp] theorem declareBool_default (name : String) (default : Bool) :
    declareBool {} name default = some default := rfl

/-- A default in its range is declared. -/
theorem declareInt_default {name : String} {default lo hi : Int}
    (h : lo ≤ default ∧ default ≤ hi) : declareInt {} name default lo hi = some ⟨default, h⟩ :=
  checkRange_eq h

theorem declareDouble_default {name : String} {default lo hi : ℚ}
    (h : lo ≤ default ∧ default ≤ hi) :
    declareDouble {} name default lo hi = some ⟨default, h⟩ :=
  checkRange_eq h

end Roscco
