import Mathlib.Data.List.Basic
import Mathlib.Data.List.Range

/-!
# Circular index arithmetic

Slots of a buffer of `n` cells, read from a `tail` index on, with the wrap-around taken
modulo `n`. One slot is sacrificed: equal indices mean an empty buffer, so at most
`n - 1` cells are occupied.
-/

namespace Roscco.Library.Ring

variable {α : Type*} {n head tail i j : Nat}

/-- The cell `i` places after `tail`. -/
def slot (n tail i : Nat) : Nat := (tail + i) % n

/-- The number of occupied cells from `tail` up to, and not including, `head`. -/
def distance (n head tail : Nat) : Nat := (head + n - tail) % n

/-- For in-range summands the modulus is one comparison and one subtraction. -/
theorem add_mod_eq (hi : i < n) (hj : j ≤ n) :
    (i + j) % n = if i + j < n then i + j else i + j - n := by
  split
  · next h => exact Nat.mod_eq_of_lt h
  · next h =>
    rw [Nat.mod_eq_sub_mod (by omega)]
    exact Nat.mod_eq_of_lt (by omega)

theorem slot_eq (ht : tail < n) (hi : i ≤ n) :
    slot n tail i = if tail + i < n then tail + i else tail + i - n :=
  add_mod_eq ht hi

theorem distance_eq (hh : head < n) (ht : tail < n) :
    distance n head tail = if tail ≤ head then head - tail else head + n - tail := by
  have hsum : head + n - tail = head + (n - tail) := by omega
  rw [distance, hsum, add_mod_eq hh (by omega)]
  split <;> split <;> omega

theorem distance_lt (hn : 0 < n) : distance n head tail < n := Nat.mod_lt _ hn

/-- The first free cell is the one `head` points to. -/
theorem slot_distance (hh : head < n) (ht : tail < n) :
    slot n tail (distance n head tail) = head := by
  rw [distance_eq hh ht]
  split
  · rw [slot_eq ht (by omega)]
    split <;> omega
  · rw [slot_eq ht (by omega)]
    split <;> omega

theorem slot_injective (ht : tail < n) (hi : i < n) (hj : j < n) :
    slot n tail i = slot n tail j ↔ i = j := by
  rw [slot_eq ht hi.le, slot_eq ht hj.le]
  split <;> split <;> omega

@[simp] theorem slot_zero (ht : tail < n) : slot n tail 0 = tail := by
  simp [slot, Nat.mod_eq_of_lt ht]

/-- Moving the tail on shifts every later place by one. -/
theorem slot_succ_tail (ht : tail < n) (hi : i < n) :
    slot n ((tail + 1) % n) i = slot n tail (i + 1) := by
  have hn : 0 < n := by omega
  rw [slot_eq (Nat.mod_lt _ hn) hi.le, slot_eq ht hi, add_mod_eq ht hn]
  split <;> split <;> split <;> omega

theorem distance_eq_zero_iff (hh : head < n) (ht : tail < n) :
    distance n head tail = 0 ↔ tail = head := by
  rw [distance_eq hh ht]
  split <;> omega

/-- The full check of a ring with one sacrificed slot. -/
theorem distance_eq_pred_iff (hh : head < n) (ht : tail < n) :
    distance n head tail = n - 1 ↔ (head + 1) % n = tail := by
  rw [distance_eq hh ht, add_mod_eq hh (by omega)]
  split <;> split <;> omega

theorem distance_succ_head (hh : head < n) (ht : tail < n)
    (hroom : distance n head tail < n - 1) :
    distance n ((head + 1) % n) tail = distance n head tail + 1 := by
  have hn : 0 < n := by omega
  rw [distance_eq hh ht] at hroom ⊢
  rw [distance_eq (Nat.mod_lt _ hn) ht, add_mod_eq hh (by omega)]
  split at hroom <;> split <;> split <;> omega

theorem distance_succ_tail (hh : head < n) (ht : tail < n)
    (hsome : 0 < distance n head tail) :
    distance n head ((tail + 1) % n) = distance n head tail - 1 := by
  have hn : 0 < n := by omega
  rw [distance_eq hh ht] at hsome ⊢
  rw [distance_eq hh (Nat.mod_lt _ hn), add_mod_eq ht (by omega)]
  split at hsome <;> split <;> split <;> omega

/-! ## Counts that go around the ring -/

/-- Counts less than a lap apart are at different cells. -/
theorem mod_eq_mod_iff {a b : Nat} (h : a ≤ b) (hlap : b < a + n) : b % n = a % n ↔ b = a := by
  constructor
  · intro heq
    have hmod := Nat.sub_mod_eq_zero_of_mod_eq heq
    rw [Nat.mod_eq_of_lt (by omega)] at hmod
    omega
  · rintro rfl
    rfl

/-- The next cell is the other count's exactly when it is a lap ahead. -/
theorem succ_mod_eq_mod_iff {a b : Nat} (h : a ≤ b) (hlap : b < a + n) :
    (b + 1) % n = a % n ↔ b + 1 = a + n := by
  constructor
  · intro heq
    by_contra hne
    have hsame := (mod_eq_mod_iff (show a ≤ b + 1 by omega) (by omega)).mp heq
    omega
  · intro heq
    rw [heq, Nat.add_mod_right]

/-! ## The values in a segment of the ring -/

/-- The values of `len` consecutive cells from `tail` on. -/
def segment (cell : Nat → α) (n tail len : Nat) : List α :=
  (List.range len).map fun i => cell (slot n tail i)

@[simp] theorem length_segment (cell : Nat → α) (n tail len : Nat) :
    (segment cell n tail len).length = len := by
  simp [segment]

theorem segment_snoc (cell : Nat → α) (n tail len : Nat) :
    segment cell n tail (len + 1) =
      segment cell n tail len ++ [cell (slot n tail len)] := by
  simp [segment, List.range_succ]

theorem segment_cons (cell : Nat → α) (len : Nat) (ht : tail < n) (hlen : len < n) :
    segment cell n tail (len + 1) =
      cell tail :: segment cell n ((tail + 1) % n) len := by
  rw [segment, List.range_succ_eq_map, List.map_cons, List.map_map, slot_zero ht]
  congr 1
  apply List.map_congr_left
  intro i hi
  have hi' : i < len := List.mem_range.mp hi
  simp [slot_succ_tail ht (hi'.trans hlen)]

/-- Writing a cell outside the segment leaves its values alone. -/
theorem segment_congr {cell cell' : Nat → α} {len : Nat}
    (h : ∀ i < len, cell (slot n tail i) = cell' (slot n tail i)) :
    segment cell n tail len = segment cell' n tail len := by
  apply List.map_congr_left
  intro i hi
  exact h i (List.mem_range.mp hi)

end Roscco.Library.Ring
