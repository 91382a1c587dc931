import Mathlib.Data.BitVec
import Mathlib.Data.List.Basic
import Mathlib.Tactic.Ring

/-!
# Bits in words and in byte sequences

Bit strings with the most significant bit first, the integers they represent, the word
operations that read and extend them, and the two ways of numbering the bits of a byte
sequence: from the least or from the most significant bit of every byte.

## Main results

* `Represents.unique` — a bit string represents one integer, signed or unsigned.
* `exists_represents` — every integer in range has a representation, and only one.
* `shiftLeft_one_or_ofNat` — shifting a bit in at the lower end of a word.
* `setWidth_or_not_mask` — filling the high bits of a word is sign extension.
* `mirror_mirror` — the two numberings of a byte sequence mirror each other.
-/

namespace Roscco.Library

variable {w v : ℕ}

/-! ## Bit strings -/

/-- The number that a bit string spells, most significant bit first. -/
def ofBits (bs : List Bool) : ℕ := bs.foldl (fun n b => 2 * n + b.toNat) 0

@[simp] theorem ofBits_nil : ofBits [] = 0 := rfl

@[simp] theorem ofBits_snoc (bs : List Bool) (b : Bool) :
    ofBits (bs ++ [b]) = 2 * ofBits bs + b.toNat := by
  simp [ofBits]

/-- The first bit weighs the most. -/
theorem ofBits_cons (b : Bool) (bs : List Bool) :
    ofBits (b :: bs) = b.toNat * 2 ^ bs.length + ofBits bs := by
  induction bs using List.reverseRecOn with
  | nil => simp [ofBits]
  | append_singleton bs c ih =>
    rw [← List.cons_append, ofBits_snoc, ih, ofBits_snoc, List.length_append,
      List.length_singleton, pow_succ]
    ring

theorem ofBits_lt (bs : List Bool) : ofBits bs < 2 ^ bs.length := by
  induction bs using List.reverseRecOn with
  | nil => simp
  | append_singleton bs b ih =>
    have hb : b.toNat < 2 := b.toNat_lt
    rw [ofBits_snoc, List.length_append, List.length_singleton, pow_succ]
    omega

/-- The bits of the number are those of the string, the last one lowest. -/
theorem testBit_ofBits {bs : List Bool} {i : ℕ} (h : i < bs.length) :
    (ofBits bs).testBit i = bs[bs.length - 1 - i] := by
  induction bs using List.reverseRecOn generalizing i with
  | nil => simp at h
  | append_singleton bs b ih =>
    rw [ofBits_snoc]
    cases i with
    | zero => cases b <;> simp [Nat.testBit_zero]
    | succ i =>
      have hi : i < bs.length := by simpa using h
      have hhalf : (2 * ofBits bs + b.toNat) / 2 = ofBits bs := by
        have hb : b.toNat < 2 := b.toNat_lt
        omega
      have hindex : (bs ++ [b]).length - 1 - (i + 1) = bs.length - 1 - i := by
        rw [List.length_append, List.length_singleton]
        omega
      rw [Nat.testBit_succ, hhalf, ih hi]
      simp only [hindex]
      rw [List.getElem_append_left]

/-! ## Numbers with a given representation -/

/-- The integer whose two's-complement representation, or else whose plain binary one, is
the bit string. -/
structure Represents (signed : Bool) (bs : List Bool) (v : ℤ) : Prop where
  lower : (if signed then -2 ^ (bs.length - 1) else 0) ≤ v
  upper : v < if signed then 2 ^ (bs.length - 1) else 2 ^ bs.length
  emod : v % 2 ^ bs.length = ofBits bs

theorem two_pow_eq {n : ℕ} (h : 0 < n) : (2 : ℤ) ^ n = 2 * 2 ^ (n - 1) := by
  rw [← pow_succ', Nat.sub_add_cancel h]

/-- The integer can be computed from the bits. -/
theorem Represents.eq {signed : Bool} {bs : List Bool} {v : ℤ} (h : Represents signed bs v)
    (hbs : 0 < bs.length) :
    v = if signed then (ofBits bs : ℤ).bmod (2 ^ bs.length) else ofBits bs := by
  have hpow := two_pow_eq hbs
  obtain ⟨hlower, hupper, hmod⟩ := h
  cases signed with
  | true =>
    simp only [if_true] at hlower hupper ⊢
    have hv : v.bmod (2 ^ bs.length) = v := by
      apply Int.bmod_eq_of_le <;> push_cast <;> omega
    have hcast : ((2 ^ bs.length : ℕ) : ℤ) = 2 ^ bs.length := by push_cast; rfl
    rw [← hmod, ← hcast, Int.emod_bmod, hv]
  | false =>
    simp only [Bool.false_eq_true, if_false] at hlower hupper ⊢
    rw [← hmod, Int.emod_eq_of_lt hlower hupper]

/-- A nonempty bit string represents at most one integer. -/
theorem Represents.unique {signed : Bool} {bs : List Bool} {v w : ℤ} (hbs : 0 < bs.length)
    (hv : Represents signed bs v) (hw : Represents signed bs w) : v = w :=
  (hv.eq hbs).trans (hw.eq hbs).symm

theorem represents_ofBits (bs : List Bool) : Represents false bs (ofBits bs) := by
  have hlt : (ofBits bs : ℤ) < 2 ^ bs.length := by exact_mod_cast ofBits_lt bs
  exact ⟨by simp, by simpa using hlt, Int.emod_eq_of_lt (by omega) hlt⟩

theorem represents_bmod {bs : List Bool} (hbs : 0 < bs.length) :
    Represents true bs ((ofBits bs : ℤ).bmod (2 ^ bs.length)) := by
  have hpow := two_pow_eq hbs
  have hpos : 0 < 2 ^ bs.length := Nat.two_pow_pos _
  have hlower := Int.le_bmod (x := ofBits bs) hpos
  have hupper := Int.bmod_lt (x := ofBits bs) hpos
  have hlt : (ofBits bs : ℤ) < 2 ^ bs.length := by exact_mod_cast ofBits_lt bs
  push_cast at hlower hupper
  refine ⟨?_, ?_, ?_⟩
  · rw [if_pos rfl]
    omega
  · rw [if_pos rfl]
    omega
  · have hmod := @Int.bmod_emod (ofBits bs) (2 ^ bs.length)
    push_cast at hmod
    rw [hmod, Int.emod_eq_of_lt (by omega) hlt]

/-! ## Every number in range has a representation -/

/-- Strings of one length spell different numbers. -/
theorem ofBits_injective {bs cs : List Bool} (hlength : bs.length = cs.length)
    (h : ofBits bs = ofBits cs) : bs = cs := by
  apply List.ext_getElem hlength
  intro i hi hi'
  have hbit := congrArg (Nat.testBit · (bs.length - 1 - i)) h
  simp only [testBit_ofBits (show bs.length - 1 - i < bs.length by omega),
    testBit_ofBits (show bs.length - 1 - i < cs.length by omega), ← hlength] at hbit
  have hindex : bs.length - 1 - (bs.length - 1 - i) = i := by omega
  simpa only [hindex] using hbit

/-- The lowest bits of a number, the most significant one first. -/
def bitsOf (length n : ℕ) : List Bool :=
  List.ofFn fun i : Fin length => n.testBit (length - 1 - i)

@[simp] theorem length_bitsOf (length n : ℕ) : (bitsOf length n).length = length := by
  simp [bitsOf]

theorem ofBits_bitsOf {length n : ℕ} (h : n < 2 ^ length) : ofBits (bitsOf length n) = n := by
  apply Nat.eq_of_testBit_eq
  intro i
  rcases Nat.lt_or_ge i length with hi | hi
  · have hindex : length - 1 - (length - 1 - i) = i := by omega
    rw [testBit_ofBits (by rwa [length_bitsOf])]
    simp [bitsOf, hindex]
  · have hpow : 2 ^ length ≤ 2 ^ i := Nat.pow_le_pow_right (by omega) hi
    have hspelled : ofBits (bitsOf length n) < 2 ^ length := by
      simpa using ofBits_lt (bitsOf length n)
    rw [Nat.testBit_lt_two_pow (by omega), Nat.testBit_lt_two_pow (by omega)]

/-- One bit string of a length represents one integer. -/
theorem Represents.bits_unique {signed : Bool} {bs cs : List Bool} {v : ℤ}
    (hbs : Represents signed bs v) (hcs : Represents signed cs v)
    (hlength : bs.length = cs.length) : bs = cs := by
  apply ofBits_injective hlength
  have heq : (ofBits bs : ℤ) = ofBits cs := by
    rw [← hbs.emod, ← hcs.emod, hlength]
  exact_mod_cast heq

theorem exists_represents {signed : Bool} {length : ℕ} {v : ℤ}
    (hlower : (if signed then -2 ^ (length - 1) else 0) ≤ v)
    (hupper : v < if signed then 2 ^ (length - 1) else 2 ^ length) :
    ∃ bs, bs.length = length ∧ Represents signed bs v := by
  have hpos : (0 : ℤ) < 2 ^ length := Int.pow_pos (by omega)
  have hmod : ((v % 2 ^ length).toNat : ℤ) = v % 2 ^ length :=
    Int.toNat_of_nonneg (Int.emod_nonneg v hpos.ne')
  have hlt : (v % 2 ^ length).toNat < 2 ^ length := by
    have hcast : ((v % 2 ^ length).toNat : ℤ) < ((2 ^ length : ℕ) : ℤ) := by
      rw [hmod]
      exact_mod_cast Int.emod_lt_of_pos v hpos
    exact_mod_cast hcast
  refine ⟨bitsOf length (v % 2 ^ length).toNat, length_bitsOf _ _, ?_⟩
  constructor
  · rwa [length_bitsOf]
  · rwa [length_bitsOf]
  · rw [length_bitsOf, ofBits_bitsOf hlt, hmod]

/-! ## Words -/

/-- Shifting a bit in at the lower end doubles the word and adds the bit. -/
theorem shiftLeft_one_or_ofNat (n : ℕ) (b : Bool) :
    (BitVec.ofNat w n <<< 1) ||| BitVec.ofNat w b.toNat = BitVec.ofNat w (2 * n + b.toNat) := by
  have hdisjoint : (BitVec.ofNat w n <<< 1) &&& BitVec.ofNat w b.toNat = 0#w := by
    ext i hi
    cases b <;> cases i <;> simp
  rw [← BitVec.add_eq_or_of_and_eq_zero _ _ hdisjoint]
  apply BitVec.eq_of_toNat_eq
  simp [Nat.shiftLeft_eq, Nat.mul_comm]

/-- The bits of the mask of the `w` lowest bits. -/
theorem getLsbD_mask {i : ℕ} (h : w < v) :
    ((1#v <<< w) - 1#v).getLsbD i = decide (i < w) := by
  have hlt : 2 ^ w < 2 ^ v := Nat.pow_lt_pow_right (by omega) h
  have hpos : 0 < 2 ^ w := Nat.two_pow_pos w
  have hmask : (1#v <<< w) - 1#v = BitVec.ofNat v (2 ^ w - 1) := by
    apply BitVec.eq_of_toNat_eq
    rw [BitVec.toNat_sub_of_le]
    · simp [Nat.shiftLeft_eq, Nat.mod_eq_of_lt hlt, Nat.mod_eq_of_lt (show 1 < 2 ^ v by omega),
        Nat.mod_eq_of_lt (show 2 ^ w - 1 < 2 ^ v by omega)]
    · simp [BitVec.le_def, Nat.shiftLeft_eq, Nat.mod_eq_of_lt hlt,
        Nat.mod_eq_of_lt (show 1 < 2 ^ v by omega)]
      omega
  rw [hmask, BitVec.getLsbD_ofNat, Nat.testBit_two_pow_sub_one]
  by_cases hi : i < w <;> simp [hi]
  omega

/-- Testing the sign bit of a number held in a wider word. -/
theorem setWidth_and_signBit (x : BitVec w) (hpos : 0 < w) (h : w ≤ v) :
    x.setWidth v &&& (1#v <<< (w - 1)) ≠ 0#v ↔ x.msb = true := by
  have hbit : (1#v <<< (w - 1)) = BitVec.twoPow v (w - 1) := by
    ext i hi
    simp only [BitVec.getElem_shiftLeft, BitVec.getElem_one, BitVec.getElem_twoPow]
    grind
  have hlast : w - 1 < v := by omega
  have hne : BitVec.twoPow v (w - 1) ≠ 0#v := by
    intro h0
    have hget := congrArg (fun y => y.getLsbD (w - 1)) h0
    simp [hlast] at hget
  rw [hbit, BitVec.and_twoPow, BitVec.msb_eq_getLsbD_last, BitVec.getLsbD_setWidth]
  cases hx : x.getLsbD (w - 1) <;> simp [hlast, hne]

/-- Filling the bits above a negative number is sign extension. -/
theorem setWidth_or_not_mask (x : BitVec w) (h : w < v) (hmsb : x.msb = true) :
    x.setWidth v ||| ~~~((1#v <<< w) - 1#v) = x.signExtend v := by
  ext i hi
  have hmask := getLsbD_mask (i := i) h
  rw [BitVec.getLsbD_eq_getElem hi] at hmask
  simp only [BitVec.getElem_or, BitVec.getElem_not, hmask, BitVec.getElem_setWidth,
    BitVec.getElem_signExtend, hmsb]
  by_cases hlow : i < w <;> simp [hlow]

/-! ## Positions -/

/-- The position counted from the other end of its byte. -/
def mirror (p : ℕ) : ℕ := 8 * (p / 8) + (7 - p % 8)

@[simp] theorem mirror_mirror (p : ℕ) : mirror (mirror p) = p := by
  unfold mirror
  omega

@[simp] theorem mirror_div (p : ℕ) : mirror p / 8 = p / 8 := by
  unfold mirror
  omega

/-- The next position down the sawtooth: the next lower bit of the byte, and from bit 0 on
to bit 7 of the next byte. -/
theorem mirror_succ (p : ℕ) :
    mirror (p + 1) = if mirror p % 8 = 0 then mirror p + 15 else mirror p - 1 := by
  unfold mirror
  split_ifs <;> omega

end Roscco.Library
