import Roscco.Library.BitLayout
import Roscco.ObdFeedback.Basic

/-!
# The Motorola decoder

In mirrored positions the sawtooth walk counts up by one, so the walk over a signal ends
in a byte that is easy to name. `fitsIn` counts bytes as if the walk started at the top
of its first byte: it accepts a signal that needs one more byte when that byte is exactly
the first one missing. In every other case what it accepts is read completely.
-/

namespace Roscco.ObdFeedback

open Library

variable {data : List (BitVec 8)} {spec : SignalSpec} {dlc : BitVec 8}

/-! ## One bit -/

/-- The payload bit at a position, counted from bit 0 of byte 0. -/
def bitAt (data : List (BitVec 8)) (p : ℕ) : Bool := (data.getD (p / 8) 0).getLsbD (p % 8)

theorem nextBit_mirror (m : ℕ) : nextBit (mirror m) = (mirror (m + 1) : ℕ) := by
  have hmod : ((mirror m : ℕ) : Int).tmod 8 = (mirror m % 8 : ℕ) := by
    rw [Int.tmod_eq_emod_of_nonneg (by omega)]
    omega
  rw [nextBit, hmod, mirror_succ]
  split_ifs <;> omega

/-- In mirrored positions the walk counts up. -/
theorem nextBit_iterate (i p : ℕ) : nextBit^[i] (p : Int) = (mirror (mirror p + i) : ℕ) := by
  induction i with
  | zero => rw [Nat.add_zero, mirror_mirror, Function.iterate_zero, id_eq]
  | succ i ih => rw [Function.iterate_succ_apply', ih, nextBit_mirror, Nat.add_assoc]

/-- The lowest bit of a shifted byte. -/
theorem setWidth_and_one (byte : BitVec 8) {k : ℕ} (h : k < 8) :
    ((byte.setWidth 32 >>> k) &&& 1).setWidth 64 = BitVec.ofNat 64 (byte.getLsbD k).toNat := by
  have hbit : (byte.setWidth 32 >>> k).getLsbD 0 = byte.getLsbD k := by
    have hlt : k < 32 := by omega
    simp [hlt]
  have hone : (byte.setWidth 32 >>> k) &&& 1 = (BitVec.ofBool (byte.getLsbD k)).setWidth 32 := by
    rw [← hbit]
    exact BitVec.and_one_eq_setWidth_ofBool_getLsbD
  rw [hone]
  cases byte.getLsbD k <;> rfl

/-- The read of one bit inside the payload. -/
theorem read_bit (data : List (BitVec 8)) {p : ℕ} (h : p / 8 < data.length) :
    ∃ byte shifted, readByte data (p / 8 : ℕ) = some byte ∧
      shiftRight (byte.setWidth 32) (p % 8 : ℕ) = some shifted ∧
      (shifted &&& 1).setWidth 64 = BitVec.ofNat 64 (bitAt data p).toNat := by
  refine ⟨data[p / 8], data[p / 8].setWidth 32 >>> (p % 8), ?_, ?_, ?_⟩
  · exact readByte_eq h
  · exact shiftRight_eq _ (by omega) (by omega)
  · have hget : data.getD (p / 8) 0 = data[p / 8] := by
      simp [List.getD_eq_getElem?_getD, List.getElem?_eq_getElem h]
    rw [bitAt, hget]
    exact setWidth_and_one _ (Nat.mod_lt _ (by omega))

/-! ## The loop -/

/-- The bits of a walk of `count` steps, in the order in which it meets them. -/
def walkBits (data : List (BitVec 8)) (m count : ℕ) : List Bool :=
  (List.range count).map fun i => bitAt data (mirror (m + i))

theorem walkBits_succ (m count : ℕ) :
    walkBits data m (count + 1) = bitAt data (mirror m) :: walkBits data (m + 1) count := by
  simp [walkBits, List.range_succ_eq_map, Nat.add_right_comm, Nat.add_assoc]

/-- The loop takes in the bits up to the end of the usable bytes, and stops early when the
signal goes on after it. -/
theorem motorolaLoop_eq {usable : ℕ} (husable : usable ≤ data.length) (remaining m : ℕ)
    (bits : List Bool) :
    partialDecoder.motorolaLoop data usable remaining (mirror m : ℕ)
        (BitVec.ofNat 64 (ofBits bits)) =
      some (BitVec.ofNat 64 (ofBits (bits ++ walkBits data m (min remaining (8 * usable - m)))),
        remaining - (8 * usable - m)) := by
  induction remaining generalizing m bits with
  | zero => simp [Decoder.motorolaLoop, walkBits]
  | succ remaining ih =>
    have hdiv : ((mirror m : ℕ) : Int).tdiv 8 = (mirror m / 8 : ℕ) := by
      rw [Int.tdiv_eq_ediv_of_nonneg (by omega)]
      omega
    have hmod : ((mirror m : ℕ) : Int).tmod 8 = (mirror m % 8 : ℕ) := by
      rw [Int.tmod_eq_emod_of_nonneg (by omega)]
      omega
    have hbyte : mirror m / 8 = m / 8 := mirror_div m
    by_cases hin : m < 8 * usable
    · obtain ⟨byte, shifted, hread, hshift, hbit⟩ :=
        read_bit data (p := mirror m) (by omega)
      have hstep : ¬ ((usable : Int) ≤ (mirror m / 8 : ℕ) ∨ ((mirror m / 8 : ℕ) : Int) < 0) := by
        omega
      have hmin : min (remaining + 1) (8 * usable - m) =
          min remaining (8 * usable - (m + 1)) + 1 := by omega
      have hleft : remaining + 1 - (8 * usable - m) = remaining - (8 * usable - (m + 1)) := by omega
      have hone : shiftLeft (BitVec.ofNat 64 (ofBits bits)) 1 =
          some (BitVec.ofNat 64 (ofBits bits) <<< 1) := rfl
      rw [Decoder.motorolaLoop]
      simp only [hdiv, hmod, hstep, if_false, partialDecoder_readByte, partialDecoder_shiftLeft,
        partialDecoder_shiftRight, partialDecoder_position, hread, hshift, hone, hbit,
        Option.bind_eq_bind, Option.bind_some, shiftLeft_one_or_ofNat, nextBit_mirror]
      rw [← ofBits_snoc, ih, hmin, walkBits_succ, hleft, List.append_assoc, List.singleton_append]
    · have hstep : (usable : Int) ≤ (mirror m / 8 : ℕ) ∨ ((mirror m / 8 : ℕ) : Int) < 0 := by
        omega
      have hout : 8 * usable - m = 0 := by omega
      rw [Decoder.motorolaLoop]
      simp only [hdiv, hstep, if_true, hout, Nat.min_zero, Nat.sub_zero]
      simp [walkBits]

/-! ## The decoder -/

/-- The bits of a Motorola signal, in the order of the walk from its start bit. -/
def SignalSpec.motorolaBits (spec : SignalSpec) (data : List (BitVec 8)) : List Bool :=
  (List.range spec.bitLength.toNat).map fun i => bitAt data (nextBit^[i] spec.startBit).toNat

/-- The integer that the bits of a signal stand for, in 64-bit arithmetic. -/
def SignalSpec.interpret (spec : SignalSpec) (bits : List Bool) : Int :=
  (ofBits bits : Int).bmod (2 ^ (if spec.isSigned then spec.bitLength.toNat else 64))

/-- A start bit and a width that the parameters admit. -/
structure SignalSpec.InRange (spec : SignalSpec) : Prop where
  start_nonneg : 0 ≤ spec.startBit
  start_le : spec.startBit ≤ 63
  one_le_length : 1 ≤ spec.bitLength
  length_le : spec.bitLength ≤ 64

instance (spec : SignalSpec) : Decidable spec.InRange :=
  decidable_of_iff (0 ≤ spec.startBit ∧ spec.startBit ≤ 63 ∧ 1 ≤ spec.bitLength ∧
    spec.bitLength ≤ 64) ⟨fun ⟨a, b, c, d⟩ => ⟨a, b, c, d⟩, fun ⟨a, b, c, d⟩ => ⟨a, b, c, d⟩⟩

theorem extendSign_eq {n length : ℕ} (hn : n < 2 ^ length) (hpos : 0 < length)
    (hlt : length < 64) :
    ∃ value, partialDecoder.extendSign (BitVec.ofNat 64 n) length = some value ∧
      value.toInt = (n : Int).bmod (2 ^ length) := by
  have hword : BitVec.ofNat 64 n = (BitVec.ofNat length n).setWidth 64 := by
    apply BitVec.eq_of_toNat_eq
    simp [Nat.mod_eq_of_lt hn]
  have hsign : shiftLeft (1 : BitVec 64) ((length : Int) - 1) = some (1#64 <<< (length - 1)) := by
    rw [shiftLeft_eq _ (by omega) (by omega), show ((length : Int) - 1).toNat = length - 1 by omega]
    rfl
  have hmask : shiftLeft (1 : BitVec 64) length = some (1#64 <<< length) :=
    shiftLeft_eq _ (by omega) (by omega)
  have htoInt : ((BitVec.ofNat length n).signExtend 64).toInt = (n : Int).bmod (2 ^ length) := by
    rw [BitVec.toInt_signExtend_of_le hlt.le, BitVec.toInt_ofNat']
  refine ⟨_, ?_, htoInt⟩
  have htest := setWidth_and_signBit (BitVec.ofNat length n) hpos hlt.le
  simp only [Decoder.extendSign, partialDecoder_shiftLeft, hsign, hmask, hword,
    Option.bind_eq_bind, Option.bind_some]
  cases hmsb : (BitVec.ofNat length n).msb with
  | true =>
    exact (if_pos (htest.mpr hmsb)).trans (congrArg some (setWidth_or_not_mask _ hlt hmsb))
  | false =>
    have hclear : ¬ (BitVec.ofNat length n).msb = true := by simp [hmsb]
    exact (if_neg (mt htest.mp hclear)).trans
      (congrArg some (BitVec.signExtend_eq_setWidth_of_msb_false hmsb).symm)

/-- The loop as `decodeRaw` starts it: the walk from the start bit, up to the end of the
usable bytes. -/
theorem motorolaLoop_start {p : ℕ} (hstart : spec.startBit = p)
    (husable : (usableBytes dlc).toNat ≤ data.length) :
    partialDecoder.motorolaLoop data (usableBytes dlc) spec.bitLength.toNat spec.startBit 0 =
      some (BitVec.ofNat 64 (ofBits (walkBits data (mirror p)
          (min spec.bitLength.toNat (8 * (usableBytes dlc).toNat - mirror p)))),
        spec.bitLength.toNat - (8 * (usableBytes dlc).toNat - mirror p)) := by
  have hrun := motorolaLoop_eq husable spec.bitLength.toNat (mirror p) []
  rwa [toNat_usableBytes, mirror_mirror, ← hstart] at hrun

/-- From position `p` the loop runs to its end when the walk stays inside the usable bytes,
and then has taken in all bits of the signal. -/
theorem motorolaLoop_complete {p : ℕ} (hstart : spec.startBit = p)
    (husable : (usableBytes dlc).toNat ≤ data.length)
    (hfits : mirror p + spec.bitLength.toNat ≤ 8 * (usableBytes dlc).toNat) :
    partialDecoder.motorolaLoop data (usableBytes dlc) spec.bitLength.toNat spec.startBit 0 =
      some (BitVec.ofNat 64 (ofBits (spec.motorolaBits data)), 0) := by
  have hbits : spec.motorolaBits data = walkBits data (mirror p) spec.bitLength.toNat := by
    simp [SignalSpec.motorolaBits, walkBits, hstart, nextBit_iterate]
  rw [motorolaLoop_start hstart husable, Nat.min_eq_left (by omega),
    Nat.sub_eq_zero_of_le (by omega), hbits]

/-- The end of `decodeRaw`, on a word that holds the bits of the signal. -/
theorem extendSign_interpret (hrange : spec.InRange) {bits : List Bool}
    (hbits : bits.length = spec.bitLength.toNat) :
    (if spec.isSigned ∧ spec.bitLength < 64 then
        (partialDecoder.extendSign (BitVec.ofNat 64 (ofBits bits)) spec.bitLength).bind fun value =>
          some value.toInt
      else some (BitVec.ofNat 64 (ofBits bits)).toInt) = some (spec.interpret bits) := by
  obtain ⟨-, -, hone, hlength⟩ := hrange
  have hlt : ofBits bits < 2 ^ spec.bitLength.toNat := hbits ▸ ofBits_lt bits
  by_cases hsigned : spec.isSigned = true ∧ spec.bitLength < 64
  · have hnat : ((spec.bitLength.toNat : ℕ) : Int) = spec.bitLength := by omega
    obtain ⟨value, hvalue, htoInt⟩ := extendSign_eq hlt (by omega) (by omega)
    rw [hnat] at hvalue
    rw [if_pos hsigned, hvalue, Option.bind_some, htoInt, SignalSpec.interpret,
      if_pos hsigned.1]
  · have hmodulus : (2 ^ (if spec.isSigned then spec.bitLength.toNat else 64) : ℕ) = 2 ^ 64 := by
      cases hs : spec.isSigned with
      | true =>
        have hfull : spec.bitLength.toNat = 64 := by
          have := not_and.mp hsigned hs
          omega
        simp [hfull]
      | false => simp
    rw [if_neg hsigned, SignalSpec.interpret, hmodulus, BitVec.toInt_ofNat']

@[simp] theorem length_motorolaBits (spec : SignalSpec) (data : List (BitVec 8)) :
    (spec.motorolaBits data).length = spec.bitLength.toNat := by
  simp [SignalSpec.motorolaBits]

/-- A Motorola signal whose walk stays inside the usable bytes is read completely. -/
theorem decodeRaw_motorola {p : ℕ} (hbig : spec.littleEndian = false) (hrange : spec.InRange)
    (hstart : spec.startBit = p) (husable : (usableBytes dlc).toNat ≤ data.length)
    (hfits : mirror p + spec.bitLength.toNat ≤ 8 * (usableBytes dlc).toNat) :
    spec.decodeRaw data dlc = some (spec.interpret (spec.motorolaBits data)) := by
  have hloop := motorolaLoop_complete hstart husable hfits
  simp only [Decoder.decodeRaw, hbig, hloop, partialDecoder_position, Option.map_eq_map,
    Option.map_some, Option.bind_eq_bind, Option.bind_some, Option.pure_def, Bool.false_eq_true,
    if_false]
  exact extendSign_interpret hrange (length_motorolaBits spec data)

end Roscco.ObdFeedback
