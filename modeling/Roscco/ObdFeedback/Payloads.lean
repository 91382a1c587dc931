import Roscco.ObdFeedback.Admission

/-!
# Payloads for every value

A signal that lies inside the frame loses nothing: whatever the rest of the payload holds, every
value in its range is read from exactly one setting of its bits. Signals that share no bit are
independent: one can be given any value without the other reading a difference.

## Main results

* `decodeRaw_one_payload` — payloads that agree elsewhere correspond to the values in range.
-/

namespace Roscco.ObdFeedback

open Library

variable {spec : SignalSpec} {data data' : Vector (BitVec 8) 8} {dlc : BitVec 8}

/-! ## Payloads and their bits -/

/-- The payload with the given bit at every position. -/
def payload (bit : ℕ → Bool) : Vector (BitVec 8) 8 :=
  Vector.ofFn fun byte =>
    BitVec.ofNat 8 (ofBits (List.ofFn fun i : Fin 8 => bit (8 * byte.val + (7 - i))))

theorem bitAt_payload (bit : ℕ → Bool) {p : ℕ} (hp : p < 64) :
    bitAt (payload bit).toList p = bit p := by
  have hbyte : p / 8 < 8 := by omega
  have hlt : p % 8 < 8 := Nat.mod_lt p (by omega)
  have hposition : 8 * (p / 8) + (7 - (7 - p % 8)) = p := by omega
  rw [bitAt_of_mem (by rwa [Vector.length_toList])]
  simp only [payload, Vector.getElem_toList, Vector.getElem_ofFn, BitVec.getLsbD_ofNat, hlt,
    decide_true, Bool.true_and]
  rw [testBit_ofBits (by rwa [List.length_ofFn])]
  simp only [List.length_ofFn, List.getElem_ofFn]
  exact congrArg bit hposition

/-- A payload is its 64 bits. -/
theorem payload_ext (h : ∀ p < 64, bitAt data.toList p = bitAt data'.toList p) : data = data' := by
  ext byte hbyte i hi
  have hbit := h (8 * byte + i) (by omega)
  have hdiv : (8 * byte + i) / 8 = byte := by omega
  have hmod : (8 * byte + i) % 8 = i := by omega
  rw [bitAt_of_mem (by rwa [Vector.length_toList, hdiv]),
    bitAt_of_mem (by rwa [Vector.length_toList, hdiv])] at hbit
  simpa [hdiv, hmod, hi] using hbit

/-! ## Writing a signal -/

theorem position_lt (hinside : spec.Inside dlc) {p : ℕ} (hp : p ∈ spec.positions) : p < 64 := by
  have hbyte := hinside p hp
  have husable := toNat_usableBytes_le dlc
  omega

/-- No two bits of a signal have the same position. -/
theorem nodup_positions (hrange : spec.InRange) : spec.positions.Nodup := by
  refine List.Nodup.map_on ?_ List.nodup_range
  intro i hi j hj heq
  rw [List.mem_range] at hi hj
  have hstart := hrange.start_nonneg
  cases horder : spec.littleEndian with
  | true =>
    simp only [horder, if_true] at heq
    omega
  | false =>
    simp only [horder, Bool.false_eq_true, if_false] at heq
    have hmirror := congrArg mirror heq
    simpa using hmirror

/-- The payload with the given bits of the signal, and else as it was. -/
def SignalSpec.write (spec : SignalSpec) (bits : List Bool) (data : Vector (BitVec 8) 8) :
    Vector (BitVec 8) 8 :=
  payload fun p =>
    if p ∈ spec.positions then bits.getD (spec.positions.idxOf p) false else bitAt data.toList p

/-- Two payloads agree outside the signal. -/
def SignalSpec.AgreesOutside (spec : SignalSpec) (data data' : Vector (BitVec 8) 8) : Prop :=
  ∀ p < 64, p ∉ spec.positions → bitAt data'.toList p = bitAt data.toList p

theorem bitAt_write (spec : SignalSpec) (bits : List Bool) (data : Vector (BitVec 8) 8) {p : ℕ}
    (hp : p < 64) :
    bitAt (spec.write bits data).toList p =
      if p ∈ spec.positions then bits.getD (spec.positions.idxOf p) false
      else bitAt data.toList p :=
  bitAt_payload _ hp

theorem agreesOutside_write (spec : SignalSpec) (bits : List Bool) (data : Vector (BitVec 8) 8) :
    spec.AgreesOutside data (spec.write bits data) := by
  intro p hp hout
  rw [bitAt_write spec bits data hp, if_neg hout]

theorem bits_write (hrange : spec.InRange) (hinside : spec.Inside dlc) {bits : List Bool}
    (hbits : bits.length = spec.bitLength.toNat) (data : Vector (BitVec 8) 8) :
    spec.bits (spec.write bits data).toList = bits := by
  have hlength : (spec.bits (spec.write bits data).toList).length = bits.length := by
    rw [length_bits, hbits]
  apply List.ext_getElem hlength
  intro i hi hi'
  have hindex : i < spec.positions.length := by rwa [length_positions, ← hbits]
  have hmem : spec.positions[i] ∈ spec.positions := List.getElem_mem hindex
  simp only [SignalSpec.bits, List.getElem_map]
  rw [bitAt_write spec bits data (position_lt hinside hmem), if_pos hmem,
    (nodup_positions hrange).idxOf_getElem]
  simp [hi']

/-! ## One payload for every value -/

/-- The integers that a signal can stand for. -/
def SignalSpec.InSpan (spec : SignalSpec) (v : Int) : Prop :=
  (if spec.isSigned then -2 ^ (spec.bitLength.toNat - 1) else 0) ≤ v ∧
    v < if spec.isSigned then 2 ^ (spec.bitLength.toNat - 1) else 2 ^ spec.bitLength.toNat

instance (spec : SignalSpec) (v : Int) : Decidable (spec.InSpan v) :=
  inferInstanceAs (Decidable (_ ∧ _))

/-- A frame decodes to the value that the bits of its signal represent. -/
theorem decodeRaw_eq_some_iff (hrange : spec.InRange)
    (hwidth : spec.isSigned = false → spec.bitLength ≤ 63) (hinside : spec.Inside dlc) {v : Int} :
    spec.decodeRaw data.toList dlc = some v ↔
      Represents spec.isSigned (spec.bits data.toList) v := by
  have hrepresents := represents_interpret hrange hwidth (length_bits spec data.toList)
  have hpos : 0 < (spec.bits data.toList).length := by
    have hone := hrange.one_le_length
    rw [length_bits]
    omega
  rw [decodeRaw_eq hrange (usableBytes_le_length data) hinside, Option.some.injEq]
  constructor
  · rintro rfl
    exact hrepresents
  · exact fun h => hrepresents.unique hpos h

/-- Payloads that agree outside the signal and in its bits are the same. -/
theorem eq_of_bits_eq (houtside : spec.AgreesOutside data data')
    (hbits : spec.bits data'.toList = spec.bits data.toList) : data' = data := by
  apply payload_ext
  intro p hp
  by_cases hmem : p ∈ spec.positions
  · exact List.map_inj_left.mp hbits p hmem
  · exact houtside p hp hmem

/-- Whatever the payload holds elsewhere, every value in the span of a signal is decoded from
exactly one setting of the signal's bits, and no such setting changes what is decoded for a
signal that shares no position with it. -/
theorem decodeRaw_one_payload (spec : SignalSpec) (data : Vector (BitVec 8) 8) (dlc : BitVec 8)
    (hrange : spec.InRange) (hwidth : spec.isSigned = false → spec.bitLength ≤ 63)
    (hinside : spec.Inside dlc) :
    (∀ v, spec.InSpan v →
      ∃! data', spec.AgreesOutside data data' ∧ spec.decodeRaw data'.toList dlc = some v) ∧
    ∀ (data' : Vector (BitVec 8) 8) (other : SignalSpec) (dlc' : BitVec 8),
      spec.AgreesOutside data data' → other.InRange → other.Inside dlc' →
      spec.positions.Disjoint other.positions →
      other.decodeRaw data'.toList dlc' = other.decodeRaw data.toList dlc' := by
  constructor
  · rintro v ⟨hlower, hupper⟩
    obtain ⟨bits, hlength, hrepresents⟩ := exists_represents hlower hupper
    have hwritten := bits_write hrange hinside hlength data
    refine ⟨spec.write bits data, ⟨agreesOutside_write spec bits data, ?_⟩, ?_⟩
    · rw [decodeRaw_eq_some_iff hrange hwidth hinside, hwritten]
      exact hrepresents
    · rintro data' ⟨houtside, hdecoded⟩
      have hbits : spec.bits data'.toList = bits :=
        ((decodeRaw_eq_some_iff hrange hwidth hinside).mp hdecoded).bits_unique hrepresents
          (by rw [length_bits, hlength])
      refine eq_of_bits_eq ?_ (hbits.trans hwritten.symm)
      intro p hp hout
      rw [houtside p hp hout, agreesOutside_write spec bits data p hp hout]
  · intro data' other dlc' houtside hother hotherInside hdisjoint
    have hbits : other.bits data'.toList = other.bits data.toList :=
      List.map_congr_left fun p hp =>
        houtside p (position_lt hotherInside hp) fun hmem => hdisjoint hmem hp
    rw [decodeRaw_eq hother (usableBytes_le_length data') hotherInside,
      decodeRaw_eq hother (usableBytes_le_length data) hotherInside, hbits]

/-- Twelve bits in sawtooth order can be -5 next to any other content, and the byte after them
stays as it is. -/
theorem decodeRaw_one_payload_sawtooth :
    let spec : SignalSpec := { littleEndian := false, startBit := 3, bitLength := 12 }
    let next : SignalSpec := { startBit := 16, bitLength := 8 }
    let data : Vector (BitVec 8) 8 := #v[0x1F, 0x80, 0x55, 0, 0, 0, 0, 0]
    ∃ data' : Vector (BitVec 8) 8, spec.decodeRaw data'.toList 8 = some (-5) ∧
      next.decodeRaw data'.toList 8 = next.decodeRaw data.toList 8 := by
  intro spec next data
  obtain ⟨hvalues, hothers⟩ := decodeRaw_one_payload spec data 8 (by decide) (by decide)
    (by decide)
  obtain ⟨data', ⟨houtside, hdecoded⟩, -⟩ := hvalues (-5) (by decide)
  have hdisjoint : spec.positions.Disjoint next.positions := List.disjoint_left.mpr (by decide)
  exact ⟨data', hdecoded, hothers data' next 8 houtside (by decide) (by decide) hdisjoint⟩

end Roscco.ObdFeedback
