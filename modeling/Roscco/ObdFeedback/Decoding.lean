import Roscco.ObdFeedback.Fit

/-!
# Decoding is bit-exact

The Intel branch shifts and masks a packed word, the Motorola branch walks bit by bit.
Both take in the payload bits at the positions of the signal, the most significant one
first, and return the integer that these bits represent.

## Main results

* `decodeRaw_eq` — what `decodeRaw` returns, in either byte order.
* `decodeRaw_represents` — it is the integer that the bits of the signal represent.
* `decodeRaw_reverse` — the two byte orders agree through byte reversal.
-/

namespace Roscco.ObdFeedback

open Library

variable {data : List (BitVec 8)} {spec : SignalSpec} {dlc : BitVec 8}

/-! ## Positions -/

/-- The payload positions of a signal, the most significant bit first, counted from bit 0 of
byte 0. Intel signals count down to their start bit. Motorola signals count up from it where
the bits of each byte are numbered from the top. -/
def SignalSpec.positions (spec : SignalSpec) : List ℕ :=
  (List.range spec.bitLength.toNat).map fun (i : ℕ) =>
    if spec.littleEndian then (spec.startBit + spec.bitLength - 1 - i).toNat
    else mirror (mirror spec.startBit.toNat + i)

/-- The payload bits of a signal, the most significant one first. -/
def SignalSpec.bits (spec : SignalSpec) (data : List (BitVec 8)) : List Bool :=
  spec.positions.map (bitAt data)

/-- All positions of the signal lie in the bytes that a frame of this length has. -/
def SignalSpec.Inside (spec : SignalSpec) (dlc : BitVec 8) : Prop :=
  ∀ p ∈ spec.positions, ((p / 8 : ℕ) : Int) < usableBytes dlc

instance (spec : SignalSpec) (dlc : BitVec 8) : Decidable (spec.Inside dlc) :=
  inferInstanceAs (Decidable (∀ p ∈ spec.positions, _))

@[simp] theorem length_positions (spec : SignalSpec) :
    spec.positions.length = spec.bitLength.toNat := by
  simp [SignalSpec.positions]

@[simp] theorem length_bits (spec : SignalSpec) (data : List (BitVec 8)) :
    (spec.bits data).length = spec.bitLength.toNat := by
  simp [SignalSpec.bits]

/-- The walk of the Motorola loop visits these positions. -/
theorem bits_motorola (hbig : spec.littleEndian = false) {p : ℕ} (hp : spec.startBit = p)
    (data : List (BitVec 8)) : spec.bits data = spec.motorolaBits data := by
  simp [SignalSpec.bits, SignalSpec.positions, SignalSpec.motorolaBits, hbig, hp, nextBit_iterate]

/-! ## The packed word -/

theorem bitAt_of_mem {p : ℕ} (h : p / 8 < data.length) :
    bitAt data p = data[p / 8].getLsbD (p % 8) := by
  simp [bitAt, List.getD_eq_getElem?_getD, List.getElem?_eq_getElem h]

/-- One more byte in the packed word. -/
theorem getLsbD_or_shiftLeft (packed : BitVec 64) {count p : ℕ} (hcount : count < data.length)
    (hword : count < 8)
    (ih : packed.getLsbD p = (decide (p < 8 * count) && bitAt data p)) :
    (packed ||| (data[count].setWidth 64 <<< (8 * count))).getLsbD p =
      (decide (p < 8 * (count + 1)) && bitAt data p) := by
  rw [BitVec.getLsbD_or, ih, BitVec.getLsbD_shiftLeft, BitVec.getLsbD_setWidth]
  rcases Nat.lt_or_ge p (8 * count) with hlow | hlow
  · have hnext : p < 8 * (count + 1) := by omega
    simp [hlow, hnext]
  · rcases Nat.lt_or_ge p (8 * (count + 1)) with hin | hout
    · have hbyte : p / 8 = count := by omega
      have hbit : p - 8 * count = p % 8 := by omega
      have hlt : p < 64 := by omega
      have hmod : p % 8 < 64 := by omega
      rw [bitAt_of_mem (hbyte ▸ hcount)]
      simp [hlow.not_gt, hin, hlt, hbit, hbyte, hmod]
    · have hzero : data[count].getLsbD (p - 8 * count) = false :=
        BitVec.getLsbD_of_ge _ _ (by omega)
      simp [hlow.not_gt, hout.not_gt, hzero]

/-- The packed word has the payload bits in place. -/
theorem packBytes_spec {count : ℕ} (hcount : count ≤ data.length) (hword : count ≤ 8) :
    ∃ packed, partialDecoder.packBytes data count = some packed ∧
      ∀ p, packed.getLsbD p = (decide (p < 8 * count) && bitAt data p) := by
  induction count with
  | zero => exact ⟨0, rfl, by simp⟩
  | succ count ih =>
    obtain ⟨packed, hpacked, hbits⟩ := ih (by omega) (by omega)
    have hread : readByte data count = some data[count] := readByte_eq hcount
    have hshift : shiftLeft (data[count].setWidth 64) (8 * count : Int) =
        some (data[count].setWidth 64 <<< (8 * count)) := shiftLeft_eq _ (by omega) (by omega)
    refine ⟨packed ||| (data[count].setWidth 64 <<< (8 * count)), ?_, ?_⟩
    · have hrange : (do let i ← List.range (count + 1); pure (i : Int)) =
          (do let i ← List.range count; pure (i : Int)) ++ [(count : Int)] := by
        simp [List.range_succ]
      rw [Decoder.packBytes] at hpacked ⊢
      rw [hrange, List.foldlM_append, hpacked]
      simp [hread, hshift]
    · exact fun p => getLsbD_or_shiftLeft packed (by omega) (by omega) (hbits p)

/-- The bit of weight `2 ^ i` of an Intel signal. -/
theorem getElem_bits_intel (hlittle : spec.littleEndian = true) {i : ℕ}
    (hi : i < (spec.bits data).length) (hstart : 0 ≤ spec.startBit) :
    (spec.bits data)[(spec.bits data).length - 1 - i] =
      bitAt data (spec.startBit.toNat + i) := by
  rw [length_bits] at hi
  have hposition : (spec.startBit + spec.bitLength).toNat - 1 - (spec.bitLength.toNat - 1 - i) =
      spec.startBit.toNat + i := by omega
  simp [SignalSpec.bits, SignalSpec.positions, hlittle, hposition]

/-- Shifting and masking the packed word leaves the bits of the signal. -/
theorem shiftRight_and_mask {packed mask : BitVec 64} {count : ℕ}
    (hlittle : spec.littleEndian = true) (hrange : spec.InRange)
    (hpacked : ∀ p, packed.getLsbD p = (decide (p < 8 * count) && bitAt data p))
    (hmask : ∀ i < 64, mask.getLsbD i = decide (i < spec.bitLength.toNat))
    (hfits : spec.startBit.toNat + spec.bitLength.toNat ≤ 8 * count) :
    (packed >>> spec.startBit.toNat) &&& mask = BitVec.ofNat 64 (ofBits (spec.bits data)) := by
  apply BitVec.eq_of_getLsbD_eq
  intro i hi
  rw [BitVec.getLsbD_and, BitVec.getLsbD_ushiftRight, hpacked, hmask i hi, BitVec.getLsbD_ofNat]
  rcases Nat.lt_or_ge i spec.bitLength.toNat with hlow | hhigh
  · have hword : spec.startBit.toNat + i < 8 * count := by omega
    have hindex : i < (spec.bits data).length := by rwa [length_bits]
    rw [testBit_ofBits hindex, getElem_bits_intel hlittle hindex hrange.start_nonneg]
    simp [hword, hlow, hi]
  · have hlt : ofBits (spec.bits data) < 2 ^ i := by
      refine (ofBits_lt _).trans_le (Nat.pow_le_pow_right (by omega) ?_)
      rwa [length_bits]
    simp [hhigh.not_gt, Nat.testBit_lt_two_pow hlt]

/-- An Intel signal inside the usable bytes is read completely. -/
theorem decodeRaw_intel (hlittle : spec.littleEndian = true) (hrange : spec.InRange)
    (husable : (usableBytes dlc).toNat ≤ data.length)
    (hfits : spec.startBit + spec.bitLength ≤ 8 * usableBytes dlc) :
    spec.decodeRaw data dlc = some (spec.interpret (spec.bits data)) := by
  obtain ⟨hstart, hstart', hone, hlength⟩ := id hrange
  have hword := toNat_usableBytes_le dlc
  obtain ⟨packed, hpacked, hbits⟩ := packBytes_spec husable hword
  have hshift : shiftRight packed spec.startBit = some (packed >>> spec.startBit.toNat) :=
    shiftRight_eq packed hstart (by omega)
  by_cases hfull : spec.bitLength = 64
  · have hmask : ∀ i < 64, (~~~(0 : BitVec 64)).getLsbD i = decide (i < spec.bitLength.toNat) := by
      intro i hi
      have hlt : i < spec.bitLength.toNat := by omega
      rw [BitVec.getLsbD_not]
      simp [hi, hlt]
    have hvalue := shiftRight_and_mask hlittle hrange hbits hmask (by omega)
    simp only [Decoder.decodeRaw, hlittle, if_true, hpacked, if_pos hfull,
      partialDecoder_shiftRight, hshift, hvalue, Option.bind_eq_bind, Option.bind_some,
      Option.pure_def]
    exact extendSign_interpret hrange (length_bits spec data)
  · have hone : shiftLeft (1 : BitVec 64) spec.bitLength =
        some (1#64 <<< spec.bitLength.toNat) := shiftLeft_eq _ (by omega) (by omega)
    have hmask : ∀ i < 64, ((1#64 <<< spec.bitLength.toNat) - 1).getLsbD i =
        decide (i < spec.bitLength.toNat) := fun i _ => getLsbD_mask (by omega)
    have hvalue := shiftRight_and_mask hlittle hrange hbits hmask (by omega)
    simp only [Decoder.decodeRaw, hlittle, if_true, hpacked, if_neg hfull,
      partialDecoder_shiftLeft, partialDecoder_shiftRight, hone, hshift, hvalue,
      Option.map_eq_map, Option.map_some, Option.bind_eq_bind, Option.bind_some, Option.pure_def]
    exact extendSign_interpret hrange (length_bits spec data)

/-! ## Both byte orders -/

/-- The first position of an Intel signal is its highest. -/
theorem SignalSpec.Inside.intel (hinside : spec.Inside dlc) (hlittle : spec.littleEndian = true)
    (hrange : spec.InRange) : spec.startBit + spec.bitLength ≤ 8 * usableBytes dlc := by
  obtain ⟨hstart, -, hone, -⟩ := hrange
  have hmem : (spec.startBit + spec.bitLength - 1).toNat ∈ spec.positions := by
    simp only [SignalSpec.positions, hlittle, if_true, List.mem_map, List.mem_range]
    exact ⟨0, by omega, by simp⟩
  have hfirst := hinside _ hmem
  omega

/-- The last position of a Motorola signal is its highest in mirrored positions. -/
theorem SignalSpec.Inside.motorola {p : ℕ} (hinside : spec.Inside dlc)
    (hbig : spec.littleEndian = false) (hrange : spec.InRange) (hp : spec.startBit = p) :
    mirror p + spec.bitLength.toNat ≤ 8 * (usableBytes dlc).toNat := by
  have hone := hrange.one_le_length
  have hmem : mirror (mirror p + (spec.bitLength.toNat - 1)) ∈ spec.positions := by
    simp only [SignalSpec.positions, hbig, Bool.false_eq_true, if_false, hp, Int.toNat_natCast,
      List.mem_map, List.mem_range]
    exact ⟨spec.bitLength.toNat - 1, by omega, rfl⟩
  have hlast := hinside _ hmem
  rw [mirror_div] at hlast
  have husable := toNat_usableBytes dlc
  omega

/-- A signal inside the bytes of the frame is read completely, in either byte order. -/
theorem decodeRaw_eq (hrange : spec.InRange) (husable : (usableBytes dlc).toNat ≤ data.length)
    (hinside : spec.Inside dlc) :
    spec.decodeRaw data dlc = some (spec.interpret (spec.bits data)) := by
  cases horder : spec.littleEndian with
  | true => exact decodeRaw_intel horder hrange husable (hinside.intel horder hrange)
  | false =>
    obtain ⟨p, hp⟩ := Int.eq_ofNat_of_zero_le hrange.start_nonneg
    rw [bits_motorola horder hp]
    exact decodeRaw_motorola horder hrange hp husable (hinside.motorola horder hrange hp)

/-- Below the range of the signed result an unsigned signal keeps its magnitude. -/
theorem interpret_unsigned (hsigned : spec.isSigned = false) {bits : List Bool}
    (hlt : ofBits bits < 2 ^ 63) : spec.interpret bits = ofBits bits := by
  rw [SignalSpec.interpret, hsigned, if_neg (by simp)]
  apply Int.bmod_eq_of_le <;> omega

/-- The returned integer is the one that the bits represent. -/
theorem represents_interpret (hrange : spec.InRange)
    (hwidth : spec.isSigned = false → spec.bitLength ≤ 63) {bits : List Bool}
    (hbits : bits.length = spec.bitLength.toNat) :
    Represents spec.isSigned bits (spec.interpret bits) := by
  obtain ⟨-, -, hone, -⟩ := hrange
  cases hsigned : spec.isSigned with
  | true =>
    rw [SignalSpec.interpret, hsigned, if_pos rfl, ← hbits]
    exact represents_bmod (by omega)
  | false =>
    have hle : bits.length ≤ 63 := by
      have := hwidth hsigned
      omega
    rw [interpret_unsigned hsigned
      ((ofBits_lt bits).trans_le (Nat.pow_le_pow_right (by omega) hle))]
    exact represents_ofBits bits

theorem usableBytes_le_length (data : Vector (BitVec 8) 8) :
    (usableBytes dlc).toNat ≤ data.toList.length := by
  rw [Vector.length_toList]
  exact toNat_usableBytes_le dlc

/-- `decodeRaw` returns the integer that the bits of the signal represent, and depends on
nothing else of the frame. -/
theorem decodeRaw_represents (spec : SignalSpec) (data : Vector (BitVec 8) 8) (dlc : BitVec 8)
    (hrange : spec.InRange) (hwidth : spec.isSigned = false → spec.bitLength ≤ 63)
    (hinside : spec.Inside dlc) :
    (∃ raw, spec.decodeRaw data.toList dlc = some raw ∧
      Represents spec.isSigned (spec.bits data.toList) raw ∧
      ∀ v, Represents spec.isSigned (spec.bits data.toList) v → v = raw) ∧
    ∀ (data' : Vector (BitVec 8) 8) (dlc' : BitVec 8), spec.Inside dlc' →
      (∀ p ∈ spec.positions, bitAt data'.toList p = bitAt data.toList p) →
      spec.decodeRaw data'.toList dlc' = spec.decodeRaw data.toList dlc := by
  have hrepresents := represents_interpret hrange hwidth (length_bits spec data.toList)
  have hpos : 0 < (spec.bits data.toList).length := by
    have := hrange.one_le_length
    rw [length_bits]
    omega
  have hraw := decodeRaw_eq hrange (usableBytes_le_length data) hinside
  refine ⟨⟨_, hraw, hrepresents, fun v hv => hv.unique hpos hrepresents⟩, ?_⟩
  intro data' dlc' hinside' hagree
  have hbits : spec.bits data'.toList = spec.bits data.toList := List.map_congr_left hagree
  rw [hraw, decodeRaw_eq hrange (usableBytes_le_length data') hinside', hbits]

/-- Twelve signed bits across a byte boundary, in Motorola order. -/
theorem decodeRaw_represents_sawtooth :
    ∃ raw, ({ littleEndian := false, startBit := 3, bitLength := 12 } : SignalSpec).decodeRaw
        #v[0x1F, 0x80, 0, 0, 0, 0, 0, 0].toList 2 = some raw ∧ raw % 2 ^ 12 = 0xF80 := by
  obtain ⟨⟨raw, hraw, hrepresents, -⟩, -⟩ := decodeRaw_represents
    { littleEndian := false, startBit := 3, bitLength := 12 } #v[0x1F, 0x80, 0, 0, 0, 0, 0, 0] 2
    (by decide) (by decide) (by decide)
  exact ⟨raw, hraw, hrepresents.emod⟩

/-! ## Byte reversal -/

/-- The Intel signal that reads the byte-reversed payload. -/
def SignalSpec.reversed (spec : SignalSpec) : SignalSpec :=
  { spec with
    littleEndian := true
    startBit := 8 * (7 - spec.startBit / 8) + spec.startBit % 8 - spec.bitLength + 1 }

/-- Counting down the reversed bytes is walking on through the bytes. -/
theorem bitAt_reverse {m : ℕ} (hm : m < 8 * data.length) :
    bitAt data.reverse (8 * data.length - 1 - m) = bitAt data (mirror m) := by
  have hbyte : (8 * data.length - 1 - m) / 8 = data.length - 1 - m / 8 := by omega
  have hbit : (8 * data.length - 1 - m) % 8 = 7 - m % 8 := by omega
  have hmirror : mirror m % 8 = 7 - m % 8 := by
    unfold mirror
    omega
  have hindex : data.length - 1 - (data.length - 1 - m / 8) = m / 8 := by omega
  rw [bitAt, bitAt, hbyte, hbit, mirror_div, hmirror, List.getD_eq_getElem?_getD,
    List.getD_eq_getElem?_getD, List.getElem?_reverse (by omega), hindex]

theorem bits_reversed {p : ℕ} (data : Vector (BitVec 8) 8) (hbig : spec.littleEndian = false)
    (hp : spec.startBit = p) (hlength : mirror p + spec.bitLength.toNat ≤ 64) :
    spec.reversed.bits data.toList.reverse = spec.bits data.toList := by
  simp only [SignalSpec.bits, SignalSpec.positions, SignalSpec.reversed, hbig, if_true,
    Bool.false_eq_true, if_false, List.map_map, hp]
  apply List.map_congr_left
  intro i hi
  have hlt : i < spec.bitLength.toNat := List.mem_range.mp hi
  have hdown : (8 * (7 - (p : Int) / 8) + (p : Int) % 8 - spec.bitLength + 1 + spec.bitLength -
      1 - i).toNat = 8 * data.toList.length - 1 - (mirror p + i) := by
    unfold mirror at hlength ⊢
    simp only [Vector.length_toList]
    omega
  simp only [Function.comp_apply, hdown, Int.toNat_natCast]
  exact bitAt_reverse (by simp only [Vector.length_toList]; omega)

/-- A Motorola signal of an eight-byte frame is the Intel signal of the reversed frame. -/
theorem decodeRaw_reverse (spec : SignalSpec) (data : Vector (BitVec 8) 8)
    (hbig : spec.littleEndian = false) (hstart : 0 ≤ spec.startBit ∧ spec.startBit ≤ 63)
    (hlength : 1 ≤ spec.bitLength ∧
      spec.bitLength ≤ 8 * (7 - spec.startBit / 8) + spec.startBit % 8 + 1) :
    ∃ raw, spec.decodeRaw data.toList 8 = some raw ∧
      spec.reversed.decodeRaw data.reverse.toList 8 = some raw := by
  obtain ⟨p, hp⟩ := Int.eq_ofNat_of_zero_le hstart.1
  have hrange : spec.InRange := ⟨hstart.1, hstart.2, hlength.1, by omega⟩
  have hmirror : mirror p + spec.bitLength.toNat ≤ 64 := by
    unfold mirror
    omega
  have hreversed : spec.reversed.InRange := by
    refine ⟨?_, ?_, hlength.1, hrange.length_le⟩ <;> simp only [SignalSpec.reversed] <;> omega
  have hfull : usableBytes 8 = 8 := rfl
  refine ⟨spec.interpret (spec.bits data.toList), ?_, ?_⟩
  · rw [bits_motorola hbig hp]
    exact decodeRaw_motorola hbig hrange hp (usableBytes_le_length data) hmirror
  · have hdata : (usableBytes 8).toNat ≤ data.toList.reverse.length := by
      rw [List.length_reverse]
      exact usableBytes_le_length data
    have hfits : spec.reversed.startBit + spec.reversed.bitLength ≤ 8 * usableBytes 8 := by
      simp only [SignalSpec.reversed, hfull]
      omega
    rw [Vector.toList_reverse, decodeRaw_intel rfl hreversed hdata hfits,
      bits_reversed data hbig hp hmirror]
    rfl

/-- Sixteen bits from the top of byte 0 are the sixteen highest of the reversed payload. -/
theorem decodeRaw_reverse_top :
    let spec : SignalSpec := { littleEndian := false, startBit := 7, bitLength := 16 }
    let data : Vector (BitVec 8) 8 := #v[0x12, 0x34, 0, 0, 0, 0, 0, 0]
    spec.reversed.startBit = 48 ∧
      spec.reversed.decodeRaw data.reverse.toList 8 = spec.decodeRaw data.toList 8 := by
  intro spec data
  obtain ⟨raw, hmotorola, hintel⟩ :=
    decodeRaw_reverse spec data rfl (by decide) (by decide)
  exact ⟨by decide, hintel.trans hmotorola.symm⟩

end Roscco.ObdFeedback
