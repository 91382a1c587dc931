import Roscco.ObdFeedback.Decoding
import Roscco.ObdFeedback.Streams

/-!
# What `fitsIn` turns away

`fitsIn` rounds in favour of the signal: it accepts every frame that holds all bits of it,
and a longer frame wherever it accepts a shorter one. A signal that the constructor disables
is therefore one that no frame could have carried.

## Main results

* `fitsIn_of_inside` — nothing readable is rejected.
* `fitsIn_complete_monotone` — completeness and monotonicity, and what they say of the
  constructor.
-/

namespace Roscco.ObdFeedback

open Library

variable {spec : SignalSpec} {dlc dlc' : BitVec 8}

/-! ## Frame lengths -/

theorem usableBytes_mono (h : dlc ≤ dlc') : usableBytes dlc ≤ usableBytes dlc' := by
  have hle : dlc.toNat ≤ dlc'.toNat := h
  simp only [usableBytes]
  omega

/-- No frame has more usable bytes than a full one. -/
theorem usableBytes_le_full (dlc : BitVec 8) : usableBytes dlc ≤ usableBytes 8 := by
  change ((min dlc.toNat 8 : ℕ) : Int) ≤ 8
  omega

theorem SignalSpec.Inside.mono (hinside : spec.Inside dlc)
    (h : usableBytes dlc ≤ usableBytes dlc') : spec.Inside dlc' :=
  fun p hp => (hinside p hp).trans_le h

/-- A longer frame has room for what fits in a shorter one. -/
theorem fitsIn_mono (h : dlc ≤ dlc') (hfits : spec.fitsIn dlc = true) :
    spec.fitsIn dlc' = true := by
  have hrange := inRange_of_fitsIn hfits
  have husable := usableBytes_mono h
  cases horder : spec.littleEndian with
  | true =>
    rw [fitsIn_intel horder hrange] at hfits ⊢
    omega
  | false =>
    rw [fitsIn_motorola horder hrange] at hfits ⊢
    omega

/-! ## Frames that hold a signal -/

/-- `fitsIn` accepts every frame that holds the signal. -/
theorem fitsIn_of_inside (hrange : spec.InRange) (hinside : spec.Inside dlc) :
    spec.fitsIn dlc = true := by
  cases horder : spec.littleEndian with
  | true =>
    have hfits := hinside.intel horder hrange
    exact (fitsIn_intel horder hrange).mpr (by omega)
  | false =>
    obtain ⟨p, hp⟩ := Int.eq_ofNat_of_zero_le hrange.start_nonneg
    have hfits := hinside.motorola horder hrange hp
    obtain ⟨-, -, hone, -⟩ := id hrange
    rw [mirror] at hfits
    exact (fitsIn_motorola horder hrange).mpr (by omega)

/-- The Motorola loop reaches its end only in frames that hold the signal. -/
theorem inside_of_motorolaLoop (hbig : spec.littleEndian = false) (hrange : spec.InRange)
    (data : Vector (BitVec 8) 8) {value : BitVec 64}
    (hloop : partialDecoder.motorolaLoop data.toList (usableBytes dlc) spec.bitLength.toNat
      spec.startBit 0 = some (value, 0)) : spec.Inside dlc := by
  obtain ⟨hstart, -, hone, -⟩ := hrange
  obtain ⟨p, hp⟩ := Int.eq_ofNat_of_zero_le hstart
  have hleft : spec.bitLength.toNat - (8 * (usableBytes dlc).toNat - mirror p) = 0 := by
    rw [motorolaLoop_start hp (usableBytes_le_length data)] at hloop
    exact congrArg Prod.snd (Option.some.inj hloop)
  intro position hposition
  simp only [SignalSpec.positions, hbig, Bool.false_eq_true, if_false, hp, Int.toNat_natCast,
    List.mem_map, List.mem_range] at hposition
  obtain ⟨i, hi, rfl⟩ := hposition
  have husable := toNat_usableBytes dlc
  rw [mirror_div]
  omega

/-! ## The constructor -/

/-- The parameters of a signal. -/
def Config.signal (cfg : Config) : Signal → SignalParams
  | .steering => cfg.steering
  | .brakePedal => cfg.brakePedal

theorem spec_construct (cfg : Config) (signal : Signal) :
    (Node.construct cfg).1.spec signal =
      { (cfg.signal signal).spec with
        enabled := (cfg.signal signal).enabled && (cfg.signal signal).spec.fitsIn 8 } := by
  have hcheck : (Node.construct cfg).1.spec signal =
      (checkFit signal (cfg.signal signal).spec).1 := by
    cases signal <;> rfl
  rw [hcheck, checkFit_fst]
  rfl

/-- What does not fit in a full frame is not held by any frame. -/
theorem not_inside_of_not_fitsIn (hrange : spec.InRange) (h : spec.fitsIn 8 = false)
    (dlc : BitVec 8) : ¬ spec.Inside dlc := by
  intro hinside
  have hfits := fitsIn_of_inside hrange (hinside.mono (usableBytes_le_full dlc))
  exact absurd (hfits.symm.trans h) (by decide)

/-- `fitsIn` rejects no readable signal and is monotone in the frame length, so a signal that
the constructor disables could not have been read completely from any frame. -/
theorem fitsIn_complete_monotone (spec : SignalSpec) (hrange : spec.InRange) :
    (∀ dlc, spec.Inside dlc → spec.fitsIn dlc = true) ∧
    (∀ dlc dlc', dlc ≤ dlc' → spec.fitsIn dlc = true → spec.fitsIn dlc' = true) ∧
    ∀ cfg signal, (cfg.signal signal).spec = spec → spec.enabled = true →
      ((Node.construct cfg).1.spec signal).enabled = false →
      ∀ dlc, ¬ spec.Inside dlc ∧
        (spec.littleEndian = false → ∀ (data : Vector (BitVec 8) 8) value,
          partialDecoder.motorolaLoop data.toList (usableBytes dlc) spec.bitLength.toNat
            spec.startBit 0 ≠ some (value, 0)) := by
  refine ⟨fun _ => fitsIn_of_inside hrange, fun _ _ => fitsIn_mono, ?_⟩
  rintro cfg signal rfl henabled hdisabled dlc
  have hfits : (cfg.signal signal).spec.fitsIn 8 = false := by
    have hflag : (cfg.signal signal).enabled = true := henabled
    rwa [spec_construct, hflag, Bool.true_and] at hdisabled
  have hnever := not_inside_of_not_fitsIn hrange hfits dlc
  exact ⟨hnever, fun hbig data _ hloop => hnever (inside_of_motorolaLoop hbig hrange data hloop)⟩

/-- The default steering signal fits in two bytes, and so in a full frame. Moved to the last
bit of the payload it is disabled. -/
theorem fitsIn_complete_monotone_steering :
    Config.default.steering.spec.fitsIn 8 = true ∧
      ¬ ({ Config.default.steering with startBit := ⟨63, by decide⟩ } : SignalParams).spec.Inside
        255 := by
  obtain ⟨hcomplete, hmono, -⟩ := fitsIn_complete_monotone Config.default.steering.spec (by decide)
  obtain ⟨-, -, hdisabled⟩ := fitsIn_complete_monotone
    ({ Config.default.steering with startBit := ⟨63, by decide⟩ } : SignalParams).spec (by decide)
  exact ⟨hmono 2 8 (by decide) (hcomplete 2 (by decide)),
    (hdisabled { Config.default with
      steering := { Config.default.steering with startBit := ⟨63, by decide⟩ } } .steering rfl rfl
      (by decide) 255).1⟩

end Roscco.ObdFeedback
