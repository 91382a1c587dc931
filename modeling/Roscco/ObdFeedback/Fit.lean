import Roscco.ObdFeedback.Motorola

/-!
# Which Motorola signals are read completely

`fitsIn` accepts a frame when the start byte and the rounded-up byte count of the signal
reach no further than its payload. A signal that starts low in its byte can need one byte
more. When that byte is the first one missing, `fitsIn` accepts a signal whose walk is cut
short; otherwise what it accepts is read, and published, with all its bits.
-/

namespace Roscco.ObdFeedback

open Library

variable {node : Node} {s : State} {frame : CanFrame} {stamp : Time} {spec : SignalSpec}
  {dlc : BitVec 8}

/-! ## What `process` publishes -/

/-- What one half of `process` can do with a frame. -/
inductive Half (signal : Signal) (spec : SignalSpec) (s : State) (frame : CanFrame)
    (publish : Int → State × List Output) : State × List Output → Prop
  | ignored (h : ¬ (spec.enabled = true ∧ plainId frame = spec.canId)) :
    Half signal spec s frame publish (s, [])
  | tooShort (h : spec.fitsIn frame.canDlc = false) :
    Half signal spec s frame publish
      (s, [.log (.tooShort signal (plainId frame) frame.canDlc)])
  | published (raw : Int) (hid : spec.enabled = true ∧ plainId frame = spec.canId)
    (hfits : spec.fitsIn frame.canDlc = true)
    (hraw : spec.decodeRaw frame.data.toList frame.canDlc = some raw) :
    Half signal spec s frame publish (publish raw)

theorem processSignal_spec {signal : Signal} {publish : Int → State × List Output}
    {r : State × List Output} (h : processSignal signal spec s frame publish = some r) :
    Half signal spec s frame publish r := by
  by_cases hid : spec.enabled = true ∧ plainId frame = spec.canId
  · cases hfits : spec.fitsIn frame.canDlc with
    | true =>
      simp only [Decoder.processSignal, hid, hfits, and_self, if_true] at h
      obtain ⟨raw, hraw, rfl⟩ := Option.map_eq_some_iff.mp h
      exact .published raw hid hfits hraw
    | false =>
      obtain rfl : (s, [.log (.tooShort signal (plainId frame) frame.canDlc)]) = r := by
        simpa [Decoder.processSignal, hid, hfits] using h
      exact .tooShort hfits
  · obtain rfl : (s, []) = r := by simpa [Decoder.processSignal, hid] using h
    exact .ignored hid

/-- What is observed on a frame comes from one of the two halves. -/
theorem mem_emit_process {o : Output}
    (h : o ∈ (obdFeedback node).emit s (.process frame stamp)) (hdefined : o ≠ .undefined) :
    ∃ s' r, o ∈ r.2 ∧
      (Half .steering node.steering s frame (publishSteering node s frame stamp) r ∨
        Half .brakePedal node.brakePedal s' frame (publishBrakePedal node s' frame stamp) r) := by
  have hemit : (obdFeedback node).emit s (.process frame stamp) =
      ((process node s frame stamp).getD (s, [.undefined])).2 := rfl
  cases hsteering : processSignal .steering node.steering s frame
      (publishSteering node s frame stamp) with
  | none => simp [hemit, Decoder.process, hsteering, hdefined] at h
  | some r =>
    obtain ⟨s', out⟩ := r
    cases hbrake : processSignal .brakePedal node.brakePedal s' frame
        (publishBrakePedal node s' frame stamp) with
    | none => simp [hemit, Decoder.process, hsteering, hbrake, hdefined] at h
    | some r' =>
      obtain ⟨s'', out'⟩ := r'
      have hor : o ∈ out ∨ o ∈ out' := by simpa [hemit, Decoder.process, hsteering, hbrake] using h
      rcases hor with ho | ho
      · exact ⟨s', _, ho, .inl (processSignal_spec hsteering)⟩
      · exact ⟨s', _, ho, .inr (processSignal_spec hbrake)⟩

/-- A published steering angle was decoded from a frame that fits. -/
theorem steeringAngle_decoded {report : SteeringAngleReport}
    (h : .steeringAngle report ∈ (obdFeedback node).emit s (.process frame stamp)) :
    node.steering.fitsIn frame.canDlc = true ∧
      node.steering.decodeRaw frame.data.toList frame.canDlc = some report.raw := by
  obtain ⟨s', r, ho, hhalf | hhalf⟩ := mem_emit_process h (by simp)
  · cases hhalf with
    | ignored | tooShort => simp at ho
    | published raw hid hfits hraw =>
      have hreport : report.raw = raw := by
        rcases List.mem_append.mp ho with hlog | hreport
        · split at hlog <;> simp at hlog
        · simp only [List.mem_singleton, Output.steeringAngle.injEq] at hreport
          rw [hreport]
      exact ⟨hfits, hreport ▸ hraw⟩
  · cases hhalf <;> simp [publishBrakePedal] at ho

/-- A published brake pedal value was decoded from a frame that fits. -/
theorem brakePedal_decoded {report : BrakePedalReport}
    (h : .brakePedal report ∈ (obdFeedback node).emit s (.process frame stamp)) :
    node.brakePedal.fitsIn frame.canDlc = true ∧
      node.brakePedal.decodeRaw frame.data.toList frame.canDlc = some report.raw := by
  obtain ⟨s', r, ho, hhalf | hhalf⟩ := mem_emit_process h (by simp)
  · cases hhalf with
    | ignored | tooShort => simp at ho
    | published =>
      rcases List.mem_append.mp ho with hlog | hreport
      · split at hlog <;> simp at hlog
      · simp at hreport
  · cases hhalf with
    | ignored | tooShort => simp at ho
    | published raw hid hfits hraw =>
      simp only [publishBrakePedal, List.mem_singleton, Output.brakePedal.injEq] at ho
      exact ⟨hfits, by rw [ho]; exact hraw⟩

/-! ## The fit -/

/-- The signal is read, and published, with all its bits from frames of this length. -/
structure SignalSpec.ReadWhole (spec : SignalSpec) (dlc : BitVec 8) : Prop where
  /-- Every position of the walk lies in a usable byte. -/
  inside : ∀ i < spec.bitLength.toNat, 0 ≤ nextBit^[i] spec.startBit ∧
    nextBit^[i] spec.startBit / 8 < usableBytes dlc
  /-- The decoder does not leave its loop early. -/
  complete : ∀ data : Vector (BitVec 8) 8, ∃ value,
    partialDecoder.motorolaLoop data.toList (usableBytes dlc) spec.bitLength.toNat spec.startBit 0 =
      some (value, 0)
  steering : ∀ node s frame stamp report, node.steering = spec → frame.canDlc = dlc →
    .steeringAngle report ∈ (obdFeedback node).emit s (.process frame stamp) →
      report.raw = spec.interpret (spec.motorolaBits frame.data.toList)
  brakePedal : ∀ node s frame stamp report, node.brakePedal = spec → frame.canDlc = dlc →
    .brakePedal report ∈ (obdFeedback node).emit s (.process frame stamp) →
      report.raw = spec.interpret (spec.motorolaBits frame.data.toList)

/-- The rounded-up byte count of the signal ends exactly at the end of the payload, and its
first byte has room for fewer bits than its whole bytes leave over. -/
def SignalSpec.Spills (spec : SignalSpec) (dlc : BitVec 8) : Prop :=
  spec.startBit / 8 + (spec.bitLength + 7) / 8 = usableBytes dlc ∧
    spec.startBit % 8 < (spec.bitLength - 1) % 8

instance (spec : SignalSpec) (dlc : BitVec 8) : Decidable (spec.Spills dlc) :=
  inferInstanceAs (Decidable (_ ∧ _))

theorem inRange_of_fitsIn (h : spec.fitsIn dlc = true) : spec.InRange := by
  by_contra hout
  have hbad : spec.bitLength < 1 ∨ 64 < spec.bitLength ∨ spec.startBit < 0 ∨
      63 < spec.startBit := by
    by_contra hgood
    exact hout ⟨by omega, by omega, by omega, by omega⟩
  simp [SignalSpec.fitsIn, hbad] at h

theorem fitsIn_intel (hlittle : spec.littleEndian = true) (hrange : spec.InRange) :
    spec.fitsIn dlc = true ↔ spec.startBit + spec.bitLength ≤ usableBytes dlc * 8 := by
  obtain ⟨hstart, hstart', hlength, hlength'⟩ := hrange
  have hadmitted : ¬ (spec.bitLength < 1 ∨ 64 < spec.bitLength ∨ spec.startBit < 0 ∨
      63 < spec.startBit) := by omega
  simp [SignalSpec.fitsIn, hadmitted, hlittle]

theorem fitsIn_motorola (hbig : spec.littleEndian = false) (hrange : spec.InRange) :
    spec.fitsIn dlc = true ↔
      spec.startBit / 8 + (spec.bitLength + 7) / 8 ≤ usableBytes dlc := by
  obtain ⟨hstart, hstart', hlength, hlength'⟩ := hrange
  have hadmitted : ¬ (spec.bitLength < 1 ∨ 64 < spec.bitLength ∨ spec.startBit < 0 ∨
      63 < spec.startBit) := by omega
  simp only [SignalSpec.fitsIn, hadmitted, hbig, if_false, Bool.false_eq_true,
    decide_eq_true_eq, Int.tdiv_eq_ediv_of_nonneg hstart,
    Int.tdiv_eq_ediv_of_nonneg (show 0 ≤ spec.bitLength + 7 by omega)]
  omega

/-- The walk over `n` bits from position `p` stays inside when its last mirrored position
does. -/
theorem inside_of_mirror {p n : ℕ} (h : mirror p + n ≤ 8 * (usableBytes dlc).toNat) :
    ∀ i < n, 0 ≤ nextBit^[i] (p : Int) ∧ nextBit^[i] (p : Int) / 8 < usableBytes dlc := by
  intro i hi
  have hbyte : mirror (mirror p + i) / 8 = (mirror p + i) / 8 := mirror_div _
  rw [nextBit_iterate]
  constructor <;> omega

theorem mirror_le_of_inside {p n : ℕ} (hn : 0 < n)
    (h : nextBit^[n - 1] (p : Int) / 8 < usableBytes dlc) :
    mirror p + n ≤ 8 * (usableBytes dlc).toNat := by
  have hbyte : mirror (mirror p + (n - 1)) / 8 = (mirror p + (n - 1)) / 8 := mirror_div _
  rw [nextBit_iterate] at h
  omega

theorem readWhole_of_mirror {p : ℕ} (hbig : spec.littleEndian = false) (hrange : spec.InRange)
    (hstart : spec.startBit = p)
    (hfits : mirror p + spec.bitLength.toNat ≤ 8 * (usableBytes dlc).toNat) :
    spec.ReadWhole dlc := by
  have husable := toNat_usableBytes_le dlc
  have hraw : ∀ (frame : CanFrame) {raw : Int}, frame.canDlc = dlc →
      spec.decodeRaw frame.data.toList frame.canDlc = some raw →
      raw = spec.interpret (spec.motorolaBits frame.data.toList) := by
    intro frame raw hdlc h
    rw [hdlc, decodeRaw_motorola hbig hrange hstart (by simpa using husable) hfits] at h
    exact (Option.some.inj h).symm
  refine ⟨?_, ?_, ?_, ?_⟩
  · rw [hstart]
    exact inside_of_mirror hfits
  · intro data
    exact ⟨_, motorolaLoop_complete hstart (by simpa using husable) hfits⟩
  · rintro node s frame stamp report rfl hdlc h
    exact hraw frame hdlc (steeringAngle_decoded h).2
  · rintro node s frame stamp report rfl hdlc h
    exact hraw frame hdlc (brakePedal_decoded h).2

/-- What `fitsIn` accepts is read whole exactly when the signal does not spill over the end
of the payload. -/
theorem fitsIn_readWhole_iff_not_spills (spec : SignalSpec) (dlc : BitVec 8)
    (hbig : spec.littleEndian = false) (hrange : spec.InRange) :
    (spec.fitsIn dlc = true → spec.ReadWhole dlc) ↔ ¬ spec.Spills dlc := by
  obtain ⟨hstart, hstart', hlength, hlength'⟩ := id hrange
  obtain ⟨p, hp⟩ := Int.eq_ofNat_of_zero_le hstart
  have husable := toNat_usableBytes dlc
  rw [fitsIn_motorola hbig hrange, SignalSpec.Spills]
  constructor
  · rintro hsound ⟨hbytes, hlow⟩
    -- the last bit of the walk lies in the byte after the payload
    obtain ⟨-, hlast⟩ := (hsound hbytes.le).inside (spec.bitLength.toNat - 1) (by omega)
    rw [hp] at hlast
    have hmirror := mirror_le_of_inside (by omega) hlast
    rw [mirror] at hmirror
    omega
  · intro hspill hfits
    refine readWhole_of_mirror hbig hrange hp ?_
    rw [mirror]
    omega

/-- Sixteen bits from the top of byte 0 are two whole bytes. -/
theorem fitsIn_readWhole_iff_not_spills_top :
    SignalSpec.ReadWhole { littleEndian := false, startBit := 7, bitLength := 16 } 2 :=
  (fitsIn_readWhole_iff_not_spills { littleEndian := false, startBit := 7, bitLength := 16 } 2
    rfl (by decide)).mpr (by decide) (by decide)

/-- A one-byte signal that starts at bit 0 of byte 0 is accepted in a one-byte frame, and
seven of its bits are missing there. -/
theorem not_fitsIn_readWhole :
    ¬ ∀ (spec : SignalSpec) (dlc : BitVec 8), spec.littleEndian = false → spec.InRange →
      spec.fitsIn dlc = true → spec.ReadWhole dlc := by
  intro h
  have hwhole := h { littleEndian := false, startBit := 0, bitLength := 8 } 1 rfl (by decide)
    (by decide)
  exact absurd (hwhole.inside 1 (by decide)).2 (by decide)

end Roscco.ObdFeedback
