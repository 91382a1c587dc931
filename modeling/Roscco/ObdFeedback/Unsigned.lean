import Mathlib.Tactic.GCongr
import Roscco.ObdFeedback.Admission

/-!
# The magnitude of unsigned signals

An unsigned signal is assembled in an unsigned word and returned as a signed one. Up to 63
bits nothing is lost. The parameters also admit 64 bits, and then the top bit of the signal
turns up as the sign of the published raw value.
-/

namespace Roscco.ObdFeedback

open Library

variable {node : Node} {signal : Signal} {s : State} {frame : CanFrame} {stamp : Time}
  {spec : SignalSpec} {dlc : BitVec 8}

/-! ## Frames that hold a signal -/

/-- A frame with the identifier of the enabled signal and all the bits of the signal. -/
structure Holds (node : Node) (signal : Signal) (frame : CanFrame) : Prop where
  identified : (node.spec signal).enabled = true ∧ plainId frame = (node.spec signal).canId
  inside : (node.spec signal).Inside frame.canDlc

instance (node : Node) (signal : Signal) (frame : CanFrame) : Decidable (Holds node signal frame) :=
  decidable_of_iff ((_ ∧ _) ∧ _) ⟨fun h => ⟨h.1, h.2⟩, fun h => ⟨h.1, h.2⟩⟩

/-- The unsigned number that the bits of the signal spell in a frame. -/
def magnitude (node : Node) (signal : Signal) (frame : CanFrame) : ℕ :=
  ofBits ((node.spec signal).bits frame.data.toList)

/-- The report on a frame that holds the signal. -/
theorem reports_of_holds (hrange : (node.spec signal).InRange) (h : Holds node signal frame)
    (s : State) (stamp : Time) :
    reports signal ((obdFeedback node).emit s (.process frame stamp)) =
      [node.report frame stamp
        ((node.spec signal).interpret ((node.spec signal).bits frame.data.toList)) signal] := by
  have hselects : (node.spec signal).Selects frame :=
    ⟨h.identified, fitsIn_of_inside hrange h.inside⟩
  have hraw := decodeRaw_eq hrange (usableBytes_le_length frame.data) h.inside
  rw [(step_spec node s (.process frame stamp) signal).1, Event.decoded, Node.decoded,
    if_pos hselects, hraw]
  rfl

@[simp] theorem raw_report (raw : Int) : (node.report frame stamp raw signal).raw = raw := by
  cases signal <;> rfl

@[simp] theorem scaled_report (raw : Int) : (node.report frame stamp raw signal).scaled =
    raw * (node.spec signal).scale + (node.spec signal).offset := by
  cases signal <;> rfl

/-- The scaled value of a report is computed from its raw value. -/
theorem scaled_of_reports (hrange : (node.spec signal).InRange) (h : Holds node signal frame)
    {r : SignalReport signal}
    (hr : reports signal ((obdFeedback node).emit s (.process frame stamp)) = [r]) :
    r.scaled = r.raw * (node.spec signal).scale + (node.spec signal).offset := by
  rw [reports_of_holds hrange h] at hr
  obtain rfl := List.singleton_inj.mp hr
  rw [scaled_report, raw_report]

/-! ## The top bit -/

/-- The signal is narrower than the signed result, or its top bit is zero in the payload. -/
def SignalSpec.TopClear (spec : SignalSpec) (data : List (BitVec 8)) : Prop :=
  spec.bitLength ≤ 63 ∨ (spec.bits data).head? = some false

instance (spec : SignalSpec) (data : List (BitVec 8)) : Decidable (spec.TopClear data) :=
  inferInstanceAs (Decidable (_ ∨ _))

theorem topClear_iff (hrange : spec.InRange) (data : List (BitVec 8)) :
    spec.TopClear data ↔ ofBits (spec.bits data) < 2 ^ 63 := by
  obtain ⟨-, -, hone, hle⟩ := hrange
  have hlength := length_bits spec data
  rcases hle.lt_or_eq with hshort | hfull
  · have hlt : ofBits (spec.bits data) < 2 ^ 63 :=
      (ofBits_lt _).trans_le (Nat.pow_le_pow_right (by omega) (by omega))
    simp only [hlt, iff_true]
    exact .inl (by omega)
  · cases hbits : spec.bits data with
    | nil =>
      rw [hbits, List.length_nil] at hlength
      omega
    | cons top rest =>
      rw [hbits, List.length_cons] at hlength
      have hrest : rest.length = 63 := by omega
      have hlt : ofBits rest < 2 ^ 63 := hrest ▸ ofBits_lt rest
      have hwide : ¬ spec.bitLength ≤ 63 := by omega
      rw [SignalSpec.TopClear, hbits, ofBits_cons, hrest]
      cases top with
      | false => simpa [hwide] using hlt
      | true => simp [hwide]

/-- The bits of an unsigned signal are read as the number they spell exactly when it fits
the signed result. -/
theorem interpret_eq_ofBits_iff (hsigned : spec.isSigned = false) (bits : List Bool) :
    spec.interpret bits = ofBits bits ↔ ofBits bits < 2 ^ 63 := by
  refine ⟨fun h => ?_, interpret_unsigned hsigned⟩
  have hupper : spec.interpret bits < 2 ^ 63 := by
    rw [SignalSpec.interpret, hsigned, if_neg (by simp)]
    have := Int.bmod_lt (x := ofBits bits) (m := 2 ^ 64) (by decide)
    omega
  omega

/-! ## Published magnitudes -/

/-- The report on a frame has the number that the bits of the signal spell as its raw value;
as a natural number it is not negative. -/
def KeepsMagnitude (node : Node) (signal : Signal) (s : State) (frame : CanFrame)
    (stamp : Time) : Prop :=
  ∃ r, reports signal ((obdFeedback node).emit s (.process frame stamp)) = [r] ∧
    r.raw = magnitude node signal frame

/-- Two frames keep their magnitudes, and the larger one has the larger scaled value. -/
structure KeepsOrder (node : Node) (signal : Signal) (s t : State) (frame frame' : CanFrame)
    (stamp stamp' : Time) : Prop where
  left : KeepsMagnitude node signal s frame stamp
  right : KeepsMagnitude node signal t frame' stamp'
  monotone : 0 < (node.spec signal).scale →
    magnitude node signal frame ≤ magnitude node signal frame' →
    ∀ r ∈ reports signal ((obdFeedback node).emit s (.process frame stamp)),
    ∀ r' ∈ reports signal ((obdFeedback node).emit t (.process frame' stamp')),
      r.scaled ≤ r'.scaled

theorem keepsMagnitude_iff (hsigned : (node.spec signal).isSigned = false)
    (hrange : (node.spec signal).InRange) (h : Holds node signal frame) :
    KeepsMagnitude node signal s frame stamp ↔
      (node.spec signal).TopClear frame.data.toList := by
  rw [topClear_iff hrange, ← interpret_eq_ofBits_iff hsigned, KeepsMagnitude,
    reports_of_holds hrange h]
  simp [magnitude]

/-- Published unsigned values keep their magnitude, and their order, exactly while the top
bit of the signal is not the sign bit of the result. -/
theorem unsigned_keeps_order_iff (node : Node) (signal : Signal)
    (hsigned : (node.spec signal).isSigned = false) (hrange : (node.spec signal).InRange)
    (s t : State) (frame frame' : CanFrame) (stamp stamp' : Time)
    (h : Holds node signal frame) (h' : Holds node signal frame') :
    KeepsOrder node signal s t frame frame' stamp stamp' ↔
      (node.spec signal).TopClear frame.data.toList ∧
        (node.spec signal).TopClear frame'.data.toList := by
  have hleft : KeepsMagnitude node signal s frame stamp ↔ _ := keepsMagnitude_iff hsigned hrange h
  have hright : KeepsMagnitude node signal t frame' stamp' ↔ _ :=
    keepsMagnitude_iff hsigned hrange h'
  constructor
  · rintro ⟨hkeeps, hkeeps', -⟩
    exact ⟨hleft.mp hkeeps, hright.mp hkeeps'⟩
  · rintro ⟨hclear, hclear'⟩
    obtain ⟨r, hr, hraw⟩ := hleft.mpr hclear
    obtain ⟨r', hr', hraw'⟩ := hright.mpr hclear'
    refine ⟨⟨r, hr, hraw⟩, ⟨r', hr', hraw'⟩, ?_⟩
    intro hscale hle
    rw [hr, hr']
    simp only [List.mem_singleton, forall_eq]
    -- both scaled values are the same increasing function of the raw value
    have hscaled := scaled_of_reports hrange h hr
    have hscaled' := scaled_of_reports hrange h' hr'
    rw [hscaled, hscaled', hraw, hraw']
    gcongr

/-- The default steering signal, read as an unsigned number of the given width. -/
def unsignedSteering (bitLength : DeclaredInt 1 64) : Node :=
  (Node.construct { Config.default with
    steering := { Config.default.steering with bitLength, isSigned := false } }).1

/-- Sixteen unsigned bits: 1 and 65535 keep their order. -/
theorem unsigned_keeps_order_iff_sixteen :
    KeepsOrder (unsignedSteering ⟨16, by decide⟩) .steering {} {}
      ⟨0x2B0, 8, #v[1, 0, 0, 0, 0, 0, 0, 0]⟩ ⟨0x2B0, 2, #v[255, 255, 0, 0, 0, 0, 0, 0]⟩
      1000000000 1010000000 :=
  (unsigned_keeps_order_iff (unsignedSteering ⟨16, by decide⟩) .steering rfl (by decide) {} {}
    ⟨0x2B0, 8, #v[1, 0, 0, 0, 0, 0, 0, 0]⟩ ⟨0x2B0, 2, #v[255, 255, 0, 0, 0, 0, 0, 0]⟩
    1000000000 1010000000 (by decide) (by decide)).mpr ⟨by decide, by decide⟩

/-- Sixty-four unsigned ones are published as minus one. -/
theorem not_keepsMagnitude : ¬ ∀ (node : Node) signal s frame stamp,
    (node.spec signal).isSigned = false → (node.spec signal).InRange →
      Holds node signal frame → KeepsMagnitude node signal s frame stamp := by
  intro h
  obtain ⟨r, hr, hraw⟩ := h (unsignedSteering ⟨64, by decide⟩) .steering {}
    ⟨0x2B0, 8, Vector.replicate 8 255⟩ 1000000000 rfl (by decide) (by decide)
  have hpublished : (reports .steering ((obdFeedback (unsignedSteering ⟨64, by decide⟩)).emit {}
      (.process ⟨0x2B0, 8, Vector.replicate 8 255⟩ 1000000000))).map SignalReport.raw = [-1] := by
    decide +kernel
  rw [hr, List.map_singleton, hraw] at hpublished
  have hnonneg := Int.natCast_nonneg (magnitude (unsignedSteering ⟨64, by decide⟩) .steering
    ⟨0x2B0, 8, Vector.replicate 8 255⟩)
  have hminus := (List.singleton_inj.mp hpublished)
  omega

end Roscco.ObdFeedback
