import Roscco.Apollo.Measurements
import Roscco.ObdFeedback.Admission

/-!
# Two readers of the steering angle

The frames that carry the steering angle have two readers: `ObdFeedback`, which extends the sign
of sixteen bits, and the Apollo bridge, which subtracts 65535 from counts above 60000. They agree
on the counts that are not negative, differ by one count on small negative ones, and by a whole
turn of the counter on large ones.

## Main results

* `steeringPercentage_eq` — what the bridge makes of a frame that the feedback reports on.
-/

namespace Roscco.Apollo

open Library OsccToRos ObdFeedback

variable {K : Type*} [Field K] [LinearOrder K]

/-- The steering angle of the Kia Soul, in the payload. -/
def angleSpec : SignalSpec := ObdFeedback.Config.default.steering.spec

/-- The first two bytes as one number, the first one low. -/
def angleCount (data : Vector (BitVec 8) 8) : ℕ := data[0].toNat + data[1].toNat * 256

theorem testBit_angleCount (data : Vector (BitVec 8) 8) (i : ℕ) :
    (angleCount data).testBit i =
      if i < 8 then data[0].getLsbD i else data[1].getLsbD (i - 8) := by
  have heq : angleCount data = 2 ^ 8 * data[1].toNat + data[0].toNat := by
    rw [angleCount]
    omega
  rw [heq, Nat.testBit_two_pow_mul_add _ data[0].isLt]
  simp only [BitVec.testBit_toNat]

theorem ofBits_angle (data : Vector (BitVec 8) 8) :
    ofBits (angleSpec.bits data.toList) = angleCount data := by
  have hlength : (angleSpec.bits data.toList).length = 16 := length_bits angleSpec _
  apply Nat.eq_of_testBit_eq
  intro i
  rw [testBit_angleCount]
  rcases Nat.lt_or_ge i 16 with hi | hi
  · rw [testBit_ofBits (by omega), getElem_bits_intel rfl (by omega) (by decide)]
    have hstart : angleSpec.startBit.toNat + i = i := Nat.zero_add i
    rw [hstart, bitAt_of_mem (by rw [Vector.length_toList]; omega)]
    split
    · have hbyte : i / 8 = 0 := by omega
      have hbit : i % 8 = i := by omega
      simp only [hbyte, hbit, Vector.getElem_toList]
    · have hbyte : i / 8 = 1 := by omega
      have hbit : i % 8 = i - 8 := by omega
      simp only [hbyte, hbit, Vector.getElem_toList]
  · have hlt : ofBits (angleSpec.bits data.toList) < 2 ^ i :=
      (ofBits_lt _).trans_le (Nat.pow_le_pow_right (by omega) (by omega))
    rw [Nat.testBit_lt_two_pow hlt, if_neg (by omega), BitVec.getLsbD_of_ge _ _ (by omega)]

theorem inside_angle {dlc : BitVec 8} (hdlc : 2 ≤ dlc) : angleSpec.Inside dlc :=
  (show angleSpec.Inside 2 by decide).mono (usableBytes_mono hdlc)

/-- What `decodeRaw` makes of the count. -/
theorem decodeRaw_angle (data : Vector (BitVec 8) 8) {dlc : BitVec 8} (hdlc : 2 ≤ dlc) :
    angleSpec.decodeRaw data.toList dlc = some ((angleCount data : Int).bmod (2 ^ 16)) := by
  have hrange : angleSpec.InRange := by decide
  rw [decodeRaw_eq hrange (usableBytes_le_length data) (inside_angle hdlc), SignalSpec.interpret,
    ofBits_angle]
  rfl

/-- The report on a frame with the steering angle. -/
theorem reports_angle {node : Node} (hspec : node.spec .steering = angleSpec)
    (s : ObdFeedback.State) {frame : CanFrame} (hframe : frame.canId = 0x2B0)
    (hdlc : 2 ≤ frame.canDlc) (stamp : Time) :
    reports .steering ((obdFeedback node).emit s (.process frame stamp)) =
      [node.report frame stamp ((angleCount frame.data : Int).bmod (2 ^ 16)) .steering] := by
  have hplain : plainId frame = 0x2B0 := by rw [plainId, hframe]; rfl
  have hselects : (node.spec .steering).Selects frame := by
    rw [hspec]
    exact ⟨⟨rfl, hplain⟩, fitsIn_of_inside (by decide) (inside_angle hdlc)⟩
  rw [(ObdFeedback.step_spec node s (.process frame stamp) .steering).1]
  simp only [ObdFeedback.Event.decoded, Node.decoded, if_pos hselects]
  simp only [hspec, decodeRaw_angle frame.data hdlc, Option.map_some, Option.toList_some]

/-- What the bridge makes of the count. -/
theorem reading_angle (vehicle : Vehicle) (ids : VehicleIds) (frame : CanFrameData)
    (hframe : frame.canId = ids.KIA_SOUL_OBD_STEERING_WHEEL_ANGLE_CAN_ID) :
    (reading vehicle ids frame .steeringAngle : K) =
      (if 60000 < (angleCount frame.data : K) then (angleCount frame.data : K) - 65535
        else angleCount frame.data) * STEERING_RATIO := by
  have hdistinct := ids.distinct
  simp only [List.nodup_cons, List.mem_cons, List.not_mem_nil, or_false, not_or] at hdistinct
  have hthrottle : frame.canId ≠ ids.KIA_SOUL_OBD_THROTTLE_PRESSURE_CAN_ID := by grind
  have hbrake : frame.canId ≠ ids.KIA_SOUL_OBD_BRAKE_PRESSURE_CAN_ID := by grind
  have hlow : frame.data[0]! = frame.data[0] := getElem!_pos frame.data 0 (by omega)
  have hhigh : frame.data[1]! = frame.data[1] := getElem!_pos frame.data 1 (by omega)
  simp only [reading, State.update, if_neg hthrottle, if_neg hbrake, if_pos hframe, State.get,
    angleCount, hlow, hhigh, Nat.cast_add, Nat.cast_mul, Nat.cast_ofNat]

/-! ## What sets them apart -/

/-- How many counts the bridge is above the feedback. -/
def miscount (raw : Int) : Int := if 0 ≤ raw then 0 else if raw < -5535 then 65536 else 1

theorem angleCount_lt (data : Vector (BitVec 8) 8) : angleCount data < 65536 := by
  have hlow := data[0].isLt
  have hhigh := data[1].isLt
  unfold angleCount
  omega

/-- The count that the bridge goes by is the raw value of the feedback and the miscount. -/
theorem folded_count (count : ℕ) (hcount : count < 65536) :
    (if 60000 < (count : Int) then (count : Int) - 65535 else count) =
      (count : Int).bmod (2 ^ 16) + miscount ((count : Int).bmod (2 ^ 16)) := by
  have hraw : (count : Int).bmod (2 ^ 16) =
      if (count : Int) < 32768 then (count : Int) else (count : Int) - 65536 := by
    rw [Int.bmod_def]
    omega
  rw [hraw, miscount]
  split_ifs <;> omega

variable [IsStrictOrderedRing K]

/-- The chassis report on a frame with the steering angle. -/
theorem steeringPercentage_canFrame (vehicle : Vehicle) (ids : VehicleIds) (s : State K)
    (frame : CanFrameData)
    (hframe : frame.canId = ids.KIA_SOUL_OBD_STEERING_WHEEL_ANGLE_CAN_ID) :
    let raw := (angleCount frame.data : Int).bmod (2 ^ 16)
    (canFrameCallback vehicle ids s frame).2.steeringPercentage =
      (raw + miscount raw : Int) * STEERING_RATIO := by
  intro raw
  have hcount := folded_count (angleCount frame.data) (angleCount_lt frame.data)
  calc (canFrameCallback vehicle ids s frame).2.steeringPercentage
      = reading vehicle ids frame .steeringAngle :=
        (get_update vehicle ids s frame .steeringAngle).trans (if_pos hframe)
    _ = _ := by
        rw [reading_angle vehicle ids frame hframe, ← hcount]
        push_cast
        simp only [Nat.ofNat_lt_cast]

/-- The miscount shows in the percentage. -/
theorem percentage_eq_iff (raw : Int) :
    ((raw + miscount raw : Int) : K) * STEERING_RATIO = raw * STEERING_RATIO ↔ 0 ≤ raw := by
  have hratio : ( STEERING_RATIO : K) ≠ 0 := by
    unfold STEERING_RATIO
    norm_num
  rw [mul_left_inj' hratio, Int.cast_inj, miscount]
  split_ifs <;> omega

omit [IsStrictOrderedRing K] in
theorem emit_canFrame (vehicle : Vehicle) (ids : VehicleIds) (s : State K) (frame : CanFrameData) :
    (rosccoApollo vehicle ids).emit s (.canFrame frame) =
      [.chassis (canFrameCallback vehicle ids s frame).2] := rfl

/-- Whenever a frame with the steering angle of the Kia Soul passes both readers, the feedback
reports its angle, and the bridge publishes the same count as long as it is not negative. A
negative count comes out one too high, and below -5535 a whole turn too high. -/
theorem steeringPercentage_eq (vehicle : Vehicle) (ids : VehicleIds)
    (hid : ids.KIA_SOUL_OBD_STEERING_WHEEL_ANGLE_CAN_ID = 0x2B0) (es : List (Event K))
    (fs : List ObdFeedback.Event) (frame : CanFrame) (hframe : frame.canId = 0x2B0)
    (hdlc : 2 ≤ frame.canDlc) (stamp : Time) :
    let node := (Node.construct .default).1
    ∃ (report : SteeringAngleReport) (chassis : Chassis K),
      reports .steering ((obdFeedback node).emit ((obdFeedback node).state fs)
        (.process frame stamp)) = [report] ∧
      (rosccoApollo vehicle ids).emit ((rosccoApollo vehicle ids).state es)
        (.canFrame (fillCanFrameData frame)) = [.chassis chassis] ∧
      report.angle = report.raw / 10 ∧
      chassis.steeringPercentage = (report.raw + miscount report.raw : Int) * STEERING_RATIO ∧
      (chassis.steeringPercentage = report.raw * STEERING_RATIO ↔ 0 ≤ report.raw) := by
  intro node
  have hspec : node.spec .steering = angleSpec := by decide +kernel
  have hscale : node.steering.scale = 1 / 10 ∧ node.steering.offset = 0 := ⟨rfl, rfl⟩
  have hreports := reports_angle hspec ((obdFeedback node).state fs) hframe hdlc stamp
  have hdata : (fillCanFrameData frame).data = frame.data := Vector.ofFn_getElem
  have hpercentage := steeringPercentage_canFrame vehicle ids ((rosccoApollo vehicle ids).state es)
    (fillCanFrameData frame) (hframe.trans hid.symm)
  rw [hdata] at hpercentage
  generalize (angleCount frame.data : Int).bmod (2 ^ 16) = raw at hreports hpercentage
  clear_value node
  refine ⟨_, _, hreports, emit_canFrame vehicle ids _ _, ?_, hpercentage, ?_⟩
  · calc SteeringAngleReport.angle (node.report frame stamp raw .steering)
        = raw * node.steering.scale + node.steering.offset := rfl
      _ = raw / 10 := by
        rw [hscale.1, hscale.2]
        ring
  · rw [hpercentage]
    exact percentage_eq_iff raw

/-- One tenth of a degree to the other side: the feedback reports -0.1, the bridge nothing. -/
theorem steeringPercentage_eq_small :
    let frame : CanFrame := ⟨0x2B0, 8, #v[0xFF, 0xFF, 0, 0, 0, 0, 0, 0]⟩
    ∃ (report : SteeringAngleReport) (chassis : Chassis ℚ),
      reports .steering ((obdFeedback (Node.construct .default).1).emit {} (.process frame 1)) =
        [report] ∧
      (rosccoApollo .kiaSoulEv someIds).emit ⟨0, 0, 0, 0⟩ (.canFrame (fillCanFrameData frame)) =
        [.chassis chassis] ∧
      report.angle = report.raw / 10 ∧
      chassis.steeringPercentage = (report.raw + miscount report.raw : Int) * STEERING_RATIO ∧
      (chassis.steeringPercentage = report.raw * STEERING_RATIO ↔ 0 ≤ report.raw) := by
  intro frame
  exact steeringPercentage_eq .kiaSoulEv someIds (by decide) [] [] frame rfl (by decide) 1

end Roscco.Apollo
