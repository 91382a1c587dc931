import Mathlib.Data.Fintype.Basic
import Roscco.ObdFeedback.Basic
import Roscco.SignalQueue.Basic

/-!
# OSCC reports and their ROS messages

The five kinds of reports, one topic each, and the field-by-field copies that turn a
stamped report into a message.
-/

namespace Roscco.OsccToRos

open ObdFeedback (CanFrame)

inductive Topic where
  | brake
  | steering
  | throttle
  | fault
  | obd
  deriving DecidableEq, Repr

instance : Fintype Topic where
  elems := {.brake, .steering, .throttle, .fault, .obd}
  complete topic := by cases topic <;> decide

/-! ## The OSCC side -/

/-- The brake, steering and throttle reports have the same fields. -/
structure OsccReport where
  magic : Vector (BitVec 8) 2
  enabled : BitVec 8
  operatorOverride : BitVec 8
  dtcs : BitVec 8
  reserved : Vector (BitVec 8) 3
  deriving DecidableEq, Repr, Inhabited

structure OsccFaultReport where
  magic : Vector (BitVec 8) 2
  faultOriginId : BitVec 32
  dtcs : BitVec 8
  reserved : BitVec 8
  deriving DecidableEq, Repr, Inhabited

/-- What a callback of this kind receives. -/
def Report : Topic → Type
  | .brake | .steering | .throttle => OsccReport
  | .fault => OsccFaultReport
  | .obd => CanFrame

instance : ∀ topic, Inhabited (Report topic)
  | .brake | .steering | .throttle => inferInstanceAs (Inhabited OsccReport)
  | .fault => inferInstanceAs (Inhabited OsccFaultReport)
  | .obd => inferInstanceAs (Inhabited CanFrame)

/-- The template argument `N` of the queue of this kind. -/
def depth : Topic → ℕ
  | .brake | .steering | .throttle | .fault => 64
  | .obd => 256

/-! ## The ROS side -/

/-- `builtin_interfaces/Time`. -/
structure Stamp where
  sec : Int
  nanosec : Int
  deriving DecidableEq, Repr

/-- `BrakeReportData`, `SteeringReportData` and `ThrottleReportData`. -/
structure ReportData where
  magic : Vector (BitVec 8) 2
  enabled : BitVec 8
  operatorOverride : BitVec 8
  dtcs : BitVec 8
  reserved : Vector (BitVec 8) 3
  deriving DecidableEq, Repr

structure FaultReportData where
  magic : Vector (BitVec 8) 2
  faultOriginId : BitVec 32
  dtcs : BitVec 8
  reserved : BitVec 8
  deriving DecidableEq, Repr

structure CanFrameData where
  canId : BitVec 32
  canDlc : BitVec 8
  data : Vector (BitVec 8) 8
  deriving DecidableEq, Repr

def MessageData : Topic → Type
  | .brake | .steering | .throttle => ReportData
  | .fault => FaultReportData
  | .obd => CanFrameData

/-- A message on a topic; the header is its stamp. -/
structure Message (topic : Topic) where
  stamp : Stamp
  data : MessageData topic

/-! ## The copies -/

/-- The time point of a clock reading, for the non-negative seconds that `rclcpp::Time`
accepts: the seconds are cast to 32 bits, signed, and the nanoseconds to 32 bits, unsigned. -/
def toRosTime (ts : Timespec) : Time :=
  ts.tvSec.bmod (2 ^ 32) * 1000000000 + ts.tvNsec % 2 ^ 32

/-- The conversion of a time point to a message stamp. -/
def Stamp.ofTime (time : Time) : Stamp := ⟨time / 1000000000, time % 1000000000⟩

/-- The conversion of a message stamp to a time point. -/
def Stamp.toTime (stamp : Stamp) : Time := stamp.sec * 1000000000 + stamp.nanosec

def fillReportData (report : OsccReport) : ReportData where
  magic := #v[report.magic[0], report.magic[1]]
  enabled := report.enabled
  operatorOverride := report.operatorOverride
  dtcs := report.dtcs
  reserved := #v[report.reserved[0], report.reserved[1], report.reserved[2]]

def fillFaultReportData (report : OsccFaultReport) : FaultReportData where
  magic := #v[report.magic[0], report.magic[1]]
  faultOriginId := report.faultOriginId
  dtcs := report.dtcs
  reserved := report.reserved

/-- The copy of a frame; its loop runs over the bytes of the message. -/
def fillCanFrameData (frame : CanFrame) : CanFrameData where
  canId := frame.canId
  canDlc := frame.canDlc
  data := Vector.ofFn fun i => frame.data[i]

def fillData : (topic : Topic) → Report topic → MessageData topic
  | .brake, report | .steering, report | .throttle, report => fillReportData report
  | .fault, report => fillFaultReportData report
  | .obd, report => fillCanFrameData report

/-- The message that `drain` builds for a popped item. -/
def toMessage (topic : Topic) (item : Stamped (Report topic)) : Message topic :=
  ⟨.ofTime (toRosTime item.stamp), fillData topic item.data⟩

/-! ## What a message carries -/

/-- The message has every payload field of the report. -/
def SameFields : (topic : Topic) → Report topic → MessageData topic → Prop
  | .brake, (r : OsccReport), (d : ReportData) | .steering, (r : OsccReport), (d : ReportData)
  | .throttle, (r : OsccReport), (d : ReportData) =>
    d.magic = r.magic ∧ d.enabled = r.enabled ∧ d.operatorOverride = r.operatorOverride ∧
      d.dtcs = r.dtcs ∧ d.reserved = r.reserved
  | .fault, (r : OsccFaultReport), (d : FaultReportData) =>
    d.magic = r.magic ∧ d.faultOriginId = r.faultOriginId ∧ d.dtcs = r.dtcs ∧
      d.reserved = r.reserved
  | .obd, (r : CanFrame), (d : CanFrameData) =>
    d.canId = r.canId ∧ d.canDlc = r.canDlc ∧ d.data = r.data

/-- The message has every payload field of the report and the time of its arrival. -/
structure Carries (topic : Topic) (item : Stamped (Report topic)) (message : Message topic) :
    Prop where
  fields : SameFields topic item.data message.data
  sec : message.stamp.sec = item.stamp.tvSec
  nanosec : message.stamp.nanosec = item.stamp.tvNsec

/-- What the clock of a signal handler reads until 2038. -/
def ClockInRange (ts : Timespec) : Prop :=
  0 ≤ ts.tvSec ∧ ts.tvSec < 2 ^ 31 ∧ 0 ≤ ts.tvNsec ∧ ts.tvNsec < 1000000000

instance (ts : Timespec) : Decidable (ClockInRange ts) :=
  inferInstanceAs (Decidable (_ ∧ _ ∧ _ ∧ _))

theorem sameFields_fillData (topic : Topic) (report : Report topic) :
    SameFields topic report (fillData topic report) := by
  have hpair (v : Vector (BitVec 8) 2) : #v[v[0], v[1]] = v := by
    ext i hi
    match i with
    | 0 | 1 => rfl
  have htriple (v : Vector (BitVec 8) 3) : #v[v[0], v[1], v[2]] = v := by
    ext i hi
    match i with
    | 0 | 1 | 2 => rfl
  cases topic with
  | brake | steering | throttle => exact ⟨hpair _, rfl, rfl, rfl, htriple _⟩
  | fault => exact ⟨hpair _, rfl, rfl, rfl⟩
  | obd => exact ⟨rfl, rfl, Vector.ofFn_getElem⟩

/-- For a clock reading in range the message carries the whole item. -/
theorem carries_toMessage (topic : Topic) (item : Stamped (Report topic))
    (hclock : ClockInRange item.stamp) : Carries topic item (toMessage topic item) := by
  obtain ⟨hsec, hsec', hnsec, hnsec'⟩ := hclock
  have htime : toRosTime item.stamp = item.stamp.tvSec * 1000000000 + item.stamp.tvNsec := by
    rw [toRosTime, Int.bmod_eq_of_le (by omega) (by omega), Int.emod_eq_of_lt hnsec (by omega)]
  refine ⟨sameFields_fillData topic item.data, ?_, ?_⟩
  · simp only [toMessage, Stamp.ofTime, htime]
    omega
  · simp only [toMessage, Stamp.ofTime, htime]
    omega

end Roscco.OsccToRos
