import Roscco.Library.Logged
import Roscco.ObdFeedback.Fit

/-!
# The operations of the decoder

The decoder with total operations that are logged: every shift, every payload byte read and
every value of the Motorola position counter. Stopped at the first undefined operation it is the
partial decoder; on what the constructor admits there is none.

## Main results

* `run?_process` — the logged `process` is `process`.
* `process_operations_safe` — what `process` executes on any frame.
-/

namespace Roscco.ObdFeedback

open Library

/-- What the decoder executes. -/
inductive Operation where
  /-- A shift of a word of `width` bits. -/
  | shift (width : ℕ) (amount : Int)
  /-- The read of `data[index]`. -/
  | read (index : Int)
  /-- The Motorola position counter takes a value. -/
  | position (bit : Int)
  deriving DecidableEq, Repr

/-- What C++ defines on a payload array of the given length. -/
def Operation.Defined (length : ℕ) : Operation → Prop
  | .shift width amount => 0 ≤ amount ∧ amount < width
  | .read index => 0 ≤ index ∧ index < length
  | .position _ => True

/-- What the decoder keeps to on a frame with the given usable bytes. -/
def Operation.Safe (usable : Int) : Operation → Prop
  | .shift width amount => 0 ≤ amount ∧ amount < width ∧ amount ≤ 63
  | .read index => 0 ≤ index ∧ index < usable
  | .position bit => 0 ≤ bit

instance (length : ℕ) : DecidablePred (Operation.Defined length)
  | .shift _ _ => inferInstanceAs (Decidable (_ ∧ _))
  | .read _ => inferInstanceAs (Decidable (_ ∧ _))
  | .position _ => .isTrue trivial

/-! ## The logged decoder -/

/-- Every operation is executed and logged, with some result where C++ defines none. -/
def loggedDecoder : Decoder (Logged Operation) where
  readByte data index := .exec (.read index) (data.getD index.toNat 0)
  shiftLeft {w} value amount := .exec (.shift w amount) (value <<< amount.toNat)
  shiftRight {w} value amount := .exec (.shift w amount) (value >>> amount.toNat)
  position bit := .exec (.position bit) bit

/-- `process`, with the operations that it executes. -/
abbrev logProcess (node : Node) (s : State) (frame : CanFrame) (stamp : Time) :
    Logged Operation (State × List Output) :=
  loggedDecoder.process node s frame stamp

/-! ## The log is that of the decoder -/

@[simp] theorem run?_readByte (data : List (BitVec 8)) (index : Int) :
    (loggedDecoder.readByte data index).run? (Operation.Defined data.length) =
      readByte data index := by
  rw [loggedDecoder, Logged.run?_exec, readByte]
  by_cases h : 0 ≤ index
  · by_cases hlt : index < data.length
    · rw [if_pos ⟨h, hlt⟩, if_pos h, List.getD_eq_getElem?_getD,
        List.getElem?_eq_getElem (by omega), Option.getD_some]
    · rw [if_neg fun hdefined => hlt hdefined.2, if_pos h, List.getElem?_eq_none (by omega)]
  · rw [if_neg fun hdefined => h hdefined.1, if_neg h]

@[simp] theorem run?_shiftLeft {w : ℕ} (length : ℕ) (value : BitVec w) (amount : Int) :
    (loggedDecoder.shiftLeft value amount).run? (Operation.Defined length) =
      shiftLeft value amount :=
  Logged.run?_exec _ _ _

@[simp] theorem run?_shiftRight {w : ℕ} (length : ℕ) (value : BitVec w) (amount : Int) :
    (loggedDecoder.shiftRight value amount).run? (Operation.Defined length) =
      shiftRight value amount :=
  Logged.run?_exec _ _ _

@[simp] theorem run?_position (length : ℕ) (bit : Int) :
    (loggedDecoder.position bit).run? (Operation.Defined length) = some bit :=
  Logged.run?_exec _ _ _

@[simp] theorem run?_packBytes (data : List (BitVec 8)) (count : ℕ) :
    (loggedDecoder.packBytes data count).run? (Operation.Defined data.length) =
      partialDecoder.packBytes data count := by
  simp [Decoder.packBytes, Logged.run?_foldlM]

@[simp] theorem run?_motorolaLoop (data : List (BitVec 8)) (usable : Int) (remaining : ℕ)
    (bit : Int) (value : BitVec 64) :
    (loggedDecoder.motorolaLoop data usable remaining bit value).run?
        (Operation.Defined data.length) =
      partialDecoder.motorolaLoop data usable remaining bit value := by
  induction remaining generalizing bit value with
  | zero => exact Logged.run?_pure _ _
  | succ remaining ih => simp [Decoder.motorolaLoop, ih]

@[simp] theorem run?_extendSign (length : ℕ) (value : BitVec 64) (bitLength : Int) :
    (loggedDecoder.extendSign value bitLength).run? (Operation.Defined length) =
      partialDecoder.extendSign value bitLength := by
  simp [Decoder.extendSign]

@[simp] theorem run?_decodeRaw (spec : SignalSpec) (data : List (BitVec 8)) (dlc : BitVec 8) :
    (loggedDecoder.decodeRaw spec data dlc).run? (Operation.Defined data.length) =
      spec.decodeRaw data dlc := by
  simp [Decoder.decodeRaw]

theorem run?_processSignal (signal : Signal) (spec : SignalSpec) (s : State)
    (frame : CanFrame) (publish : Int → State × List Output) :
    (loggedDecoder.processSignal signal spec s frame publish).run? (Operation.Defined 8) =
      processSignal signal spec s frame publish := by
  have hraw := run?_decodeRaw spec frame.data.toList frame.canDlc
  rw [Vector.length_toList] at hraw
  simp [Decoder.processSignal, hraw]

/-- Stopped at its first undefined operation, the logged `process` is `process`. -/
theorem run?_process (node : Node) (s : State) (frame : CanFrame) (stamp : Time) :
    (logProcess node s frame stamp).run? (Operation.Defined 8) = process node s frame stamp := by
  simp [Decoder.process, run?_processSignal]

/-! ## Every operation is safe -/

section Safe

variable {usable : Int}

@[simp] theorem all_readByte {data : List (BitVec 8)} {index : Int} :
    (loggedDecoder.readByte data index).All (Operation.Safe usable) ↔ 0 ≤ index ∧ index < usable :=
  Logged.all_exec

@[simp] theorem all_shiftLeft {w : ℕ} {value : BitVec w} {amount : Int} :
    (loggedDecoder.shiftLeft value amount).All (Operation.Safe usable) ↔
      0 ≤ amount ∧ amount < w ∧ amount ≤ 63 :=
  Logged.all_exec

@[simp] theorem all_shiftRight {w : ℕ} {value : BitVec w} {amount : Int} :
    (loggedDecoder.shiftRight value amount).All (Operation.Safe usable) ↔
      0 ≤ amount ∧ amount < w ∧ amount ≤ 63 :=
  Logged.all_exec

@[simp] theorem all_position {bit : Int} :
    (loggedDecoder.position bit).All (Operation.Safe usable) ↔ 0 ≤ bit :=
  Logged.all_exec

theorem nextBit_nonneg {bit : Int} (h : 0 ≤ bit) : 0 ≤ nextBit bit := by
  rw [nextBit, Int.tmod_eq_emod_of_nonneg h]
  split <;> omega

/-- The bytes of the Intel loop are the usable ones. -/
theorem all_packBytes (data : List (BitVec 8)) {count : ℕ} (hcount : count ≤ usable)
    (hword : count ≤ 8) : (loggedDecoder.packBytes data count).All (Operation.Safe usable) := by
  refine Logged.all_foldlM (fun packed i hi => ?_) _
  obtain ⟨j, hj, rfl⟩ : ∃ j < count, i = (j : Int) := by simpa using hi
  simp only [Logged.all_bind, all_readByte, all_shiftLeft, Logged.all_pure, and_true]
  omega

/-- The Motorola loop checks its byte before it reads it, and its counter stays at or above
zero, also when the loop is left early. -/
theorem all_motorolaLoop (data : List (BitVec 8)) (remaining : ℕ) {bit : Int}
    (hbit : 0 ≤ bit) (value : BitVec 64) :
    (loggedDecoder.motorolaLoop data usable remaining bit value).All (Operation.Safe usable) := by
  induction remaining generalizing bit value with
  | zero => exact Logged.all_pure _
  | succ remaining ih =>
    have hmod : 0 ≤ bit.tmod 8 ∧ bit.tmod 8 < 8 := by
      rw [Int.tmod_eq_emod_of_nonneg hbit]
      omega
    simp only [Decoder.motorolaLoop]
    by_cases hout : usable ≤ bit.tdiv 8 ∨ bit.tdiv 8 < 0
    · rw [if_pos hout]
      exact Logged.all_pure _
    · rw [if_neg hout]
      simp only [Logged.all_bind, all_readByte, all_shiftLeft, all_shiftRight, all_position]
      have hstep := nextBit_nonneg hbit
      refine ⟨?_, ?_, ?_, hstep, ih hstep _⟩ <;> omega

theorem all_extendSign (value : BitVec 64) {bitLength : Int} (hone : 1 ≤ bitLength)
    (hlt : bitLength < 64) :
    (loggedDecoder.extendSign value bitLength).All (Operation.Safe usable) := by
  simp only [Decoder.extendSign, Logged.all_bind, all_shiftLeft]
  refine ⟨by omega, ?_⟩
  split
  · simp only [Logged.all_bind, all_shiftLeft, Logged.all_pure, and_true]
    omega
  · exact Logged.all_pure _

/-- Decoding a signal whose parameters are in range. -/
theorem all_decodeRaw {spec : SignalSpec} (hrange : spec.InRange) (data : List (BitVec 8))
    (dlc : BitVec 8) :
    (loggedDecoder.decodeRaw spec data dlc).All (Operation.Safe (usableBytes dlc)) := by
  obtain ⟨hstart, hstart', hone, hlength⟩ := hrange
  have husable := toNat_usableBytes dlc
  have hword := toNat_usableBytes_le dlc
  have hsign (value : BitVec 64) : (if spec.isSigned = true ∧ spec.bitLength < 64 then do
        let value ← loggedDecoder.extendSign value spec.bitLength
        pure value.toInt
      else do
        let value ← pure value
        pure value.toInt).All (Operation.Safe (usableBytes dlc)) := by
    split
    · next hsigned =>
      exact Logged.all_bind.mpr ⟨all_extendSign _ hone hsigned.2, Logged.all_pure _⟩
    · exact Logged.all_pure _
  simp only [Decoder.decodeRaw]
  split
  · refine Logged.all_bind.mpr ⟨all_packBytes data husable.le hword, ?_⟩
    split
    · simp only [Logged.all_bind, all_shiftRight]
      exact ⟨Logged.all_pure _, by omega, Logged.all_pure _, hsign _⟩
    · simp only [Logged.all_bind, all_shiftRight, Logged.all_map, all_shiftLeft]
      exact ⟨by omega, by omega, Logged.all_pure _, hsign _⟩
  · simp only [Logged.all_bind, all_position, Logged.all_map]
    exact ⟨hstart, all_motorolaLoop data _ hstart 0, hsign _⟩

theorem all_processSignal {signal : Signal} {spec : SignalSpec} (hrange : spec.InRange)
    {s : State} {frame : CanFrame} {publish : Int → State × List Output} :
    (loggedDecoder.processSignal signal spec s frame publish).All
      (Operation.Safe (usableBytes frame.canDlc)) := by
  simp only [Decoder.processSignal]
  split
  · split
    · exact Logged.all_map.mpr (all_decodeRaw hrange _ _)
    · exact Logged.all_pure _
  · exact Logged.all_pure _

/-- Both halves of `process` keep to what is safe on the frame. -/
theorem all_process {node : Node} (hsteering : node.steering.InRange)
    (hbrake : node.brakePedal.InRange) (s : State) (frame : CanFrame) (stamp : Time) :
    (logProcess node s frame stamp).All (Operation.Safe (usableBytes frame.canDlc)) := by
  simp only [Decoder.process, Logged.all_bind]
  exact ⟨all_processSignal hsteering, all_processSignal hbrake, Logged.all_pure _⟩

end Safe

/-- Usable bytes are bytes of the payload array. -/
theorem Operation.Safe.defined {dlc : BitVec 8} {op : Operation}
    (h : op.Safe (usableBytes dlc)) : op.Defined 8 := by
  have husable := toNat_usableBytes dlc
  have hword := toNat_usableBytes_le dlc
  cases op with
  | shift width amount => exact ⟨h.1, h.2.1⟩
  | read index => exact ⟨h.1, h.2.trans_le (by omega)⟩
  | position bit => trivial

/-- What `fitsIn` accepts can be decoded: no read or shift is undefined, also where a
Motorola signal is cut short. -/
theorem exists_decodeRaw {spec : SignalSpec} {dlc : BitVec 8} (h : spec.fitsIn dlc = true)
    (data : Vector (BitVec 8) 8) : ∃ raw, spec.decodeRaw data.toList dlc = some raw := by
  have hsafe := all_decodeRaw (inRange_of_fitsIn h) data.toList dlc
  have hrun := run?_decodeRaw spec data.toList dlc
  rw [Vector.length_toList, (hsafe.imp fun _ => Operation.Safe.defined).run?_eq] at hrun
  exact ⟨_, hrun.symm⟩

/-! ## What the constructor admits -/

/-- The declared ranges keep the start bit and the width of every configured signal. -/
theorem SignalParams.inRange_spec (params : SignalParams) : params.spec.InRange :=
  ⟨params.startBit.2.1, params.startBit.2.2, params.bitLength.2.1, params.bitLength.2.2⟩

/-- The constructor's check changes nothing but the flag. -/
theorem checkFit_fst (signal : Signal) (spec : SignalSpec) :
    (checkFit signal spec).1 = { spec with enabled := spec.enabled && spec.fitsIn 8 } := by
  rw [checkFit]
  cases henabled : spec.enabled with
  | true =>
    cases hfits : spec.fitsIn 8 with
    | true =>
      simp only [if_true, Bool.and_self]
      rw [← henabled]
    | false => rfl
  | false =>
    simp only [Bool.false_eq_true, if_false, Bool.false_and]
    rw [← henabled]

theorem inRange_checkFit (signal : Signal) (params : SignalParams) :
    (checkFit signal params.spec).1.InRange := by
  obtain ⟨hstart, hstart', hone, hlength⟩ := params.inRange_spec
  rw [checkFit_fst]
  exact ⟨hstart, hstart', hone, hlength⟩

/-- The observations of a half that has a result come from its branches. -/
theorem undefined_not_mem_half {signal : Signal} {spec : SignalSpec} {s : State}
    {frame : CanFrame} {publish : Int → State × List Output} {r : State × List Output}
    (h : processSignal signal spec s frame publish = some r)
    (hpublish : ∀ raw, .undefined ∉ (publish raw).2) : .undefined ∉ r.2 := by
  cases processSignal_spec h with
  | ignored | tooShort => simp
  | published raw => exact hpublish raw

theorem undefined_not_mem_process {node : Node} {s : State} {frame : CanFrame} {stamp : Time}
    {r : State × List Output} (h : process node s frame stamp = some r) : .undefined ∉ r.2 := by
  obtain ⟨⟨s', out⟩, hsteering, hrest⟩ := Option.bind_eq_some_iff.mp h
  obtain ⟨⟨s'', out'⟩, hbrake, hr⟩ := Option.bind_eq_some_iff.mp hrest
  obtain rfl : (s'', out ++ out') = r := Option.some.inj hr
  have hout := undefined_not_mem_half hsteering (fun raw => by
    simp only [publishSteering]
    split <;> simp)
  have hout' := undefined_not_mem_half hbrake (fun raw => by simp [publishBrakePedal])
  exact List.mem_append.not.mpr (not_or.mpr ⟨hout, hout'⟩)

/-- Where `process` has a result, nothing undefined is observed. -/
theorem undefined_not_mem_emit {node : Node}
    (hprocess : ∀ s frame stamp, ∃ r, process node s frame stamp = some r) (s : State)
    (e : Event) : .undefined ∉ (obdFeedback node).emit s e := by
  cases e with
  | process frame stamp =>
    obtain ⟨r, hr⟩ := hprocess s frame stamp
    have hemit : (obdFeedback node).emit s (.process frame stamp) = r.2 := by
      change ((process node s frame stamp).getD _).2 = r.2
      rw [hr, Option.getD_some]
    rw [hemit]
    exact undefined_not_mem_process hr
  | checkStaleness now =>
    change .undefined ∉ checkStaleness node s now
    simp only [checkStaleness]
    split <;> split <;> simp

/-- Whatever the frame, `process` shifts by 0 to 63 and by less than the width of the word,
reads usable bytes of the payload only, and keeps the Motorola position counter at or above
zero; so it has a result, and no run of the component meets an undefined operation. -/
theorem process_operations_safe (cfg : Config) :
    let node := (Node.construct cfg).1
    (∀ s frame stamp, (∀ op ∈ (logProcess node s frame stamp).operations,
        op.Safe (usableBytes frame.canDlc)) ∧
      (logProcess node s frame stamp).run? (Operation.Defined 8) = process node s frame stamp ∧
      process node s frame stamp = some (logProcess node s frame stamp).value) ∧
    ∀ es, .undefined ∉ (obdFeedback node).trace es := by
  intro node
  have hsafe s frame stamp : (logProcess node s frame stamp).All _ :=
    all_process (inRange_checkFit .steering cfg.steering)
      (inRange_checkFit .brakePedal cfg.brakePedal) s frame stamp
  have hvalue s frame stamp :
      process node s frame stamp = some (logProcess node s frame stamp).value := by
    rw [← run?_process]
    exact ((hsafe s frame stamp).imp fun _ => Operation.Safe.defined).run?_eq
  refine ⟨fun s frame stamp =>
    ⟨hsafe s frame stamp, run?_process node s frame stamp, hvalue s frame stamp⟩, ?_⟩
  intro es hmem
  have hdefined := (obdFeedback node).forall_mem_trace.mpr
    (fun past e (_ : past ++ [e] <+: es) o ho (heq : o = .undefined) =>
      undefined_not_mem_emit (fun s frame stamp => ⟨_, hvalue s frame stamp⟩) _ e (heq ▸ ho))
  exact hdefined _ hmem rfl

/-- A walk that runs out of payload after one bit: the loop is left with the counter at 15. -/
example : (loggedDecoder.decodeRaw { littleEndian := false, bitLength := 2, isSigned := false }
    [1] 1).operations =
      [.position 0, .read 0, .shift 32 0, .shift 64 1, .position 15] := by decide

end Roscco.ObdFeedback
