import Mathlib.Data.BitVec
import Roscco.Library.Double

/-!
# Signals in CAN frames

`SignalSpec`: where a signal lies in a frame payload and how its bits are read. The decoder is
written once, over what its reads, shifts and counter assignments do. Here they are partial: a
byte past the payload or a shift amount outside the word gives `none`, where C++ leaves the
behaviour undefined.
-/

namespace Roscco.ObdFeedback

/-- A DBC-style signal. The scale and the offset are finite, so they are rationals. -/
structure SignalSpec where
  enabled : Bool := false
  canId : BitVec 32 := 0
  startBit : Int := 0
  bitLength : Int := 16
  littleEndian : Bool := true
  isSigned : Bool := true
  scale : ℚ := 1
  offset : ℚ := 0
  deriving DecidableEq, Repr

/-- `std::min<std::uint8_t>(dlc, 8)`: the payload bytes that a frame really has. -/
def usableBytes (dlc : BitVec 8) : Int := (min dlc.toNat 8 : ℕ)

theorem toNat_usableBytes (dlc : BitVec 8) : ((usableBytes dlc).toNat : Int) = usableBytes dlc := by
  simp [usableBytes]

theorem toNat_usableBytes_le (dlc : BitVec 8) : (usableBytes dlc).toNat ≤ 8 := by
  simp [usableBytes]

/-- Whether a signal can be read out of a frame of the given length. -/
def SignalSpec.fitsIn (spec : SignalSpec) (dlc : BitVec 8) : Bool :=
  if spec.bitLength < 1 ∨ 64 < spec.bitLength ∨ spec.startBit < 0 ∨ 63 < spec.startBit then
    false
  else
    let available := usableBytes dlc * 8
    if spec.littleEndian then
      decide (spec.startBit + spec.bitLength ≤ available)
    else
      let startByte := spec.startBit.tdiv 8
      let neededBytes := startByte + (spec.bitLength + 7).tdiv 8
      decide (neededBytes * 8 ≤ available + 7 ∧ startByte * 8 < available)

/-! ## Reading bits -/

/-- `data[index]`. -/
def readByte (data : List (BitVec 8)) (index : Int) : Option (BitVec 8) :=
  if 0 ≤ index then data[index.toNat]? else none

/-- `value << amount`. -/
def shiftLeft {w : ℕ} (value : BitVec w) (amount : Int) : Option (BitVec w) :=
  if 0 ≤ amount ∧ amount < w then some (value <<< amount.toNat) else none

/-- `value >> amount`. -/
def shiftRight {w : ℕ} (value : BitVec w) (amount : Int) : Option (BitVec w) :=
  if 0 ≤ amount ∧ amount < w then some (value >>> amount.toNat) else none

theorem shiftLeft_eq {w : ℕ} (value : BitVec w) {amount : Int} (h0 : 0 ≤ amount)
    (hlt : amount < w) : shiftLeft value amount = some (value <<< amount.toNat) :=
  if_pos ⟨h0, hlt⟩

theorem shiftRight_eq {w : ℕ} (value : BitVec w) {amount : Int} (h0 : 0 ≤ amount)
    (hlt : amount < w) : shiftRight value amount = some (value >>> amount.toNat) :=
  if_pos ⟨h0, hlt⟩

theorem readByte_eq {data : List (BitVec 8)} {i : ℕ} (h : i < data.length) :
    readByte data i = some data[i] := by
  rw [readByte, if_pos (Int.natCast_nonneg i), Int.toNat_natCast, List.getElem?_eq_getElem h]

/-- The step of the Motorola position counter. -/
def nextBit (bit : Int) : Int := if bit.tmod 8 = 0 then bit + 15 else bit - 1

/-! ## The decoder -/

/-- What the decoder executes: its operations in some monad. -/
structure Decoder (m : Type → Type) where
  /-- `data[index]`. -/
  readByte (data : List (BitVec 8)) (index : Int) : m (BitVec 8)
  /-- `value << amount`. -/
  shiftLeft {w : ℕ} (value : BitVec w) (amount : Int) : m (BitVec w)
  /-- `value >> amount`. -/
  shiftRight {w : ℕ} (value : BitVec w) (amount : Int) : m (BitVec w)
  /-- The Motorola position counter takes a value. -/
  position (bit : Int) : m Int

namespace Decoder

variable {m : Type → Type} [Monad m]

/-- The Intel loop: the first `count` bytes, the first one lowest. -/
def packBytes (d : Decoder m) (data : List (BitVec 8)) (count : ℕ) : m (BitVec 64) :=
  (List.range count).foldlM (fun packed i => do
    let byte ← d.readByte data i
    pure (packed ||| (← d.shiftLeft (byte.setWidth 64) (8 * i)))) 0

/-- The Motorola loop from position `bit` on. It ends after `remaining` bits, or early at
a byte that the frame does not have; what is left of `remaining` is returned too. -/
def motorolaLoop (d : Decoder m) (data : List (BitVec 8)) (usable : Int) :
    (remaining : ℕ) → (bit : Int) → (value : BitVec 64) → m (BitVec 64 × ℕ)
  | 0, _, value => pure (value, 0)
  | remaining + 1, bit, value => do
    let byteIndex := bit.tdiv 8
    if usable ≤ byteIndex ∨ byteIndex < 0 then
      pure (value, remaining + 1)
    else
      let bitInByte := bit.tmod 8
      -- the byte is promoted to a 32-bit int before it is shifted
      let shifted ← d.shiftRight ((← d.readByte data byteIndex).setWidth 32) bitInByte
      let value := (← d.shiftLeft value 1) ||| (shifted &&& 1).setWidth 64
      let bit ← d.position (nextBit bit)
      d.motorolaLoop data usable remaining bit value

/-- The sign extension at the end of `decodeRaw`. -/
def extendSign (d : Decoder m) (value : BitVec 64) (bitLength : Int) : m (BitVec 64) := do
  let signBit ← d.shiftLeft (1 : BitVec 64) (bitLength - 1)
  if value &&& signBit ≠ 0 then
    pure (value ||| ~~~((← d.shiftLeft (1 : BitVec 64) bitLength) - 1))
  else
    pure value

/-- Decode the raw integer out of a frame payload. -/
def decodeRaw (d : Decoder m) (spec : SignalSpec) (data : List (BitVec 8)) (dlc : BitVec 8) :
    m Int := do
  let usable := usableBytes dlc
  let value ←
    if spec.littleEndian then do
      let packed ← d.packBytes data usable.toNat
      let mask ←
        if spec.bitLength = 64 then pure (~~~0)
        else (· - 1) <$> d.shiftLeft (1 : BitVec 64) spec.bitLength
      pure ((← d.shiftRight packed spec.startBit) &&& mask)
    else do
      let bit ← d.position spec.startBit
      Prod.fst <$> d.motorolaLoop data usable spec.bitLength.toNat bit 0
  let value ←
    if spec.isSigned ∧ spec.bitLength < 64 then d.extendSign value spec.bitLength
    else pure value
  pure value.toInt

end Decoder

/-! ## The decoder as a partial function -/

/-- The operations as far as C++ defines them. -/
@[simps]
def partialDecoder : Decoder Option where
  readByte := readByte
  shiftLeft := shiftLeft
  shiftRight := shiftRight
  position := some

/-- Decode the raw integer, if no operation on the way is undefined. -/
abbrev SignalSpec.decodeRaw (spec : SignalSpec) (data : List (BitVec 8)) (dlc : BitVec 8) :
    Option Int :=
  partialDecoder.decodeRaw spec data dlc

end Roscco.ObdFeedback
