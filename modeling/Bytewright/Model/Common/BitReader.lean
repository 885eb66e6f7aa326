import Bytewright.Model.Common.Status

/-! `common::BitReader`, the cursor for fields that are narrower than a byte. -/

namespace Bytewright.Common

/-- A non-owning view of a buffer with a cursor on its bits. -/
structure BitReader where
  data : Bytes
  bitPos : Nat := 0
  deriving DecidableEq, Repr

abbrev Bits := Action BitReader

namespace BitReader

/-- The size in bits, a `std::size_t`. -/
def sizeBits (r : BitReader) : Nat := (UInt64.ofNat (r.data.length * 8)).toNat

def bitsRemaining (r : BitReader) : Nat :=
  if r.bitPos ≤ r.sizeBits then r.sizeBits - r.bitPos else 0

def advance (r : BitReader) (n : Nat) : BitReader := { r with bitPos := r.bitPos + n }

end BitReader

/-- The byte the cursor is in. -/
def currentByte : Bits UInt8 := do
  let r ← get
  match r.data[r.bitPos / 8]? with
  | some b => return b
  | none => throw .undefined

def readBit : Bits UInt8 := do
  let r ← get
  if r.bitPos ≥ r.sizeBits then
    raise .kShortRead (r.bitPos / 8) "bit read past end"
  let shift := 7 - r.bitPos % 8
  let b ← currentByte
  modify (·.advance 1)
  return (b >>> UInt8.ofNat shift) &&& 1

/-- The fast path of `read_bits`: whole bytes as long as the cursor is at the start of one. What is
left of the count comes with the value. -/
def readWholeBytes : (count : Nat) → (value : UInt64) → Bits (UInt64 × Nat)
  | count + 8, value => do
    if (← get).bitPos % 8 = 0 then
      let b ← currentByte
      modify (·.advance 8)
      readWholeBytes count ((value <<< 8) ||| b.toUInt64)
    else return (value, count + 8)
  | count, value => return (value, count)

/-- The slow path of `read_bits`. -/
def readSingleBits : (count : Nat) → (value : UInt64) → Bits UInt64
  | 0, value => return value
  | count + 1, value => do
    let bit ← readBit
    readSingleBits count ((value <<< 1) ||| bit.toUInt64)

/-- `count` bits, the most significant one first. -/
def readBits (count : Nat) : Bits UInt64 := do
  if count = 0 then return 0
  let r ← get
  if count > 64 then
    raise .kBadLength (r.bitPos / 8) "bit field wider than 64 bits"
  if count > r.bitsRemaining then
    raise .kShortRead (r.bitPos / 8) (describe .kShortRead)
  let (value, count) ← readWholeBytes count 0
  readSingleBits count value

def skipBits (count : Nat) : Bits Unit := do
  let r ← get
  if count > r.bitsRemaining then
    raise .kShortRead (r.bitPos / 8) (describe .kShortRead)
  modify (·.advance count)

/-- To the next byte boundary. -/
def align : Bits Unit := do
  let rem := (← get).bitPos % 8
  if rem ≠ 0 then
    modify (·.advance (8 - rem))

-- four bits, a jump to the next byte, then two whole ones
example : ((do
    let a ← readBits 4
    align
    return (a, ← readBits 16)) : Bits _).run' { data := [0xAB, 0xCD, 0xEF] } = some (0xA, 0xCDEF) := by
  decide +kernel

end Bytewright.Common
