import Bytewright.Library.Endian
import Bytewright.Model.Common.Status

/-! `common::ByteReader` as the machine runs it: positions and lengths are `size_t` words, and their
sums and differences wrap around. -/

namespace Bytewright.Common

open Bytewright.Library

/-- A byte string that is somewhere in memory, so that its length is a `size_t`. -/
structure Buffer where
  bytes : Bytes
  fits : bytes.length < 2 ^ 64

structure WordReader where
  data : Buffer
  pos : UInt64 := 0

abbrev Words := Action WordReader

namespace WordReader

def size (r : WordReader) : UInt64 := UInt64.ofNat r.data.bytes.length

def remaining (r : WordReader) : UInt64 := if r.pos ≤ r.size then r.size - r.pos else 0

def advance (r : WordReader) (n : UInt64) : WordReader := { r with pos := r.pos + n }

/-- The byte `data_[i]`. -/
def byteAt (i : UInt64) : Words UInt8 := do
  match (← get).data.bytes[i.toNat]? with
  | some b => return b
  | none => throw .undefined

/-- The bytes `data_[i], …, data_[i + n - 1]`. -/
def bytesAt : (i : UInt64) → (n : Nat) → Words Bytes
  | _, 0 => return []
  | i, n + 1 => do
    let b ← byteAt i
    return b :: (← bytesAt (i + 1) n)

def seek (pos : UInt64) : Words Unit := do
  if pos > (← get).size then
    raise .kBadLength pos.toNat "seek past end of buffer"
  modify ({ · with pos := pos })

def require (n : UInt64) : Words Unit := do
  let r ← get
  if n > r.remaining then
    raise .kShortRead r.pos.toNat (describe .kShortRead)

def skip (n : UInt64) : Words Unit := do
  require n
  modify (·.advance n)

def readU8 : Words UInt8 := do
  require 1
  let b ← byteAt (← get).pos
  modify (·.advance 1)
  return b

def readRaw (n : UInt64) : Words Bytes := do
  require n
  let bs ← bytesAt (← get).pos n.toNat
  modify (·.advance n)
  return bs

def readBytes (n : UInt64) : Words Bytes := readRaw n

def readString (n : UInt64) : Words Bytes := readRaw n

def readU16le : Words UInt16 := return UInt16.ofNat (leValue (← readRaw 2))
def readU32le : Words UInt32 := return UInt32.ofNat (leValue (← readRaw 4))
def readU64le : Words UInt64 := return UInt64.ofNat (leValue (← readRaw 8))
def readU16be : Words UInt16 := return UInt16.ofNat (beValue (← readRaw 2))
def readU32be : Words UInt32 := return UInt32.ofNat (beValue (← readRaw 4))
def readU64be : Words UInt64 := return UInt64.ofNat (beValue (← readRaw 8))

/-- The loop of `read_varint`: `left` of its ten rounds remain. -/
def readVarintFrom (start : UInt64) : (left shift : Nat) → (result : UInt64) → Words UInt64
  | 0, _, _ => raise .kBadLength start.toNat "varint too long"
  | left + 1, shift, result => do
    let b ← readU8
    let result := result ||| ((b &&& 0x7F).toUInt64 <<< UInt64.ofNat shift)
    if b &&& 0x80 = 0 then return result
    readVarintFrom start left (shift + 7) result

def readVarint : Words UInt64 := do
  readVarintFrom (← get).pos 10 0 0

def readSvarint : Words Int64 := do
  let u ← readVarint
  return ((u >>> 1) ^^^ (~~~(u &&& 1) + 1)).toInt64

def peekU8 : Words UInt8 := do
  require 1
  byteAt (← get).pos

def matchBytes (expected : Buffer) : Words Bool := do
  let r ← get
  let n := UInt64.ofNat expected.bytes.length
  if n > r.remaining then return false
  return (← bytesAt r.pos n.toNat) == expected.bytes

end WordReader

end Bytewright.Common
