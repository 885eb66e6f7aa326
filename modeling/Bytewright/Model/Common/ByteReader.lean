import Bytewright.Library.Endian
import Bytewright.Model.Common.Status

/-! `common::ByteReader`, the cursor every decoder reads through. -/

namespace Bytewright.Common

open Bytewright.Library

/-- A non-owning view of a buffer with a cursor. -/
structure ByteReader where
  data : Bytes
  pos : Nat := 0
  deriving DecidableEq, Repr

abbrev Reader := Action ByteReader

namespace ByteReader

abbrev size (r : ByteReader) : Nat := r.data.length

def remaining (r : ByteReader) : Nat := if r.pos ≤ r.size then r.size - r.pos else 0

def eof (r : ByteReader) : Bool := decide (r.size ≤ r.pos)

/-- The bytes from the cursor to the end of the buffer. -/
def rest (r : ByteReader) : Bytes := r.data.drop r.pos

def advance (r : ByteReader) (n : Nat) : ByteReader := { r with pos := r.pos + n }

end ByteReader

/-- The byte `data_[i]`. -/
def byteAt (i : Nat) : Reader UInt8 := do
  match (← get).data[i]? with
  | some b => return b
  | none => throw .undefined

/-- The bytes `data_[i], …, data_[i + n - 1]`. -/
def bytesAt (i n : Nat) : Reader Bytes := do
  let bs := ((← get).data.drop i).take n
  if bs.length = n then return bs else throw .undefined

def seek (pos : Nat) : Reader Unit := do
  if pos > (← get).size then
    raise .kBadLength pos "seek past end of buffer"
  modify ({ · with pos := pos })

/-- Throws `kShortRead` unless at least `n` bytes remain. -/
def require (n : Nat) : Reader Unit := do
  let r ← get
  if n > r.remaining then
    raise .kShortRead r.pos (describe .kShortRead)

def skip (n : Nat) : Reader Unit := do
  require n
  modify (·.advance n)

def readU8 : Reader UInt8 := do
  require 1
  let b ← byteAt (← get).pos
  modify (·.advance 1)
  return b

/-- Borrowing reader: the `n` bytes under the cursor, which moves past them. -/
def readRaw (n : Nat) : Reader Bytes := do
  require n
  let bs ← bytesAt (← get).pos n
  modify (·.advance n)
  return bs

def readBytes (n : Nat) : Reader Bytes := readRaw n

def readString (n : Nat) : Reader Bytes := readRaw n

def readU16le : Reader UInt16 := return UInt16.ofNat (leValue (← readRaw 2))
def readU32le : Reader UInt32 := return UInt32.ofNat (leValue (← readRaw 4))
def readU64le : Reader UInt64 := return UInt64.ofNat (leValue (← readRaw 8))
def readU16be : Reader UInt16 := return UInt16.ofNat (beValue (← readRaw 2))
def readU32be : Reader UInt32 := return UInt32.ofNat (beValue (← readRaw 4))
def readU64be : Reader UInt64 := return UInt64.ofNat (beValue (← readRaw 8))

/-- The loop of `read_varint`: `left` of its ten rounds remain. -/
def readVarintFrom (start : Nat) : (left shift : Nat) → (result : UInt64) → Reader UInt64
  | 0, _, _ => raise .kBadLength start "varint too long"
  | left + 1, shift, result => do
    let b ← readU8
    let result := result ||| ((b &&& 0x7F).toUInt64 <<< UInt64.ofNat shift)
    if b &&& 0x80 = 0 then return result
    readVarintFrom start left (shift + 7) result

/-- Unsigned LEB128 of at most ten bytes. -/
def readVarint : Reader UInt64 := do
  readVarintFrom (← get).pos 10 0 0

/-- Zig-zag signed varint. -/
def readSvarint : Reader Int64 := do
  let u ← readVarint
  return ((u >>> 1) ^^^ (~~~(u &&& 1) + 1)).toInt64

def peekU8 : Reader UInt8 := do
  require 1
  byteAt (← get).pos

def matchBytes (expected : Bytes) : Reader Bool := do
  let r ← get
  if expected.length > r.remaining then return false
  return (← bytesAt r.pos expected.length) == expected

/-- Run `m` on a fresh cursor over `data`, as the source does with a bounded sub-reader. -/
def readWithin {σ α : Type} (data : Bytes) (m : Reader α) : Action σ α :=
  match m { data } with
  | .ok a _ => pure a
  | .error e _ => throw e

end Bytewright.Common
