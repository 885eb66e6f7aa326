import Bytewright.Library.Endian
import Bytewright.Model.Common.Status

/-! `common::ByteWriter`, the encoder beside `ByteReader`. -/

namespace Bytewright.Common

open Bytewright.Library

/-- The bytes `put_varint` appends: seven bits a byte, low bits first. -/
def varintBytes (v : UInt64) : Bytes :=
  if _h : v ≥ 0x80 then
    ((v &&& 0x7F) ||| 0x80).toUInt8 :: varintBytes (v >>> 7)
  else [v.toUInt8]
termination_by v.toNat
decreasing_by
  have hv : 128 ≤ v.toNat := UInt64.le_iff_toNat_le.mp _h
  have hs : (v >>> 7).toNat = v.toNat / 128 := by
    rw [UInt64.toNat_shiftRight]
    simp [Nat.shiftRight_eq_div_pow]
  omega

/-- The zig-zag image of a signed integer, as `put_svarint` computes it. -/
def zigzag (v : Int64) : UInt64 := (v.toUInt64 <<< 1) ^^^ (v >>> 63).toUInt64

structure ByteWriter where
  buffer : Bytes := []
  deriving DecidableEq, Repr

namespace ByteWriter

def size (w : ByteWriter) : Nat := w.buffer.length

def putBytes (w : ByteWriter) (bs : Bytes) : ByteWriter := ⟨w.buffer ++ bs⟩

def putString (w : ByteWriter) (s : Bytes) : ByteWriter := w.putBytes s

def putU8 (w : ByteWriter) (v : UInt8) : ByteWriter := w.putBytes [v]
def putU16le (w : ByteWriter) (v : UInt16) : ByteWriter := w.putBytes (leBytes 2 v.toNat)
def putU32le (w : ByteWriter) (v : UInt32) : ByteWriter := w.putBytes (leBytes 4 v.toNat)
def putU64le (w : ByteWriter) (v : UInt64) : ByteWriter := w.putBytes (leBytes 8 v.toNat)
def putU16be (w : ByteWriter) (v : UInt16) : ByteWriter := w.putBytes (beBytes 2 v.toNat)
def putU32be (w : ByteWriter) (v : UInt32) : ByteWriter := w.putBytes (beBytes 4 v.toNat)

def putVarint (w : ByteWriter) (v : UInt64) : ByteWriter := w.putBytes (varintBytes v)

def putSvarint (w : ByteWriter) (v : Int64) : ByteWriter := w.putVarint (zigzag v)

/-- Append four zero bytes to patch later, and say where they start. -/
def reserveU32le (w : ByteWriter) : Nat × ByteWriter := (w.size, w.putBytes [0, 0, 0, 0])

def patchU32le (w : ByteWriter) (pos : Nat) (v : UInt32) : ByteWriter :=
  ⟨w.buffer.take pos ++ leBytes 4 v.toNat ++ w.buffer.drop (pos + 4)⟩

end ByteWriter

end Bytewright.Common
