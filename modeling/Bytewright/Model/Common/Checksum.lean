import Bytewright.Model.Common.Status

/-! The table-driven CRC-32 of `common/checksum.cpp`. -/

namespace Bytewright.Common

/-- One entry of the lookup table, built bit by bit for the polynomial `0xEDB88320`. -/
def crc32Entry (n : UInt32) : UInt32 :=
  (List.range 8).foldl (fun c _ => if c &&& 1 ≠ 0 then (0xEDB88320 : UInt32) ^^^ (c >>> 1) else c >>> 1) n

def crc32Init : UInt32 := 0xFFFFFFFF

def crc32Update (state : UInt32) (data : Bytes) : UInt32 :=
  data.foldl (fun s b => crc32Entry ((s ^^^ b.toUInt32) &&& 0xFF) ^^^ (s >>> 8)) state

def crc32Final (state : UInt32) : UInt32 := state ^^^ 0xFFFFFFFF

def crc32 (data : Bytes) : UInt32 := crc32Final (crc32Update crc32Init data)

-- the check value of CRC-32 for the digits 1 to 9
example : crc32 (ascii "123456789") = 0xCBF43926 := by decide +kernel

end Bytewright.Common
