import Mathlib.Data.Nat.Bitwise
import Bytewright.Verification.Common.Checksum
import Bytewright.Verification.Streamcodec.FrameReader

/-! # The header CRC

The checksum of a frame header as a shift register, and the corruption that it shows. -/

namespace Bytewright.Streamcodec

open Bytewright.Common Bytewright.Library ShiftRegister

/-- The polynomial of the header CRC, seen in the mirror. -/
def crc16Poly : BitVec 16 := 0x8408#16

/-! ### One byte -/

theorem and_0x8000_ne_zero_iff (c : UInt16) : c &&& 0x8000 ≠ 0 ↔ c.toBitVec.msb = true := by
  have hmask : (c &&& 0x8000).toNat = (c.toNat.testBit 15).toNat * 2 ^ 15 := by
    rw [UInt16.toNat_and]
    exact Nat.and_two_pow c.toNat 15
  rw [BitVec.msb_eq_getLsbD_last, BitVec.getLsbD, UInt16.toNat_toBitVec, Ne, ← UInt16.toNat_inj, hmask]
  cases c.toNat.testBit 15 <;> decide

theorem crc16Round_reverse (c : UInt16) :
    (if c &&& 0x8000 ≠ 0 then (c <<< (1 : UInt16)) ^^^ (0x1021 : UInt16)
      else c <<< (1 : UInt16)).toBitVec.reverse = feed crc16Poly c.toBitVec.reverse false := by
  have hpoly : (0x1021#16).reverse = crc16Poly := by decide
  rw [← hpoly, ← reverse_feed]
  by_cases h : c.toBitVec.msb = true
  · rw [if_pos ((and_0x8000_ne_zero_iff c).mpr h), if_pos h]
    rfl
  · rw [if_neg ((and_0x8000_ne_zero_iff c).not.mpr h), if_neg h]
    rfl

/-- What the loop does to the sum for one byte. -/
def crc16Step (crc : UInt16) (b : UInt8) : UInt16 :=
  (List.range 8).foldl (fun (crc : UInt16) _ =>
    if crc &&& 0x8000 ≠ 0 then (crc <<< (1 : UInt16)) ^^^ (0x1021 : UInt16)
    else crc <<< (1 : UInt16))
    (crc ^^^ (b.toUInt16 <<< (8 : UInt16)))

theorem crc16_eq_foldl (data : Bytes) : crc16 data = data.foldl crc16Step 0xFFFF := rfl

/-- A byte that is put at the upper end, in the mirror. -/
theorem lowBits_reverse_byte (b : UInt8) :
    lowBits 8 (b.toUInt16 <<< (8 : UInt16)).toBitVec.reverse = msbFirst b := by
  apply List.map_congr_left
  intro i hi
  have hi : i < 8 := List.mem_range.mp hi
  have hbit : b.toUInt16.toBitVec.getLsbD (7 - i) = b.toNat.testBit (7 - i) := by simp [BitVec.getLsbD]
  have hplace : 16 - 1 - (i + 8) = 7 - i := by omega
  change ((b.toUInt16.toBitVec <<< 8).reverse).getLsbD i = _
  rw [BitVec.getLsbD_reverse, BitVec.getMsbD_shiftLeft, BitVec.getMsbD, hplace, hbit,
    decide_eq_true (by omega), Bool.true_and]

theorem reverse_byte_shiftRight (b : UInt8) :
    (b.toUInt16 <<< (8 : UInt16)).toBitVec.reverse >>> 8 = 0#16 := by
  change (b.toUInt16.toBitVec <<< 8).reverse >>> 8 = 0#16
  rw [← reverse_shiftLeft, ← BitVec.shiftLeft_add, BitVec.shiftLeft_eq_zero (by decide)]
  rfl

theorem crc16Step_reverse (crc : UInt16) (b : UInt8) :
    (crc16Step crc b).toBitVec.reverse = feeds crc16Poly crc.toBitVec.reverse (msbFirst b) := by
  rw [← lowBits_reverse_byte, feeds_lowBits (reverse_byte_shiftRight b), ← reverse_xor,
    ← UInt16.toBitVec_xor]
  simp only [crc16Step, List.range_succ, List.range_zero, List.nil_append, List.foldl_append,
    List.foldl_cons, List.foldl_nil, crc16Round_reverse]
  rfl

theorem crc16_reverse (data : Bytes) :
    (crc16 data).toBitVec.reverse = feeds crc16Poly 0xFFFF#16 (bitsOf msbFirst data) := by
  have hfold : ∀ (data : Bytes) (crc : UInt16), (data.foldl crc16Step crc).toBitVec.reverse =
      feeds crc16Poly crc.toBitVec.reverse (bitsOf msbFirst data) := by
    intro data
    induction data with
    | nil => exact fun _ => rfl
    | cons b data ih =>
        intro crc
        rw [List.foldl_cons, ih, crc16Step_reverse, bitsOf_cons, feeds_append]
  rw [crc16_eq_foldl, hfold]
  congr 1

/-! ### Bursts -/

theorem crc16_ne {x y : Bytes} (h : Burst msbFirst 16 x y) : crc16 x ≠ crc16 y := by
  intro heq
  apply h.feeds_ne msbFirst_order (by decide : crc16Poly.msb = true) 0xFFFF#16
  rw [← crc16_reverse, ← crc16_reverse, heq]

/-- A frame read where a burst hit the header of another one, whose CRC is still there. -/
theorem nextFrame_burst {first : Bool} {f : Frame} {r s : ByteReader} (h : nextFrame first r = .ok f s)
    {hdr hit rest : Bytes} (hlen : hdr.length = kHeaderFixedBytes) (hburst : Burst msbFirst 16 hdr hit)
    (hdata : r.data.drop f.headerOffset = hit ++ (beBytes 2 (crc16 hdr).toNat ++ rest)) :
    f.crcOk = false := by
  obtain ⟨k, -, -, hf, hoffset, hrest, -⟩ := nextFrame_ok h
  have hbytes : f.bytes ++ s.rest = hit ++ (beBytes 2 (crc16 hdr).toNat ++ rest) := by
    rw [← hdata, hoffset, ← hrest]
    rfl
  rw [Frame.bytes, List.append_assoc] at hbytes
  have hheader : f.header.length = hit.length := by rw [f.header_length, ← hburst.length, hlen]
  obtain ⟨rfl, hcrc⟩ := List.append_inj hbytes hheader
  rw [hf.crcOk]
  cases hon : f.hasCrc with
  | false => rfl
  | true =>
      rw [hon, if_pos rfl, List.append_assoc] at hcrc
      have hfield : beBytes 2 f.headerCrc.toNat = beBytes 2 (crc16 hdr).toNat :=
        (List.append_inj hcrc (by simp)).1
      have hstored : f.headerCrc = crc16 hdr := by
        have hvalue := congrArg beValue hfield
        rw [beValue_beBytes_of_lt (n := 2) f.headerCrc.toNat_lt,
          beValue_beBytes_of_lt (n := 2) (crc16 hdr).toNat_lt] at hvalue
        exact UInt16.toNat_inj.mp hvalue
      rw [Bool.true_and, hstored, beq_eq_false_iff_ne]
      exact (crc16_ne hburst).symm

/-- Byte strings that differ in a burst of 16 bits have different checksums, so that no frame is
reported to be sound whose header changed in one since its CRC was written. -/
theorem crc16_flags_bursts :
    (∀ x y, Burst msbFirst 16 x y → crc16 x ≠ crc16 y) ∧
    ∀ first r f s hdr hit rest, nextFrame first r = .ok f s → hdr.length = kHeaderFixedBytes →
      Burst msbFirst 16 hdr hit →
      r.data.drop f.headerOffset = hit ++ (beBytes 2 (crc16 hdr).toNat ++ rest) → f.crcOk = false :=
  ⟨fun _ _ => crc16_ne, fun _ _ _ _ _ _ _ h => nextFrame_burst h⟩

/-- A header with the given stream id and the CRC flag. -/
def headerOn (streamId : Bytes) : Bytes :=
  beBytes 2 kSync.toNat ++ [kVersion, 0, kFlagHasCrc] ++ (streamId ++ List.replicate 12 0)

theorem crc16_flags_bursts_streamId : crc16 (headerOn [0, 0]) ≠ crc16 (headerOn [0x12, 0x34]) ∧
    ∃ f s, nextFrame true { data := headerOn [0x12, 0x34] ++ (beBytes 2 (crc16 (headerOn [0, 0])).toNat ++ []) } =
      .ok f s ∧ f.crcOk = false := by
  have hburst : Burst msbFirst 16 (headerOn [0, 0]) (headerOn [0x12, 0x34]) :=
    .of_bytes msbFirst_order _ _ rfl (by decide) (by decide)
  refine ⟨crc16_flags_bursts.1 _ _ hburst, ?_⟩
  have hoffset : ((do return (← nextFrame true).headerOffset) : Reader Nat).run' {
      data := headerOn [0x12, 0x34] ++ (beBytes 2 (crc16 (headerOn [0, 0])).toNat ++ []) } = some 0 := by
    decide +kernel
  obtain ⟨s, hoffset⟩ := run'_eq_some hoffset
  obtain ⟨f, t, hframe, hzero⟩ := bind_eq_ok.mp hoffset
  injection hzero with hzero
  refine ⟨f, t, hframe, crc16_flags_bursts.2 _ _ _ _ _ _ [] hframe rfl hburst ?_⟩
  rw [hzero]
  rfl

end Bytewright.Streamcodec
