import Bytewright.Library.BitOrder
import Bytewright.Library.ShiftRegister
import Bytewright.Model.Common.Checksum

/-! # CRC-32

The table against the shift register, and the corruption that the checksum shows. -/

namespace Bytewright.Common

open Bytewright.Library ShiftRegister

/-- The polynomial of CRC-32, lowest power at the upper end. -/
def crc32Poly : BitVec 32 := 0xEDB88320#32

/-- CRC-32 by its definition: the bits of every byte, the least significant first, go through a shift
register. -/
def crc32Bitwise (data : Bytes) : UInt32 :=
  ⟨feeds crc32Poly 0xFFFFFFFF#32 (bitsOf lsbFirst data) ^^^ 0xFFFFFFFF#32⟩

/-! ### One byte -/

theorem and_one_ne_zero_iff (c : UInt32) : c &&& 1 ≠ 0 ↔ c.toBitVec.getLsbD 0 = true := by
  rw [Ne, ← UInt32.toNat_inj, UInt32.toNat_and, UInt32.toNat_one, Nat.and_one_is_mod, UInt32.toNat_zero,
    BitVec.getLsbD, Nat.testBit_zero, decide_eq_true_iff, UInt32.toNat_toBitVec]
  omega

theorem crc32Round_toBitVec (c : UInt32) :
    (if c &&& 1 ≠ 0 then (0xEDB88320 : UInt32) ^^^ (c >>> 1) else c >>> 1).toBitVec =
      feed crc32Poly c.toBitVec false := by
  rw [feed, Bool.xor_false]
  by_cases h : c.toBitVec.getLsbD 0 = true
  · rw [if_pos ((and_one_ne_zero_iff c).mpr h), if_pos h]
    rfl
  · rw [if_neg ((and_one_ne_zero_iff c).not.mpr h), if_neg h]
    rfl

/-- An entry of the table is what its index becomes while eight bits go through. -/
theorem crc32Entry_toBitVec (n : UInt32) :
    (crc32Entry n).toBitVec = feeds crc32Poly n.toBitVec (List.replicate 8 false) := by
  simp only [crc32Entry, List.range_succ, List.range_zero, List.nil_append, List.foldl_append,
    List.foldl_cons, List.foldl_nil, crc32Round_toBitVec]
  rfl

theorem lowBits_byte (b : UInt8) : lowBits 8 b.toUInt32.toBitVec = lsbFirst b := by
  apply List.map_congr_left
  intro i _
  simp [BitVec.getLsbD]

/-- The step of the table is eight steps of the register. -/
theorem crc32Step_toBitVec (s : UInt32) (b : UInt8) :
    (crc32Entry ((s ^^^ b.toUInt32) &&& 0xFF) ^^^ (s >>> 8)).toBitVec =
      feeds crc32Poly s.toBitVec (lsbFirst b) := by
  have hbyte : b.toUInt32.toBitVec >>> 8 = 0#32 := by
    apply BitVec.eq_of_toNat_eq
    have hlt := b.toNat_lt
    rw [BitVec.toNat_ushiftRight, UInt32.toNat_toBitVec, UInt8.toNat_toUInt32, Nat.shiftRight_eq_div_pow]
    exact Nat.div_eq_of_lt hlt
  have hmask : ∀ i < 32, (0xFF#32).getLsbD i = decide (i < 8) := by decide
  rw [← lowBits_byte, feeds_lowBits hbyte, feeds_mask hmask, BitVec.ushiftRight_xor_distrib, hbyte,
    BitVec.xor_zero, UInt32.toBitVec_xor, crc32Entry_toBitVec]
  rfl

theorem crc32Update_toBitVec (s : UInt32) (data : Bytes) :
    (crc32Update s data).toBitVec = feeds crc32Poly s.toBitVec (bitsOf lsbFirst data) := by
  induction data generalizing s with
  | nil => rfl
  | cons b data ih =>
      rw [bitsOf_cons, feeds_append, ← crc32Step_toBitVec, ← ih]
      rfl

theorem crc32_eq_bitwise (data : Bytes) : crc32 data = crc32Bitwise data := by
  rw [crc32, crc32Final, crc32Bitwise, ← UInt32.toBitVec_inj, UInt32.toBitVec_xor, crc32Update_toBitVec]
  rfl

/-! ### Bursts -/

/-- Two byte strings of one length that differ, but only in a burst of `n` bits. -/
structure Burst (order : UInt8 → List Bool) (n : Nat) (x y : Bytes) : Prop where
  length : x.length = y.length
  ne : x ≠ y
  within : DifferWithin n (bitsOf order x) (bitsOf order y)

/-- Other bytes in the place of some. -/
theorem Burst.of_bytes {order : UInt8 → List Bool} (horder : BitOrder order) {n : Nat} {x y : Bytes}
    (front rest : Bytes) (hlen : x.length = y.length) (hne : x ≠ y) (hn : 8 * x.length ≤ n) :
    Burst order n (front ++ (x ++ rest)) (front ++ (y ++ rest)) where
  length := by simp [hlen]
  ne h := hne (List.append_cancel_right (List.append_cancel_left h))
  within := by
    rw [bitsOf_append, bitsOf_append, bitsOf_append, bitsOf_append]
    apply DifferWithin.of_append
    · rw [horder.length_bitsOf, horder.length_bitsOf, hlen]
    · rw [horder.length_bitsOf]
      exact hn

/-- A register as long as the burst ends in different states. -/
theorem Burst.feeds_ne {order : UInt8 → List Bool} {n : Nat} {x y : Bytes} (h : Burst order n x y)
    (horder : BitOrder order) {poly : BitVec n} (hpoly : poly.msb = true) (s : BitVec n) :
    feeds poly s (bitsOf order x) ≠ feeds poly s (bitsOf order y) := by
  have hbits : (bitsOf order x).length = (bitsOf order y).length := by
    rw [horder.length_bitsOf, horder.length_bitsOf, h.length]
  exact feeds_ne_of_burst hpoly hbits (horder.bitsOf_injective.ne h.ne) h.within

theorem crc32_ne {x y : Bytes} (h : Burst lsbFirst 32 x y) : crc32 x ≠ crc32 y := by
  intro heq
  apply h.feeds_ne lsbFirst_order (by decide : crc32Poly.msb = true) 0xFFFFFFFF#32
  rw [crc32_eq_bitwise, crc32_eq_bitwise, crc32Bitwise, crc32Bitwise] at heq
  exact (BitVec.xor_left_inj _).mp (congrArg UInt32.toBitVec heq)

end Bytewright.Common
