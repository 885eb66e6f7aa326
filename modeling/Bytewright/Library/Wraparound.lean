import Mathlib.Data.Int.Bitwise

/-! # Words that hold an integer up to a power of two

The operations of integers that commute with taking the word that is left of them. -/

namespace Bytewright.Library.Wraparound

/-- The bits of a word are the lowest of the integer, in two's complement. -/
theorem getLsbD_ofInt (w : Nat) (z : Int) (i : Nat) :
    (BitVec.ofInt w z).getLsbD i = (decide (i < w) && z.testBit i) := by
  cases z with
  | ofNat n =>
      rw [Int.ofNat_eq_natCast, BitVec.ofInt_natCast, BitVec.getLsbD_ofNat]
      rfl
  | negSucc n =>
      rw [BitVec.ofInt_negSucc_eq_not_ofNat, BitVec.getLsbD_not, BitVec.getLsbD_ofNat]
      by_cases hi : i < w
      · simp [hi, Int.testBit]
      · simp [hi]

theorem ofInt_land (x y : Int) : Int64.ofInt (Int.land x y) = Int64.ofInt x &&& Int64.ofInt y := by
  apply Int64.toBitVec_inj.mp
  rw [Int64.toBitVec_and]
  apply BitVec.eq_of_getLsbD_eq
  intro i hi
  simp only [Int64.toBitVec_ofInt, BitVec.getLsbD_and, getLsbD_ofInt, Int.testBit_land, hi, decide_true,
    Bool.true_and]

theorem ofInt_lor (x y : Int) : Int64.ofInt (Int.lor x y) = Int64.ofInt x ||| Int64.ofInt y := by
  apply Int64.toBitVec_inj.mp
  rw [Int64.toBitVec_or]
  apply BitVec.eq_of_getLsbD_eq
  intro i hi
  simp only [Int64.toBitVec_ofInt, BitVec.getLsbD_or, getLsbD_ofInt, Int.testBit_lor, hi, decide_true,
    Bool.true_and]

theorem ofInt_xor (x y : Int) : Int64.ofInt (Int.xor x y) = Int64.ofInt x ^^^ Int64.ofInt y := by
  apply Int64.toBitVec_inj.mp
  rw [Int64.toBitVec_xor]
  apply BitVec.eq_of_getLsbD_eq
  intro i hi
  simp only [Int64.toBitVec_ofInt, BitVec.getLsbD_xor, getLsbD_ofInt, Int.testBit_lxor, hi, decide_true,
    Bool.true_and]

theorem ofInt_lnot (x : Int) : Int64.ofInt (Int.lnot x) = ~~~Int64.ofInt x := by
  apply Int64.toBitVec_inj.mp
  rw [Int64.toBitVec_not]
  apply BitVec.eq_of_getLsbD_eq
  intro i hi
  simp only [Int64.toBitVec_ofInt, BitVec.getLsbD_not, getLsbD_ofInt, Int.testBit_lnot, hi, decide_true,
    Bool.true_and]

/-- A small number is a word of its own. -/
theorem toInt_ofInt_small {k : Nat} (hk : k < 64) : (Int64.ofInt k).toInt = k := by
  apply Int64.toInt_ofInt_of_le
  · omega
  · omega

/-- Bits shifted out at the top are what the multiplication loses. -/
theorem shiftLeft_ofInt (x : Int) {k : Nat} (hk : k < 64) :
    ((Int64.ofInt x).toUInt64 <<< (Int64.ofInt k).toUInt64).toInt64 = Int64.ofInt (x * 2 ^ k) := by
  have hamount : (BitVec.ofInt 64 (k : Int) % 64#64).toNat = k := by
    have hmod : k % 2 ^ 64 = k := Nat.mod_eq_of_lt (by omega)
    rw [BitVec.ofInt_natCast, BitVec.toNat_umod, BitVec.toNat_ofNat, hmod]
    exact Nat.mod_eq_of_lt hk
  have hpower : BitVec.twoPow 64 k = BitVec.ofInt 64 (2 ^ k) := by
    apply BitVec.eq_of_toNat_eq
    have hcast : ((2 ^ k : Nat) : Int) = 2 ^ k := by push_cast; rfl
    rw [BitVec.toNat_twoPow, ← hcast, BitVec.ofInt_natCast, BitVec.toNat_ofNat]
  apply Int64.toBitVec_inj.mp
  change BitVec.ofInt 64 x <<< (BitVec.ofInt 64 (k : Int) % 64#64) = BitVec.ofInt 64 (x * 2 ^ k)
  rw [BitVec.shiftLeft_eq', hamount, BitVec.shiftLeft_eq_mul_twoPow, hpower, BitVec.ofInt_mul]

end Bytewright.Library.Wraparound
