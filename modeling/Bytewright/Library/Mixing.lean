import Mathlib.Data.Nat.ModEq
import Mathlib.Data.Nat.Prime.Basic

/-! # Mixing steps of a hash

Steps on machine words that a hash is composed of, and that each of them can be undone. -/

namespace Bytewright.Library

variable {w : Nat}

/-- A word with its upper bits folded into its lower ones. -/
def xorShift (n : Nat) (x : BitVec w) : BitVec w := x ^^^ (x >>> n)

/-- Only the word without bits is its own shift. -/
theorem eq_zero_of_eq_shift {n : Nat} (hn : 0 < n) {x : BitVec w} (h : x = x >>> n) : x = 0#w := by
  by_contra hne
  have hpos : 0 < x.toNat := Nat.pos_of_ne_zero fun hzero => hne (BitVec.eq_of_toNat_eq hzero)
  have hvalue : x.toNat = x.toNat / 2 ^ n := by
    rw [← Nat.shiftRight_eq_div_pow, ← BitVec.toNat_ushiftRight, ← h]
  have hlt : x.toNat / 2 ^ n < x.toNat := Nat.div_lt_self hpos (Nat.one_lt_two_pow hn.ne')
  omega

theorem xorShift_xor (n : Nat) (x y : BitVec w) :
    xorShift n (x ^^^ y) = xorShift n x ^^^ xorShift n y := by
  rw [xorShift, xorShift, xorShift, BitVec.ushiftRight_xor_distrib]
  ac_rfl

/-- The difference of two words with one image is its own shift. -/
theorem xorShift_injective {n : Nat} (hn : 0 < n) : Function.Injective (xorShift (w := w) n) := by
  intro x y h
  have hdiff : xorShift n (x ^^^ y) = 0#w := by
    rw [xorShift_xor, h, BitVec.xor_self]
  exact BitVec.xor_eq_zero_iff.mp (eq_zero_of_eq_shift hn (BitVec.xor_eq_zero_iff.mp hdiff))

/-- An odd factor has nothing in common with the number of words. -/
theorem mul_odd_injective {c : BitVec w} (hc : c.toNat % 2 = 1) : Function.Injective (· * c) := by
  intro x y h
  have hodd : Nat.gcd (2 ^ w) c.toNat = 1 :=
    Nat.Coprime.pow_left w ((Nat.coprime_two_left).mpr (Nat.odd_iff.mpr hc))
  have hmul : Nat.ModEq (2 ^ w) (x.toNat * c.toNat) (y.toNat * c.toNat) := by
    have hvalue := congrArg BitVec.toNat h
    rwa [BitVec.toNat_mul, BitVec.toNat_mul] at hvalue
  have hmod : Nat.ModEq (2 ^ w) x.toNat y.toNat := hmul.cancel_right_of_coprime hodd
  apply BitVec.eq_of_toNat_eq
  exact hmod.eq_of_lt_of_lt x.isLt y.isLt

theorem add_injective (c : BitVec w) : Function.Injective (· + c) :=
  fun _ _ h => (BitVec.add_left_inj c).mp h

end Bytewright.Library
