import Mathlib.Algebra.Order.Ring.Nat
import Mathlib.Data.Nat.Log
import Mathlib.Order.Monotone.Basic
import Mathlib.Tactic.Ring

/-! # Codes of floating-point numbers

The magnitudes of a binary floating-point format, numbered in their order: `p` bits of a fraction below an
exponent. A number is rounded to one of them by rounding an integer. -/

namespace Bytewright.Library

variable {p : Nat}

/-- The number of a code, in units of the least positive one. -/
def codeValue (p code : Nat) : Nat :=
  if code / 2 ^ p = 0 then code % 2 ^ p else (2 ^ p + code % 2 ^ p) * 2 ^ (code / 2 ^ p - 1)

/-- A significand that does not overflow, and that is normal above the least exponent. -/
structure Normal (p shift significand : Nat) : Prop where
  lt : significand < 2 ^ (p + 1)
  normal : shift = 0 ∨ 2 ^ p ≤ significand

theorem codeValue_normal {shift significand : Nat} (h : Normal p shift significand) :
    codeValue p (shift * 2 ^ p + significand) = significand * 2 ^ shift := by
  have hpos := Nat.two_pow_pos p
  have hlt := h.lt
  rw [Nat.pow_succ] at hlt
  rw [codeValue]
  by_cases hsmall : significand < 2 ^ p
  · obtain rfl : shift = 0 := h.normal.resolve_right (Nat.not_le.mpr hsmall)
    simp [Nat.div_eq_of_lt hsmall, Nat.mod_eq_of_lt hsmall]
  · have hcode : shift * 2 ^ p + significand = significand - 2 ^ p + 2 ^ p * (shift + 1) := by
      rw [Nat.mul_succ, Nat.mul_comm shift]
      omega
    have hfraction : significand - 2 ^ p < 2 ^ p := by omega
    rw [hcode, Nat.add_mul_div_left _ _ hpos, Nat.add_mul_mod_self_left, Nat.div_eq_of_lt hfraction,
      Nat.mod_eq_of_lt hfraction, if_neg (by omega)]
    congr 2 <;> omega

/-- Every code has one. -/
theorem exists_normal (p code : Nat) :
    ∃ shift significand, code = shift * 2 ^ p + significand ∧ Normal p shift significand := by
  have hpos := Nat.two_pow_pos p
  have hmod := Nat.mod_lt code hpos
  have hdiv := Nat.div_add_mod code (2 ^ p)
  by_cases hzero : code / 2 ^ p = 0
  · refine ⟨0, code, by simp, ?_, .inl rfl⟩
    rw [hzero, Nat.mul_zero, Nat.zero_add] at hdiv
    rw [Nat.pow_succ]
    omega
  · obtain ⟨shift, hshift⟩ := Nat.exists_eq_succ_of_ne_zero hzero
    refine ⟨shift, 2 ^ p + code % 2 ^ p, ?_, ?_, .inr (Nat.le_add_right _ _)⟩
    · rw [hshift, Nat.succ_eq_add_one, Nat.mul_succ, Nat.mul_comm] at hdiv
      omega
    · rw [Nat.pow_succ]
      omega

/-- The codes are in the order of their numbers. -/
theorem codeValue_strictMono (p : Nat) : StrictMono (codeValue p) := by
  apply strictMono_nat_of_lt_succ
  intro code
  obtain ⟨shift, significand, rfl, h⟩ := exists_normal p code
  have hstep : codeValue p (shift * 2 ^ p + significand + 1) = (significand + 1) * 2 ^ shift := by
    by_cases hlast : significand + 1 < 2 ^ (p + 1)
    · exact codeValue_normal ⟨hlast, h.normal.imp_right fun h => Nat.le_succ_of_le h⟩
    · -- the significand overflows into the exponent
      have hlt := h.lt
      have hsignificand : significand + 1 = 2 ^ (p + 1) := by omega
      have hcode : shift * 2 ^ p + significand + 1 = (shift + 1) * 2 ^ p + 2 ^ p := by
        rw [Nat.add_assoc, hsignificand, Nat.pow_succ]
        ring
      rw [hcode, codeValue_normal ⟨Nat.pow_lt_pow_right (by decide) (Nat.lt_succ_self p), .inr (Nat.le_refl _)⟩,
        hsignificand, Nat.pow_succ, Nat.pow_succ]
      ring
  rw [hstep, codeValue_normal h, Nat.succ_mul]
  exact Nat.lt_add_of_pos_right (Nat.two_pow_pos shift)

/-! ### Rounding -/

/-- A division to an integer that passes no integer by. -/
structure Rounds (rd : Nat → Nat → Nat) : Prop where
  le : ∀ {a b m}, 0 < b → m * b ≤ a → m ≤ rd a b
  ge : ∀ {a b m}, 0 < b → a ≤ m * b → rd a b ≤ m

/-- The code of `num / den`, its significand rounded by `rd`. -/
def roundCode (rd : Nat → Nat → Nat) (p num den : Nat) : Nat :=
  let shift := Nat.log2 (num / den) - p
  shift * 2 ^ p + rd num (den * 2 ^ shift)

variable {rd : Nat → Nat → Nat} {num den code : Nat}

/-- The leading bit of a number above the subnormal ones. -/
theorem two_pow_le_of_shift (hden : 0 < den) (hshift : 0 < Nat.log2 (num / den) - p) :
    2 ^ (Nat.log2 (num / den) - p + p) * den ≤ num := by
  have hne : num / den ≠ 0 := by
    intro h
    rw [h, Nat.log2_zero] at hshift
    omega
  rw [Nat.sub_add_cancel (by omega)]
  exact (Nat.le_div_iff_mul_le hden).mp (Nat.log2_self_le hne)

theorem lt_two_pow_of_shift (hden : 0 < den) : num < 2 ^ (Nat.log2 (num / den) - p + (p + 1)) * den := by
  have hlt : num / den < 2 ^ (Nat.log2 (num / den) + 1) := Nat.lt_log2_self
  refine (Nat.div_lt_iff_lt_mul hden).mp (Nat.lt_of_lt_of_le hlt ?_)
  exact Nat.pow_le_pow_right (by decide) (by omega)

/-- Rounding passes no code by: from above. -/
theorem le_roundCode (h : Rounds rd) (hden : 0 < den) (hle : codeValue p code * den ≤ num) :
    code ≤ roundCode rd p num den := by
  obtain ⟨shift, significand, rfl, hnormal⟩ := exists_normal p code
  rw [codeValue_normal hnormal] at hle
  rw [roundCode]
  have hover := @lt_two_pow_of_shift p num den hden
  have hlead := @two_pow_le_of_shift p num den hden
  generalize Nat.log2 (num / den) - p = shift' at *
  have hlt := hnormal.lt
  rcases Nat.lt_trichotomy shift' shift with hshift | rfl | hshift
  · -- the number is too large for so small an exponent
    have hbig : 2 ^ (shift' + (p + 1)) * den ≤ num := by
      calc 2 ^ (shift' + (p + 1)) * den ≤ 2 ^ (p + shift) * den :=
            Nat.mul_le_mul_right _ (Nat.pow_le_pow_right (by decide) (by omega))
        _ = 2 ^ p * 2 ^ shift * den := by rw [Nat.pow_add]
        _ ≤ significand * 2 ^ shift * den :=
            Nat.mul_le_mul_right _ (Nat.mul_le_mul_right _ (hnormal.normal.resolve_left (by omega)))
        _ ≤ num := hle
    omega
  · exact Nat.add_le_add_left (h.le (Nat.mul_pos hden (Nat.two_pow_pos _)) (by
      calc significand * (den * 2 ^ shift') = significand * 2 ^ shift' * den := by ring
        _ ≤ num := hle)) _
  · have hsignificand : 2 ^ p ≤ rd num (den * 2 ^ shift') := h.le (Nat.mul_pos hden (Nat.two_pow_pos _)) (by
      calc 2 ^ p * (den * 2 ^ shift') = 2 ^ (shift' + p) * den := by rw [Nat.pow_add]; ring
        _ ≤ num := hlead (by omega))
    have hstep : (shift + 1) * 2 ^ p ≤ shift' * 2 ^ p := Nat.mul_le_mul_right _ hshift
    rw [Nat.succ_mul] at hstep
    rw [Nat.pow_succ] at hlt
    omega

/-- Rounding passes no code by: from below. -/
theorem roundCode_le (h : Rounds rd) (hden : 0 < den) (hle : num ≤ codeValue p code * den) :
    roundCode rd p num den ≤ code := by
  obtain ⟨shift, significand, rfl, hnormal⟩ := exists_normal p code
  rw [codeValue_normal hnormal] at hle
  rw [roundCode]
  have hover := @lt_two_pow_of_shift p num den hden
  have hlead := @two_pow_le_of_shift p num den hden
  generalize Nat.log2 (num / den) - p = shift' at *
  have hlt := hnormal.lt
  rcases Nat.lt_trichotomy shift' shift with hshift | rfl | hshift
  · have hsignificand : rd num (den * 2 ^ shift') ≤ 2 ^ (p + 1) :=
      h.ge (Nat.mul_pos hden (Nat.two_pow_pos _)) (by
        calc num ≤ 2 ^ (shift' + (p + 1)) * den := hover.le
          _ = 2 ^ (p + 1) * (den * 2 ^ shift') := by rw [Nat.pow_add]; ring)
    have hstep : (shift' + 1) * 2 ^ p ≤ shift * 2 ^ p := Nat.mul_le_mul_right _ hshift
    have hnormal := hnormal.normal.resolve_left (by omega)
    rw [Nat.succ_mul] at hstep
    rw [Nat.pow_succ] at hsignificand
    omega
  · exact Nat.add_le_add_left (h.ge (Nat.mul_pos hden (Nat.two_pow_pos _)) (by
      calc num ≤ significand * 2 ^ shift' * den := hle
        _ = significand * (den * 2 ^ shift') := by ring)) _
  · -- the number is too small for so large an exponent
    have hbig : num < 2 ^ (shift' + p) * den := by
      calc num ≤ significand * 2 ^ shift * den := hle
        _ < 2 ^ (p + 1) * 2 ^ shift * den :=
            Nat.mul_lt_mul_of_pos_right (Nat.mul_lt_mul_of_pos_right hlt (Nat.two_pow_pos _)) hden
        _ = 2 ^ (p + 1 + shift) * den := by rw [← Nat.pow_add]
        _ ≤ 2 ^ (shift' + p) * den := Nat.mul_le_mul_right _ (Nat.pow_le_pow_right (by decide) (by omega))
    have hlead := hlead (by omega)
    omega

/-- A number that has a code is rounded to it. -/
theorem roundCode_exact (h : Rounds rd) (hden : 0 < den) (heq : num = codeValue p code * den) :
    roundCode rd p num den = code :=
  Nat.le_antisymm (roundCode_le h hden (Nat.le_of_eq heq)) (le_roundCode h hden (Nat.le_of_eq heq.symm))

end Bytewright.Library
