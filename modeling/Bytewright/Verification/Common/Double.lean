import Bytewright.Library.FloatCode
import Bytewright.Model.Common.Double

/-! # Comparing doubles

Doubles in the order of the numbers they stand for, and how far an integer that is converted to a double
keeps its place among them. -/

namespace Bytewright.Common

open Bytewright.Library

theorem rounds_roundHalfEven : Rounds roundHalfEven where
  le {a b m} hb h := by
    have hdiv : m ≤ a / b := (Nat.le_div_iff_mul_le hb).mpr h
    rw [roundHalfEven]
    split_ifs <;> omega
  ge {a b m} hb h := by
    rw [roundHalfEven]
    rcases Nat.eq_or_lt_of_le h with rfl | hlt
    · simp [Nat.mul_div_cancel _ hb, hb]
    · have hdiv : a / b < m := (Nat.div_lt_iff_lt_mul hb).mpr hlt
      have hmod : a / b % 2 ≤ 1 := by omega
      split_ifs <;> omega

namespace Double

theorem units_eq (x : Double) : x.units = codeValue 52 x.code := rfl

theorem nearestCode_eq (num den : Nat) :
    nearestCode num den = min infCode (roundCode roundHalfEven 52 (num * unitsPerOne) den) := rfl

theorem unitsPerOne_pos : 0 < unitsPerOne := by
  have hpos : ∀ n, unitsPerOne = 2 ^ n → 0 < unitsPerOne := by
    intro n h
    rw [h]
    exact Nat.two_pow_pos n
  exact hpos 1074 rfl

/-! ### The order -/

/-- A double that is a number, of either sign and possibly infinite. -/
def IsNumber (x : Double) : Prop := x.isNan = false

theorem rank_lt_iff (x y : Double) : x.rank < y.rank ↔ x.signedUnits < y.signedUnits := by
  have hlt : ∀ c c' : Nat, c < c' ↔ codeValue 52 c < codeValue 52 c' := fun c c' =>
    (codeValue_strictMono 52).lt_iff_lt.symm
  have hzero : codeValue 52 0 = 0 := by decide
  have hpos : ∀ c : Nat, 0 < c ↔ 0 < codeValue 52 c := fun c => by rw [hlt 0 c, hzero]
  have hx := hpos x.code
  have hy := hpos y.code
  have hxy := hlt x.code y.code
  have hyx := hlt y.code x.code
  rw [rank, rank, signedUnits, signedUnits, units_eq, units_eq]
  split_ifs <;> omega

/-- `<` on doubles is that of the numbers. -/
theorem lt_iff {x y : Double} (hx : x.IsNumber) (hy : y.IsNumber) :
    x.lt y = true ↔ x.signedUnits < y.signedUnits := by
  rw [← rank_lt_iff, lt, hx, hy]
  simp

theorem isNumber_of_lt {x y : Double} (h : x.lt y = true) : x.IsNumber ∧ y.IsNumber := by
  simp [lt] at h
  exact ⟨h.1.1, h.1.2⟩

/-! ### Integers -/

/-- An integer in the units of `signedUnits`. -/
def unitsOfInt (i : Int) : Int := i * unitsPerOne

theorem ofCode_code {negative : Bool} {code : Nat} (h : code ≤ infCode) : (ofCode negative code).code = code := by
  have hlt : code < 2 ^ 63 := Nat.lt_of_le_of_lt h (by decide)
  rw [Double.code, ofCode, UInt64.toNat_and, UInt64.toNat_or, UInt64.toNat_ofNat_of_lt' (Nat.lt_trans hlt (by decide))]
  change (code ||| _) &&& (2 ^ 63 - 1) = code
  rw [Nat.and_two_pow_sub_one_eq_mod, Nat.or_mod_two_pow, Nat.mod_eq_of_lt hlt]
  cases negative <;> simp

theorem ofCode_negative {negative : Bool} {code : Nat} (h : code ≤ infCode) :
    (ofCode negative code).negative = negative := by
  have hlt : code < 2 ^ 63 := Nat.lt_of_le_of_lt h (by decide)
  have hbits : ((ofCode negative code).bits >>> 63).toNat = if negative then 1 else 0 := by
    rw [ofCode, UInt64.toNat_shiftRight, UInt64.toNat_or, UInt64.toNat_ofNat_of_lt' (Nat.lt_trans hlt (by decide))]
    change (code ||| _) >>> 63 = _
    rw [Nat.shiftRight_or_distrib, Nat.shiftRight_eq_div_pow, Nat.div_eq_of_lt hlt]
    cases negative <;> rfl
  rw [Double.negative]
  cases negative
  · simpa [← UInt64.toNat_inj] using hbits
  · simp [← UInt64.toNat_inj, hbits]

section Integers

variable (i : Int64)

theorem nearestCode_le_infCode (num den : Nat) : nearestCode num den ≤ infCode := by
  rw [nearestCode_eq]
  exact Nat.min_le_left _ _

theorem ofInt64_code : (ofInt64 i).code = nearestCode i.toInt.natAbs 1 :=
  ofCode_code (nearestCode_le_infCode _ _)

theorem ofInt64_negative : (ofInt64 i).negative = decide (i.toInt < 0) := by
  rw [ofInt64, ofRatio, ofCode_negative (nearestCode_le_infCode _ _)]
  exact decide_eq_decide.mpr Int64.lt_iff_toInt_lt

theorem ofInt64_isNumber : (ofInt64 i).IsNumber := by
  have hle := nearestCode_le_infCode i.toInt.natAbs 1
  rw [IsNumber, isNan, ofInt64_code]
  simpa using hle

theorem unitsOfInt_eq (i : Int) :
    unitsOfInt i = if i < 0 then - ((i.natAbs * unitsPerOne : Nat) : Int) else (i.natAbs * unitsPerOne : Nat) := by
  rw [unitsOfInt, Int.natCast_mul]
  split_ifs with hi
  · rw [← Int.neg_mul, Int.ofNat_natAbs_of_nonpos hi.le, Int.neg_neg]
  · rw [Int.natAbs_of_nonneg (Int.not_lt.mp hi)]

theorem le_nearestCode {n code : Nat} (hcode : code ≤ infCode) (h : codeValue 52 code ≤ n * unitsPerOne) :
    code ≤ nearestCode n 1 :=
  le_min hcode (le_roundCode rounds_roundHalfEven Nat.one_pos (by rwa [Nat.mul_one]))

theorem nearestCode_le {n code : Nat} (h : n * unitsPerOne ≤ codeValue 52 code) : nearestCode n 1 ≤ code :=
  Nat.le_trans (Nat.min_le_right _ _) (roundCode_le rounds_roundHalfEven Nat.one_pos (by rwa [Nat.mul_one]))

variable {i} {y : Double}

theorem IsNumber.code_le (hy : y.IsNumber) : y.code ≤ infCode := by
  rw [IsNumber, isNan] at hy
  simpa using hy

theorem code_eq_zero (h : y.units = 0) : y.code = 0 := by
  have hzero : codeValue 52 0 = 0 := by decide
  exact (codeValue_strictMono 52).injective (h.trans hzero.symm)

/-- The conversion passes no double by. -/
theorem rank_ofInt64_le (h : unitsOfInt i.toInt ≤ y.signedUnits) (hy : y.IsNumber) :
    (ofInt64 i).rank ≤ y.rank := by
  have hle := @nearestCode_le i.toInt.natAbs y.code
  have hge := @le_nearestCode i.toInt.natAbs y.code hy.code_le
  have hzero := @nearestCode_le i.toInt.natAbs 0
  have hcode := @code_eq_zero y
  rw [← units_eq] at hle hge
  rw [unitsOfInt_eq, signedUnits] at h
  rw [rank, rank, ofInt64_negative, ofInt64_code]
  simp only [decide_eq_true_eq]
  split_ifs at h ⊢ <;> omega

theorem le_rank_ofInt64 (h : y.signedUnits ≤ unitsOfInt i.toInt) (hy : y.IsNumber) :
    y.rank ≤ (ofInt64 i).rank := by
  have hle := @nearestCode_le i.toInt.natAbs y.code
  have hge := @le_nearestCode i.toInt.natAbs y.code hy.code_le
  have hzero := @nearestCode_le i.toInt.natAbs 0
  have hcode := @code_eq_zero y
  rw [← units_eq] at hle hge
  rw [unitsOfInt_eq, signedUnits] at h
  rw [rank, rank, ofInt64_negative, ofInt64_code]
  simp only [decide_eq_true_eq]
  split_ifs at h ⊢ <;> omega

/-- An integer that is found less than a double is less. -/
theorem lt_of_ofInt64_lt (hy : y.IsNumber) (h : (ofInt64 i).lt y = true) : unitsOfInt i.toInt < y.signedUnits := by
  rw [lt_iff (ofInt64_isNumber i) hy, ← rank_lt_iff] at h
  by_contra hle
  exact Int.not_le.mpr h (le_rank_ofInt64 (Int.not_lt.mp hle) hy)

theorem lt_of_lt_ofInt64 (hy : y.IsNumber) (h : y.lt (ofInt64 i) = true) : y.signedUnits < unitsOfInt i.toInt := by
  rw [lt_iff hy (ofInt64_isNumber i), ← rank_lt_iff] at h
  by_contra hle
  exact Int.not_le.mpr h (rank_ofInt64_le (Int.not_lt.mp hle) hy)

/-- The integers up to here are doubles. -/
def exactBound : Nat := 2 ^ 53

/-- The code of an integer that is a double. -/
theorem exists_code {n : Nat} (h : n ≤ exactBound) : ∃ code ≤ infCode, codeValue 52 code = n * unitsPerOne := by
  by_cases hzero : n = 0
  · exact ⟨0, Nat.zero_le _, by rw [hzero, Nat.zero_mul]; decide⟩
  have hlow : 2 ^ n.log2 ≤ n := Nat.log2_self_le hzero
  have hhigh : n < 2 ^ (n.log2 + 1) := Nat.lt_log2_self
  by_cases hlast : n = exactBound
  · have hexponent : 52 + (1022 + 53) = 53 + 1074 := rfl
    exact ⟨(1022 + 53) * 2 ^ 52 + 2 ^ 52, by decide, by
      rw [codeValue_normal ⟨by decide, .inr (Nat.le_refl _)⟩, hlast, exactBound, unitsPerOne, ← Nat.pow_add,
        ← Nat.pow_add, hexponent]⟩
  · have hlog : n.log2 < 53 := (Nat.log2_lt hzero).mpr (Nat.lt_of_le_of_ne h hlast)
    have hnormal : Normal 52 (1022 + n.log2) (n * 2 ^ (52 - n.log2)) := by
      constructor
      · calc n * 2 ^ (52 - n.log2) < 2 ^ (n.log2 + 1) * 2 ^ (52 - n.log2) :=
              Nat.mul_lt_mul_of_pos_right hhigh (Nat.two_pow_pos _)
          _ = 2 ^ (52 + 1) := by rw [← Nat.pow_add]; congr 1; omega
      · right
        calc 2 ^ 52 = 2 ^ n.log2 * 2 ^ (52 - n.log2) := by rw [← Nat.pow_add]; congr 1; omega
          _ ≤ n * 2 ^ (52 - n.log2) := Nat.mul_le_mul_right _ hlow
    refine ⟨(1022 + n.log2) * 2 ^ 52 + n * 2 ^ (52 - n.log2), ?_, ?_⟩
    · have hlt := hnormal.lt
      rw [infCode]
      omega
    · rw [codeValue_normal hnormal, Nat.mul_assoc, ← Nat.pow_add, unitsPerOne]
      congr 2
      omega

theorem signedUnits_ofInt64 (h : i.toInt.natAbs ≤ exactBound) : (ofInt64 i).signedUnits = unitsOfInt i.toInt := by
  obtain ⟨code, hle, hcode⟩ := exists_code h
  have hround : roundCode roundHalfEven 52 (i.toInt.natAbs * unitsPerOne) 1 = code :=
    roundCode_exact rounds_roundHalfEven Nat.one_pos (by rw [Nat.mul_one, hcode])
  rw [signedUnits, ofInt64_negative, units_eq, ofInt64_code, nearestCode_eq, hround, Nat.min_eq_right hle, hcode,
    unitsOfInt_eq]
  simp only [decide_eq_true_eq]

/-- A double that lies among the integers that are doubles. -/
def Moderate (y : Double) : Prop := y.signedUnits.natAbs < exactBound * unitsPerOne

/-- The conversion keeps the order of the integers. -/
theorem signedUnits_ofInt64_le {j : Int64} (h : i.toInt ≤ j.toInt) (hj : j.toInt.natAbs ≤ exactBound) :
    (ofInt64 i).signedUnits ≤ unitsOfInt j.toInt := by
  have hunits : unitsOfInt i.toInt ≤ (ofInt64 j).signedUnits := by
    rw [signedUnits_ofInt64 hj]
    exact Int.mul_le_mul_of_nonneg_right h (Int.natCast_nonneg _)
  have hrank := rank_ofInt64_le hunits (ofInt64_isNumber j)
  rw [← signedUnits_ofInt64 hj]
  exact Int.not_lt.mp fun hlt => Int.not_lt.mpr hrank ((rank_lt_iff _ _).mpr hlt)

theorem le_signedUnits_ofInt64 {j : Int64} (h : j.toInt ≤ i.toInt) (hj : j.toInt.natAbs ≤ exactBound) :
    unitsOfInt j.toInt ≤ (ofInt64 i).signedUnits := by
  have hunits : (ofInt64 j).signedUnits ≤ unitsOfInt i.toInt := by
    rw [signedUnits_ofInt64 hj]
    exact Int.mul_le_mul_of_nonneg_right h (Int.natCast_nonneg _)
  have hrank := le_rank_ofInt64 hunits (ofInt64_isNumber j)
  rw [← signedUnits_ofInt64 hj]
  exact Int.not_lt.mp fun hlt => Int.not_lt.mpr hrank ((rank_lt_iff _ _).mpr hlt)

/-- The integers that are not among them, before and after the conversion. -/
theorem outside (h : ¬ i.toInt.natAbs ≤ exactBound) :
    (unitsOfInt exactBound ≤ unitsOfInt i.toInt ∧ unitsOfInt exactBound ≤ (ofInt64 i).signedUnits) ∨
      (unitsOfInt i.toInt ≤ - unitsOfInt exactBound ∧ (ofInt64 i).signedUnits ≤ - unitsOfInt exactBound) := by
  have hnonneg : (0 : Int) ≤ unitsPerOne := Int.natCast_nonneg _
  have hneg : unitsOfInt (- exactBound) = - unitsOfInt exactBound := Int.neg_mul _ _
  have hlarge : ((2 ^ 53 : Int64)).toInt = exactBound := by decide
  have hsmall : (- (2 ^ 53 : Int64)).toInt = - exactBound := by decide
  by_cases hpos : 0 ≤ i.toInt
  · have hle : (exactBound : Int) ≤ i.toInt := by omega
    have hconverted := @le_signedUnits_ofInt64 i (2 ^ 53) (by rwa [hlarge]) (by rw [hlarge]; exact Nat.le_refl _)
    rw [hlarge] at hconverted
    exact .inl ⟨Int.mul_le_mul_of_nonneg_right hle hnonneg, hconverted⟩
  · have hle : i.toInt ≤ - exactBound := by omega
    have hconverted := @signedUnits_ofInt64_le i (- 2 ^ 53) (by rwa [hsmall]) (by rw [hsmall]; decide)
    rw [hsmall, hneg] at hconverted
    rw [← hneg] at *
    exact .inr ⟨Int.mul_le_mul_of_nonneg_right hle hnonneg, hconverted⟩

theorem Moderate.bounds (h : y.Moderate) :
    - unitsOfInt exactBound < y.signedUnits ∧ y.signedUnits < unitsOfInt exactBound := by
  rw [Moderate] at h
  rw [unitsOfInt, ← Int.natCast_mul]
  omega

/-- An integer is compared with a double as if it had not been converted, if one of them is not too large. -/
theorem ofInt64_lt_iff (hy : y.IsNumber) (h : i.toInt.natAbs ≤ exactBound ∨ y.Moderate) :
    (ofInt64 i).lt y = true ↔ unitsOfInt i.toInt < y.signedUnits := by
  rw [lt_iff (ofInt64_isNumber i) hy]
  by_cases hsmall : i.toInt.natAbs ≤ exactBound
  · rw [signedUnits_ofInt64 hsmall]
  · have hbounds := (h.resolve_left hsmall).bounds
    have houtside := outside hsmall
    omega

theorem lt_ofInt64_iff (hy : y.IsNumber) (h : i.toInt.natAbs ≤ exactBound ∨ y.Moderate) :
    y.lt (ofInt64 i) = true ↔ y.signedUnits < unitsOfInt i.toInt := by
  rw [lt_iff hy (ofInt64_isNumber i)]
  by_cases hsmall : i.toInt.natAbs ≤ exactBound
  · rw [signedUnits_ofInt64 hsmall]
  · have hbounds := (h.resolve_left hsmall).bounds
    have houtside := outside hsmall
    omega

end Integers

end Double

end Bytewright.Common
