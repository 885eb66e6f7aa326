/-! # Signed division on machine words

Truncating division as a language with undefined overflow has it, and the law that ties quotient
and remainder together on words that wrap around. -/

namespace Bytewright.Library.Signed

/-- The word that holds `z`, if one does. -/
def fit (z : Int) : Option Int64 :=
  if Int64.minValue.toInt ≤ z ∧ z ≤ Int64.maxValue.toInt then some (Int64.ofInt z) else none

/-- `x / y`, where it is defined. -/
def div (x y : Int64) : Option Int64 := if y = 0 then none else fit (x.toInt.tdiv y.toInt)

/-- `x % y`, which is defined where `x / y` is. -/
def mod (x y : Int64) : Option Int64 := (div x y).bind fun _ => fit (x.toInt.tmod y.toInt)

theorem fit_toInt (x : Int64) : fit x.toInt = some x := by
  rw [fit, if_pos ⟨x.minValue_le_toInt, x.toInt_le⟩, Int64.ofInt_toInt]

/-- One quotient of words is no word, that of the least by `-1`. -/
theorem div_eq_some {x y : Int64} (hy : y ≠ 0) (h : ¬ (y = -1 ∧ x = Int64.minValue)) :
    div x y = some (x / y) := by
  have hquot : (x / y).toInt = x.toInt.tdiv y.toInt := by
    by_cases hx : x = Int64.minValue
    · exact Int64.toInt_div_of_ne_right x y fun hone => h ⟨hone, hx⟩
    · exact Int64.toInt_div_of_ne_left x y hx
  rw [div, if_neg hy, ← hquot, fit_toInt]

example : div Int64.minValue (-1) = none := by decide

theorem mod_eq_some {x y : Int64} (hy : y ≠ 0) (h : ¬ (y = -1 ∧ x = Int64.minValue)) :
    mod x y = some (x % y) := by
  rw [mod, div_eq_some hy h, Option.bind_some, ← Int64.toInt_mod, fit_toInt]

/-- Quotient times divisor plus remainder, around the word. -/
theorem div_mul_add_mod (x y : Int64) : x / y * y + x % y = x := by
  have hquot : Int64.ofInt (x.toInt.tdiv y.toInt) = x / y :=
    (Int64.ofInt_eq_iff_bmod_eq_toInt _ _).mpr (Int64.toInt_div x y).symm
  calc x / y * y + x % y
      = Int64.ofInt (x.toInt.tdiv y.toInt) * Int64.ofInt y.toInt + Int64.ofInt (x % y).toInt := by
        rw [hquot, Int64.ofInt_toInt, Int64.ofInt_toInt]
    _ = Int64.ofInt (x.toInt.tdiv y.toInt * y.toInt + x.toInt.tmod y.toInt) := by
        rw [Int64.ofInt_add, Int64.ofInt_mul, Int64.toInt_mod]
    _ = x := by rw [Int.tdiv_mul_add_tmod, Int64.ofInt_toInt]

theorem toInt_ne_zero {y : Int64} (hy : y ≠ 0) : y.toInt ≠ 0 := fun h => hy (Int64.toInt_inj.mp h)

theorem natAbs_mod_lt (x : Int64) {y : Int64} (hy : y ≠ 0) :
    (x % y).toInt.natAbs < y.toInt.natAbs := by
  rw [Int64.toInt_mod, Int.natAbs_tmod]
  exact Nat.mod_lt _ (Int.natAbs_pos.mpr (toInt_ne_zero hy))

/-- A remainder has the sign of what was divided. -/
theorem mod_eq_zero_or_sign (x y : Int64) : x % y = 0 ∨ (x % y).toInt.sign = x.toInt.sign := by
  by_cases h : y.toInt ∣ x.toInt
  · left
    apply Int64.toInt_inj.mp
    rw [Int64.toInt_mod, Int.tmod_eq_zero_of_dvd h]
    rfl
  · right
    rw [Int64.toInt_mod, Int.sign_tmod, if_neg h]

end Bytewright.Library.Signed
