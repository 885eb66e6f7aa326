import Bytewright.Model.Cfgscript.Evaluator
import Bytewright.Verification.Common.Double

/-! # Comparisons

The operators that compare two values, against the order of the numbers and strings that these are. -/

namespace Bytewright.Cfgscript

open Bytewright.Common

/-! ### Numbers -/

/-- The number that a value is, in the units of `Double.signedUnits`. -/
def Value.amount : Value → Option Int
  | .int i => some (Double.unitsOfInt i.toInt)
  | .float f => if f.isNan then none else some f.signedUnits
  | _ => none

variable {value : Value} {n : Int} {bound : Double}

theorem amount_float {f : Double} : (Value.float f).amount = some n ↔ f.IsNumber ∧ f.signedUnits = n := by
  rw [Value.amount, Double.IsNumber]
  cases f.isNan <;> simp

theorem isNumber_of_amount (h : value.amount = some n) : value.isNumber = true ∧ value.asDouble.IsNumber := by
  cases value with
  | int i => exact ⟨rfl, Double.ofInt64_isNumber i⟩
  | float f => exact ⟨rfl, (amount_float.mp h).1⟩
  | _ => cases h

theorem exists_amount (h : value.isNumber = true) (hnumber : value.asDouble.IsNumber) : ∃ n, value.amount = some n := by
  cases value with
  | int i => exact ⟨_, rfl⟩
  | float f => exact ⟨_, amount_float.mpr ⟨hnumber, rfl⟩⟩
  | _ => cases h

/-- A value that is found less than a bound is less. -/
theorem lt_of_asDouble_lt (h : value.amount = some n) (hlt : value.asDouble.lt bound = true) :
    n < bound.signedUnits := by
  have hbound := (Double.isNumber_of_lt hlt).2
  cases value with
  | int i =>
      obtain rfl : Double.unitsOfInt i.toInt = n := Option.some.inj h
      exact Double.lt_of_ofInt64_lt hbound hlt
  | float f =>
      obtain ⟨hf, rfl⟩ := amount_float.mp h
      exact (Double.lt_iff hf hbound).mp hlt
  | _ => cases h

theorem lt_of_lt_asDouble (h : value.amount = some n) (hlt : bound.lt value.asDouble = true) :
    bound.signedUnits < n := by
  have hbound := (Double.isNumber_of_lt hlt).1
  cases value with
  | int i =>
      obtain rfl : Double.unitsOfInt i.toInt = n := Option.some.inj h
      exact Double.lt_of_lt_ofInt64 hbound hlt
  | float f =>
      obtain ⟨hf, rfl⟩ := amount_float.mp h
      exact (Double.lt_iff hbound hf).mp hlt
  | _ => cases h

/-- If the value is an integer, it is a double. -/
def Value.Exact (value : Value) : Prop := ∀ i, value = .int i → i.toInt.natAbs ≤ Double.exactBound

/-- Other values are found less exactly if they are. -/
theorem asDouble_lt_iff (h : value.amount = some n) (hbound : bound.IsNumber)
    (hexact : value.Exact ∨ bound.Moderate) : value.asDouble.lt bound = true ↔ n < bound.signedUnits := by
  cases value with
  | int i =>
      obtain rfl : Double.unitsOfInt i.toInt = n := Option.some.inj h
      exact Double.ofInt64_lt_iff hbound (hexact.imp_left fun h => h i rfl)
  | float f =>
      obtain ⟨hf, rfl⟩ := amount_float.mp h
      exact Double.lt_iff hf hbound
  | _ => cases h

theorem lt_asDouble_iff (h : value.amount = some n) (hbound : bound.IsNumber)
    (hexact : value.Exact ∨ bound.Moderate) : bound.lt value.asDouble = true ↔ bound.signedUnits < n := by
  cases value with
  | int i =>
      obtain rfl : Double.unitsOfInt i.toInt = n := Option.some.inj h
      exact Double.lt_ofInt64_iff hbound (hexact.imp_left fun h => h i rfl)
  | float f =>
      obtain ⟨hf, rfl⟩ := amount_float.mp h
      exact Double.lt_iff hbound hf
  | _ => cases h

/-! ### The order of the values -/

/-- Both are numbers, or both are strings. -/
def Value.Comparable (a b : Value) : Prop :=
  (a.isNumber = true ∧ b.isNumber = true) ∨ (a.isStr = true ∧ b.isStr = true)

/-- `a` is less than `b`: as an exact number, or as a string of bytes. -/
inductive Value.Less : Value → Value → Prop
  | number {a b : Value} {m n : Int} (ha : a.amount = some m) (hb : b.amount = some n) (hlt : m < n) : Less a b
  | text {s t : Bytes} (hlt : s < t) : Less (.str s) (.str t)

/-- The values can be told from each other, even if one of them has to be converted. -/
def Value.Distinguished : Value → Value → Prop
  | .int i, .float f | .float f, .int i => i.toInt.natAbs ≤ Double.exactBound ∨ f.Moderate
  | _, _ => True

theorem distinguished_comm (a b : Value) : a.Distinguished b ↔ b.Distinguished a := by
  cases a <;> cases b <;> rfl

/-! ### Numbers -/

variable {a b : Value}

/-- What `compareNumbers` finds less. -/
def foundLess : Value → Value → Bool
  | .int i, .int j => i < j
  | a, b => a.asDouble.lt b.asDouble

theorem foundLess_double (h : ∀ i j, a = .int i → b = .int j → False) :
    foundLess a b = a.asDouble.lt b.asDouble := foundLess.eq_2 a b h

theorem compareNumbers_eq (a b : Value) :
    compareNumbers a b = if foundLess a b then -1 else if foundLess b a then 1 else 0 := by
  by_cases h : ∃ i j, a = .int i ∧ b = .int j
  · obtain ⟨i, j, rfl, rfl⟩ := h
    simp [compareNumbers, foundLess]
  · have hab : ∀ i j, a = .int i → b = .int j → False := fun i j ha hb => h ⟨i, j, ha, hb⟩
    have hba : ∀ i j, b = .int i → a = .int j → False := fun i j hb ha => h ⟨j, i, ha, hb⟩
    rw [compareNumbers.eq_2 a b hab, foundLess_double hab, foundLess_double hba]

theorem lt_asymm {x y : Double} (h : x.lt y = true) : y.lt x = false := by
  obtain ⟨hx, hy⟩ := Double.isNumber_of_lt h
  rw [Double.lt_iff hx hy] at h
  rw [← Bool.not_eq_true, Double.lt_iff hy hx]
  omega

theorem foundLess_asymm (h : foundLess a b = true) : foundLess b a = false := by
  by_cases hint : ∃ i j, a = .int i ∧ b = .int j
  · obtain ⟨i, j, rfl, rfl⟩ := hint
    simp only [foundLess, decide_eq_true_eq, decide_eq_false_iff_not, Int64.lt_iff_toInt_lt] at h ⊢
    omega
  · rw [foundLess_double fun i j ha hb => hint ⟨i, j, ha, hb⟩] at h
    rw [foundLess_double fun i j hb ha => hint ⟨j, i, ha, hb⟩]
    exact lt_asymm h

theorem unitsOfInt_lt_iff (i j : Int64) : Double.unitsOfInt i.toInt < Double.unitsOfInt j.toInt ↔ i < j := by
  have hpos : (0 : Int) < Double.unitsPerOne := Int.natCast_pos.mpr Double.unitsPerOne_pos
  rw [Int64.lt_iff_toInt_lt]
  exact Int.mul_lt_mul_right hpos

/-- What is found less is less. -/
theorem less_of_foundLess (ha : a.isNumber = true) (hb : b.isNumber = true) (h : foundLess a b = true) : a.Less b := by
  cases a with
  | int i =>
      cases b with
      | int j => exact .number rfl rfl ((unitsOfInt_lt_iff i j).mpr (by simpa [foundLess] using h))
      | float g =>
          have hg := amount_float.mpr ⟨(Double.isNumber_of_lt h).2, rfl⟩
          exact .number rfl hg (lt_of_asDouble_lt rfl h)
      | _ => cases hb
  | float f =>
      have hf := amount_float.mpr ⟨(Double.isNumber_of_lt h).1, rfl⟩
      obtain ⟨n, hn⟩ := exists_amount hb (Double.isNumber_of_lt h).2
      exact .number hf hn (lt_of_lt_asDouble hn h)
  | _ => cases ha

/-- And what is less is found less, if it can be told. -/
theorem foundLess_of_less (hd : a.Distinguished b) {m n : Int} (ha : a.amount = some m) (hb : b.amount = some n)
    (hlt : m < n) : foundLess a b = true := by
  cases a with
  | int i =>
      obtain rfl : Double.unitsOfInt i.toInt = m := Option.some.inj ha
      cases b with
      | int j =>
          obtain rfl : Double.unitsOfInt j.toInt = n := Option.some.inj hb
          simpa [foundLess] using (unitsOfInt_lt_iff i j).mp hlt
      | float g =>
          obtain ⟨hg, rfl⟩ := amount_float.mp hb
          exact (Double.ofInt64_lt_iff hg hd).mpr hlt
      | _ => cases hb
  | float f =>
      obtain ⟨hf, rfl⟩ := amount_float.mp ha
      cases b with
      | int j =>
          obtain rfl : Double.unitsOfInt j.toInt = n := Option.some.inj hb
          exact (Double.lt_ofInt64_iff hf hd).mpr hlt
      | float g =>
          obtain ⟨hg, rfl⟩ := amount_float.mp hb
          exact (Double.lt_iff hf hg).mpr hlt
      | _ => cases hb
  | _ => cases ha

/-! ### Strings -/

theorem compareBytes_eq (s t : Bytes) : compareBytes s t = if s < t then -1 else if t < s then 1 else 0 := by
  induction s generalizing t with
  | nil => cases t <;> simp [compareBytes]
  | cons c s ih =>
      cases t with
      | nil => simp [compareBytes]
      | cons d t =>
          rw [compareBytes]
          by_cases heq : c = d
          · simp [heq, ih]
          · by_cases hlt : c < d
            · simp [List.cons_lt_cons_iff, heq, hlt]
            · have hgt : d < c := by grind
              simp [List.cons_lt_cons_iff, Ne.symm heq, heq, hlt, hgt]

/-! ### The operators -/

/-- The six operators as they follow from two of them. -/
structure Orders (a b : Value) (at_ : Nat) (less greater : Bool) : Prop where
  lt : evalBinary .kLt a b at_ = .ok (.bool less)
  gt : evalBinary .kGt a b at_ = .ok (.bool greater)
  le : evalBinary .kLe a b at_ = .ok (.bool !greater)
  ge : evalBinary .kGe a b at_ = .ok (.bool !less)
  eq : evalBinary .kEq a b at_ = .ok (.bool (!less && !greater))
  ne : evalBinary .kNe a b at_ = .ok (.bool (less || greater))

/-- The operators read the sign of a comparison. -/
theorem orders_sign {at_ : Nat} {c : Int} {less greater : Bool} (hsign : c = if less then -1 else if greater then 1 else 0)
    (hnot : less = true → greater = false)
    (hlt : evalBinary .kLt a b at_ = .ok (.bool (decide (c < 0))))
    (hgt : evalBinary .kGt a b at_ = .ok (.bool (decide (c > 0))))
    (hle : evalBinary .kLe a b at_ = .ok (.bool (decide (c ≤ 0))))
    (hge : evalBinary .kGe a b at_ = .ok (.bool (decide (c ≥ 0))))
    (heq : evalBinary .kEq a b at_ = .ok (.bool (decide (c = 0))))
    (hne : evalBinary .kNe a b at_ = .ok (.bool (!decide (c = 0)))) : Orders a b at_ less greater := by
  subst hsign
  cases less with
  | true =>
      obtain rfl : greater = false := hnot rfl
      exact ⟨hlt, hgt, hle, hge, heq, hne⟩
  | false => cases greater <;> exact ⟨hlt, hgt, hle, hge, heq, hne⟩

theorem orders_numbers (ha : a.isNumber = true) (hb : b.isNumber = true) (at_ : Nat) :
    Orders a b at_ (foundLess a b) (foundLess b a) := by
  have hsign := @orders_sign a b at_ _ _ _ (compareNumbers_eq a b) foundLess_asymm
  cases a with
  | int i =>
      cases b with
      | int j => exact hsign rfl rfl rfl rfl rfl rfl
      | float g => exact hsign rfl rfl rfl rfl rfl rfl
      | _ => cases hb
  | float f =>
      cases b with
      | int j => exact hsign rfl rfl rfl rfl rfl rfl
      | float g => exact hsign rfl rfl rfl rfl rfl rfl
      | _ => cases hb
  | _ => cases ha

theorem orders_strings (s t : Bytes) (at_ : Nat) :
    Orders (.str s) (.str t) at_ (decide (s < t)) (decide (t < s)) := by
  have hsign : compareBytes s t = if decide (s < t) then -1 else if decide (t < s) then 1 else 0 := by
    rw [compareBytes_eq]
    simp
  have hequal : (s == t) = decide (compareBytes s t = 0) := by
    rw [compareBytes_eq, Bool.eq_iff_iff]
    by_cases hlt : s < t
    · have hne : s ≠ t := fun heq => Std.lt_irrefl (heq ▸ hlt)
      simp [hlt, hne]
    · by_cases hgt : t < s
      · have hne : s ≠ t := fun heq => Std.lt_irrefl (heq ▸ hgt)
        simp [hlt, hgt, hne]
      · have heq : s = t := Std.le_antisymm (Std.not_lt.mp hgt) (Std.not_lt.mp hlt)
        simp [heq, Std.lt_irrefl]
  apply orders_sign hsign
  · intro hlt
    simpa using Std.le_of_lt (of_decide_eq_true hlt)
  · rfl
  · rfl
  · rfl
  · rfl
  · exact congrArg (fun b => Except.ok (Value.bool b)) hequal
  · exact congrArg (fun b => Except.ok (Value.bool !b)) hequal

theorem amounts_of_less (h : a.Less b) (ha : a.isNumber = true) :
    ∃ m n, a.amount = some m ∧ b.amount = some n ∧ m < n := by
  cases h with
  | number hm hn hlt => exact ⟨_, _, hm, hn, hlt⟩
  | text _ => cases ha

theorem lt_of_less_text {s t : Bytes} (h : (Value.str s).Less (.str t)) : s < t := by
  cases h with
  | number hm _ _ => cases hm
  | text hlt => exact hlt

theorem not_comparable_throws (h : ¬ a.Comparable b) {op : TokenKind} (hop : op ∈ [.kLt, .kLe, .kGt, .kGe])
    (at_ : Nat) : evalBinary op a b at_ =
      .error (.thrown ⟨.kBadType, at_, "comparison requires two numbers or two strings"⟩) := by
  have hnumbers : (a.isNumber && b.isNumber) = false := by
    rw [← Bool.not_eq_true, Bool.and_eq_true_iff]
    exact fun hboth => h (.inl hboth)
  have hcompare : evalBinary op a b at_ = evalCompare op a b at_ := by
    simp only [List.mem_cons, List.not_mem_nil, or_false] at hop
    rcases hop with rfl | rfl | rfl | rfl <;> rfl
  rw [hcompare, evalCompare, if_neg (by rw [hnumbers]; decide)]
  · rfl
  · rintro s t rfl rfl
    exact h (.inr ⟨rfl, rfl⟩)

/-- The operators that compare agree with one another on numbers and on strings, and throw for other values.
None of them takes a value for less than one it is not less than; where neither is found less, the two are
equal if they can be told from each other. -/
theorem evalBinary_orders (a b : Value) (at_ : Nat) :
    (a.Comparable b → ∃ less greater, Orders a b at_ less greater ∧ (less && greater) = false ∧
      (less = true → a.Less b) ∧ (greater = true → b.Less a) ∧
      (a.Distinguished b → (a.Less b → less = true) ∧ (b.Less a → greater = true))) ∧
    (¬ a.Comparable b → ∀ op ∈ [TokenKind.kLt, .kLe, .kGt, .kGe], evalBinary op a b at_ =
      .error (.thrown ⟨.kBadType, at_, "comparison requires two numbers or two strings"⟩)) := by
  refine ⟨fun h => ?_, fun h op hop => not_comparable_throws h hop at_⟩
  cases h with
  | inl hnumbers =>
      obtain ⟨ha, hb⟩ := hnumbers
      refine ⟨_, _, orders_numbers ha hb at_, ?_, less_of_foundLess ha hb, less_of_foundLess hb ha, fun hd => ⟨?_, ?_⟩⟩
      · cases hless : foundLess a b with
        | true => rw [foundLess_asymm hless, Bool.and_false]
        | false => rfl
      · intro hless
        obtain ⟨m, n, hm, hn, hlt⟩ := amounts_of_less hless ha
        exact foundLess_of_less hd hm hn hlt
      · intro hless
        obtain ⟨m, n, hm, hn, hlt⟩ := amounts_of_less hless hb
        exact foundLess_of_less ((distinguished_comm a b).mp hd) hm hn hlt
  | inr hstrings =>
      obtain ⟨ha, hb⟩ := hstrings
      cases a with
      | str s =>
          cases b with
          | str t =>
              refine ⟨_, _, orders_strings s t at_, ?_, fun h => .text (of_decide_eq_true h),
                fun h => .text (of_decide_eq_true h), fun _ =>
                ⟨fun h => decide_eq_true (lt_of_less_text h), fun h => decide_eq_true (lt_of_less_text h)⟩⟩
              by_cases hlt : s < t
              · simp [Std.not_lt.mpr (Std.le_of_lt hlt)]
              · simp [hlt]
          | _ => cases hb
      | _ => cases ha

-- as a double, 2 ^ 53 + 1 is 2 ^ 53
example : compareNumbers (.int 9007199254740993) (.float (Double.ofInt64 9007199254740992)) = 0 := by
  decide +kernel

end Bytewright.Cfgscript
