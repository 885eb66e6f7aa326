import Mathlib.Tactic.Ring

/-! Numerals as ASCII byte strings, decimal ones above all. -/

namespace Bytewright.Library

def digitByte (d : Nat) : UInt8 := UInt8.ofNat (48 + d)

/-- The decimal numeral of a natural number, without leading zeros. -/
def decimal (n : Nat) : List UInt8 :=
  if n < 10 then [digitByte n] else decimal (n / 10) ++ [digitByte (n % 10)]
termination_by n

/-- The number a string of decimal digits spells. -/
def decimalValue (bs : List UInt8) : Nat := bs.foldl (fun v b => 10 * v + (b.toNat - 48)) 0

/-- The number a string of digits spells in a base. -/
def numeralValue (base : Nat) (digit : UInt8 → Nat) (bs : List UInt8) : Nat :=
  bs.foldl (fun v b => base * v + digit b) 0

def IsDigit (b : UInt8) : Prop := 48 ≤ b.toNat ∧ b.toNat ≤ 57

theorem toNat_digitByte {d : Nat} (h : d < 10) : (digitByte d).toNat = 48 + d := by
  rw [digitByte, UInt8.toNat_ofNat']
  omega

theorem isDigit_digitByte {d : Nat} (h : d < 10) : IsDigit (digitByte d) := by
  rw [IsDigit, toNat_digitByte h]
  omega

theorem decimal_of_lt {n : Nat} (h : n < 10) : decimal n = [digitByte n] := by
  rw [decimal, if_pos h]

theorem decimal_of_ge {n : Nat} (h : 10 ≤ n) :
    decimal n = decimal (n / 10) ++ [digitByte (n % 10)] := by
  rw [decimal, if_neg (Nat.not_lt.mpr h)]

theorem isDigit_of_mem_decimal (n : Nat) : ∀ b ∈ decimal n, IsDigit b := by
  induction n using decimal.induct with
  | case1 n h =>
      rw [decimal_of_lt h]
      intro b hb
      rw [List.mem_singleton.mp hb]
      exact isDigit_digitByte h
  | case2 n h ih =>
      rw [decimal_of_ge (Nat.not_lt.mp h)]
      intro b hb
      rcases List.mem_append.mp hb with hb | hb
      · exact ih b hb
      · rw [List.mem_singleton.mp hb]
        exact isDigit_digitByte (Nat.mod_lt _ (by decide))

theorem decimal_ne_nil (n : Nat) : decimal n ≠ [] := by
  rw [decimal]
  split <;> simp

theorem decimalValue_append (bs : List UInt8) (b : UInt8) :
    decimalValue (bs ++ [b]) = 10 * decimalValue bs + (b.toNat - 48) := by
  rw [decimalValue, List.foldl_append]
  rfl

theorem decimalValue_decimal (n : Nat) : decimalValue (decimal n) = n := by
  induction n using decimal.induct with
  | case1 n h =>
      rw [decimal_of_lt h, decimalValue, List.foldl_cons, List.foldl_nil, toNat_digitByte h]
      omega
  | case2 n h ih =>
      rw [decimal_of_ge (Nat.not_lt.mp h), decimalValue_append, ih,
        toNat_digitByte (Nat.mod_lt n (by decide))]
      omega

theorem decimal_injective {m n : Nat} (h : decimal m = decimal n) : m = n := by
  rw [← decimalValue_decimal m, h, decimalValue_decimal]

/-- A word that takes up digit after digit holds the number modulo `2 ^ 64`. -/
theorem word_numeralValue (base : Nat) (digit : UInt8 → Nat) (bs : List UInt8) :
    bs.foldl (fun acc b => acc * UInt64.ofNat base + UInt64.ofNat (digit b)) 0 =
      UInt64.ofNat (numeralValue base digit bs) := by
  have hfold : ∀ v : Nat,
      bs.foldl (fun acc b => acc * UInt64.ofNat base + UInt64.ofNat (digit b)) (UInt64.ofNat v) =
        UInt64.ofNat (bs.foldl (fun v b => base * v + digit b) v) := by
    induction bs with
    | nil => exact fun v => rfl
    | cons b bs ih =>
        intro v
        rw [List.foldl_cons, List.foldl_cons, ← ih, UInt64.ofNat_add, UInt64.ofNat_mul, UInt64.mul_comm]
  exact hfold 0

end Bytewright.Library
