import Mathlib.Data.List.Induction
import Mathlib.Algebra.Ring.Nat
import Mathlib.Tactic.Ring

/-! # Bits of byte strings

The two orders in which the bits of a byte can come, and the number bits stand for when the most
significant comes first. -/

namespace Bytewright.Library

/-- The bits of a byte, the most significant one first. -/
def msbFirst (b : UInt8) : List Bool := (List.range 8).map fun i => b.toNat.testBit (7 - i)

/-- The bits of a byte, the least significant one first. -/
def lsbFirst (b : UInt8) : List Bool := (List.range 8).map fun i => b.toNat.testBit i

/-- The bits of a byte string, byte after byte in one of the orders. -/
def bitsOf (order : UInt8 → List Bool) (data : List UInt8) : List Bool := data.flatMap order

@[simp] theorem msbFirst_length (b : UInt8) : (msbFirst b).length = 8 := by simp [msbFirst]

@[simp] theorem lsbFirst_length (b : UInt8) : (lsbFirst b).length = 8 := by simp [lsbFirst]

/-- An order of the bits that shows all eight of them. -/
structure BitOrder (order : UInt8 → List Bool) : Prop where
  length (b : UInt8) : (order b).length = 8
  injective : Function.Injective order

section Order

variable {order : UInt8 → List Bool}

@[simp] theorem bitsOf_nil : bitsOf order [] = [] := rfl

@[simp] theorem bitsOf_cons (b : UInt8) (data : List UInt8) :
    bitsOf order (b :: data) = order b ++ bitsOf order data := rfl

theorem bitsOf_append (x y : List UInt8) : bitsOf order (x ++ y) = bitsOf order x ++ bitsOf order y :=
  List.flatMap_append

theorem BitOrder.length_bitsOf (horder : BitOrder order) (data : List UInt8) :
    (bitsOf order data).length = 8 * data.length := by
  induction data with
  | nil => rfl
  | cons b data ih =>
      rw [bitsOf_cons, List.length_append, horder.length, ih, List.length_cons]
      ring

/-- Whole bytes can be left out on either side. -/
theorem BitOrder.drop_bitsOf (horder : BitOrder order) (n : Nat) (data : List UInt8) :
    (bitsOf order data).drop (8 * n) = bitsOf order (data.drop n) := by
  induction n generalizing data with
  | zero => rfl
  | succ n ih =>
      cases data with
      | nil => simp
      | cons b data =>
          rw [bitsOf_cons, List.drop_succ_cons, ← ih data, Nat.mul_succ, Nat.add_comm,
            ← List.drop_drop, List.drop_left' (horder.length b)]

/-- A bit is looked up in the byte it is in. -/
theorem BitOrder.getElem?_bitsOf (horder : BitOrder order) (data : List UInt8) (i : Nat) :
    (bitsOf order data)[i]? = data[i / 8]?.bind fun b => (order b)[i % 8]? := by
  induction data generalizing i with
  | nil => rfl
  | cons b data ih =>
      have hlen := horder.length b
      rw [bitsOf_cons]
      by_cases hi : i < 8
      · rw [List.getElem?_append_left (by omega), Nat.div_eq_of_lt hi, Nat.mod_eq_of_lt hi]
        rfl
      · obtain ⟨j, rfl⟩ := Nat.exists_eq_add_of_le (Nat.le_of_not_lt hi)
        rw [List.getElem?_append_right (by omega), hlen, Nat.add_sub_cancel_left, ih,
          Nat.add_mod_left, Nat.add_div_left j (by decide), List.getElem?_cons_succ]

theorem BitOrder.bitsOf_injective (horder : BitOrder order) : Function.Injective (bitsOf order) := by
  intro x y h
  have hlen : 8 * x.length = 8 * y.length := by
    rw [← horder.length_bitsOf x, ← horder.length_bitsOf y, h]
  induction x generalizing y with
  | nil =>
      cases y with
      | nil => rfl
      | cons c y => simp at hlen
  | cons b x ih =>
      cases y with
      | nil => simp at hlen
      | cons c y =>
          have hsame : (order b).length = (order c).length := by rw [horder.length, horder.length]
          obtain ⟨hhead, htail⟩ := List.append_inj h hsame
          rw [horder.injective hhead, ih htail (by simpa using hlen)]

end Order

/-! ### The number that bits stand for -/

/-- A number with one bit put below its own. -/
def pushBit (v : Nat) (b : Bool) : Nat := 2 * v + b.toNat

/-- The number with the given bits, the most significant one first. -/
def bitValue (bits : List Bool) : Nat := bits.foldl pushBit 0

@[simp] theorem bitValue_nil : bitValue [] = 0 := rfl

theorem foldl_pushBit (v : Nat) (bits : List Bool) :
    bits.foldl pushBit v = v * 2 ^ bits.length + bitValue bits := by
  induction bits using List.reverseRecOn with
  | nil => simp
  | append_singleton bits b ih =>
      rw [bitValue, List.foldl_append, List.foldl_append, ih, List.length_append, pow_add]
      simp only [List.foldl_cons, List.foldl_nil, List.length_singleton, pow_one, pushBit, bitValue]
      ring

theorem bitValue_append (x y : List Bool) :
    bitValue (x ++ y) = bitValue x * 2 ^ y.length + bitValue y := by
  rw [← foldl_pushBit, bitValue, bitValue, List.foldl_append]

theorem bitValue_lt (bits : List Bool) : bitValue bits < 2 ^ bits.length := by
  induction bits using List.reverseRecOn with
  | nil => simp
  | append_singleton bits b ih =>
      rw [bitValue_append, List.length_append, List.length_singleton, pow_add, pow_one]
      have hbit : bitValue [b] < 2 := by cases b <;> decide
      omega

/-- A field in two parts: the first one above the second. -/
theorem bitValue_take_add {a b : Nat} (bits : List Bool) (h : a + b ≤ bits.length) :
    bitValue (bits.take (a + b)) =
      (bitValue (bits.take a) <<< b) ||| bitValue ((bits.drop a).take b) := by
  have hlen : ((bits.drop a).take b).length = b := by
    rw [List.length_take, List.length_drop]
    omega
  have hlt := bitValue_lt ((bits.drop a).take b)
  rw [hlen] at hlt
  rw [← Nat.shiftLeft_add_eq_or_of_lt hlt, Nat.shiftLeft_eq, List.take_add, bitValue_append, hlen]

theorem bitValue_msbFirst (b : UInt8) : bitValue (msbFirst b) = b.toNat := by
  obtain ⟨b⟩ := b
  revert b
  decide +kernel

/-- Bits put below the ones a word holds. What runs over its upper end is lost. -/
theorem ofNat_shiftLeft_or {n : Nat} (hn : n < 64) (v : Nat) {word : UInt64}
    (hword : word.toNat < 2 ^ n) :
    (UInt64.ofNat v <<< UInt64.ofNat n) ||| word = UInt64.ofNat (v * 2 ^ n + word.toNat) := by
  have hshift : (UInt64.ofNat n).toNat % 64 = n := by
    rw [UInt64.toNat_ofNat']
    omega
  apply UInt64.toNat_inj.mp
  calc ((UInt64.ofNat v <<< UInt64.ofNat n) ||| word).toNat
      = v % 2 ^ 64 * 2 ^ n % 2 ^ 64 ||| word.toNat := by
        rw [UInt64.toNat_or, UInt64.toNat_shiftLeft, hshift, UInt64.toNat_ofNat', Nat.shiftLeft_eq]
    _ = v * 2 ^ n % 2 ^ 64 ||| word.toNat % 2 ^ 64 := by
        rw [Nat.mod_mul_mod, Nat.mod_eq_of_lt word.toNat_lt]
    _ = (2 ^ n * v + word.toNat) % 2 ^ 64 := by
        rw [← Nat.or_mod_two_pow, Nat.two_pow_add_eq_or_of_lt hword, Nat.mul_comm]
    _ = (UInt64.ofNat (v * 2 ^ n + word.toNat)).toNat := by
        rw [UInt64.toNat_ofNat', Nat.mul_comm]

theorem msbFirst_order : BitOrder msbFirst where
  length := msbFirst_length
  injective b c h := by
    rw [← UInt8.toNat_inj, ← bitValue_msbFirst b, ← bitValue_msbFirst c, h]

theorem lsbFirst_reverse (b : UInt8) : (lsbFirst b).reverse = msbFirst b := rfl

theorem lsbFirst_order : BitOrder lsbFirst where
  length := lsbFirst_length
  injective b c h := by
    apply msbFirst_order.injective
    rw [← lsbFirst_reverse b, ← lsbFirst_reverse c, h]

end Bytewright.Library
