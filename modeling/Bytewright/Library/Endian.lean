import Mathlib.Data.Nat.Digits.Defs
import Mathlib.Tactic.NormNum
import Mathlib.Tactic.Ring

/-! Fixed-width unsigned integers as byte strings, in either byte order. -/

namespace Bytewright.Library

/-- What holds of each of the 256 bytes holds of every byte. -/
theorem forall_byte {p : UInt8 → Prop} (h : ∀ n : Fin 256, p (UInt8.ofFin n)) (c : UInt8) : p c :=
  h c.toFin

/-- The number a little-endian byte string spells, accumulated from its last byte. -/
def leValue (bs : List UInt8) : Nat := bs.foldr (fun b v => v <<< 8 ||| b.toNat) 0

/-- The number a big-endian byte string spells, accumulated from its first byte. -/
def beValue (bs : List UInt8) : Nat := bs.foldl (fun v b => v <<< 8 ||| b.toNat) 0

/-- The `n` low bytes of `v`, least significant first. -/
def leBytes (n v : Nat) : List UInt8 := (List.range n).map (fun i => UInt8.ofNat (v >>> (8 * i)))

/-- The `n` low bytes of `v`, most significant first. -/
def beBytes (n v : Nat) : List UInt8 := (leBytes n v).reverse

@[simp] theorem leBytes_length (n v : Nat) : (leBytes n v).length = n := by
  simp [leBytes]

@[simp] theorem beBytes_length (n v : Nat) : (beBytes n v).length = n := by
  simp [beBytes]

theorem shift_or_byte (v : Nat) (b : UInt8) : v <<< 8 ||| b.toNat = 256 * v + b.toNat := by
  have hb : b.toNat < 2 ^ 8 := b.toNat_lt
  rw [← Nat.shiftLeft_add_eq_or_of_lt hb, Nat.shiftLeft_eq]
  ring

theorem beValue_eq_leValue_reverse (bs : List UInt8) : beValue bs = leValue bs.reverse := by
  simp [beValue, leValue, List.foldr_reverse]

theorem leBytes_succ (n v : Nat) :
    leBytes (n + 1) v = UInt8.ofNat v :: leBytes n (v / 256) := by
  simp only [leBytes, List.range_succ_eq_map, List.map_cons, List.map_map]
  refine congrArg₂ _ (by simp) (List.map_congr_left fun i _ => ?_)
  simp only [Function.comp_apply, Nat.succ_eq_add_one, Nat.mul_add, Nat.mul_one, Nat.add_comm _ 8,
    Nat.shiftRight_add]
  rw [Nat.shiftRight_eq_div_pow v 8]

/-- Writing `n` bytes and reading them back keeps the number modulo `256 ^ n`. -/
theorem leValue_leBytes (n v : Nat) : leValue (leBytes n v) = v % 256 ^ n := by
  induction n generalizing v with
  | zero => simp [leBytes, leValue, Nat.mod_one]
  | succ n ih =>
      rw [leBytes_succ]
      change leValue (leBytes n (v / 256)) <<< 8 ||| (UInt8.ofNat v).toNat = _
      rw [shift_or_byte, ih, UInt8.toNat_ofNat', pow_succ' 256 n, Nat.mod_mul]
      omega

theorem beValue_beBytes (n v : Nat) : beValue (beBytes n v) = v % 256 ^ n := by
  rw [beValue_eq_leValue_reverse, beBytes, List.reverse_reverse, leValue_leBytes]

theorem leValue_leBytes_of_lt {n v : Nat} (h : v < 256 ^ n) : leValue (leBytes n v) = v := by
  rw [leValue_leBytes, Nat.mod_eq_of_lt h]

theorem leValue_cons (b : UInt8) (bs : List UInt8) : leValue (b :: bs) = 256 * leValue bs + b.toNat :=
  shift_or_byte (leValue bs) b

/-- Reading bytes as a number and writing the number back gives the bytes. -/
theorem leBytes_leValue (bs : List UInt8) : leBytes bs.length (leValue bs) = bs := by
  induction bs with
  | nil => rfl
  | cons b bs ih =>
      have hb : b.toNat < 256 := b.toNat_lt
      have hdiv : (256 * leValue bs + b.toNat) / 256 = leValue bs := by omega
      have hmod : UInt8.ofNat (256 * leValue bs + b.toNat) = b := by
        apply UInt8.toNat.inj
        rw [UInt8.toNat_ofNat']
        omega
      rw [leValue_cons, List.length_cons, leBytes_succ, hdiv, hmod, ih]

theorem leValue_lt (bs : List UInt8) : leValue bs < 256 ^ bs.length := by
  induction bs with
  | nil => exact Nat.one_pos
  | cons b bs ih =>
      have hb : b.toNat < 256 := b.toNat_lt
      rw [leValue_cons, List.length_cons, Nat.pow_succ]
      omega

theorem beBytes_beValue (bs : List UInt8) : beBytes bs.length (beValue bs) = bs := by
  have h := leBytes_leValue bs.reverse
  rw [List.length_reverse] at h
  rw [beBytes, beValue_eq_leValue_reverse, h, List.reverse_reverse]

theorem beValue_lt (bs : List UInt8) : beValue bs < 256 ^ bs.length := by
  rw [beValue_eq_leValue_reverse, ← List.length_reverse]
  exact leValue_lt bs.reverse

theorem beValue_beBytes_of_lt {n v : Nat} (h : v < 256 ^ n) : beValue (beBytes n v) = v := by
  rw [beValue_beBytes, Nat.mod_eq_of_lt h]

end Bytewright.Library
