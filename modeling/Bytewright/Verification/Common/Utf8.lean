import Bytewright.Library.Endian
import Bytewright.Model.Common.Utf8

/-! # UTF-8, exactly

A Unicode scalar value is a `Char`, and `String.utf8EncodeChar` its standard encoding. -/

namespace Bytewright.Common.Utf8

open Bytewright.Library

/-! ### Bytes, as arithmetic -/

theorem toNat_ofNat_of_lt {n : Nat} (h : n < 256) : (UInt8.ofNat n).toNat = n := by
  rw [UInt8.toNat_ofNat']
  exact Nat.mod_eq_of_lt h

theorem lt_0x80_iff (b : UInt8) : b < 0x80 ↔ b.toNat < 128 := UInt8.lt_iff_toNat_lt

/-- A continuation byte. -/
def IsTail (b : UInt8) : Prop := 128 ≤ b.toNat ∧ b.toNat < 192

instance (b : UInt8) : Decidable (IsTail b) := by unfold IsTail; infer_instance

theorem isTail_iff : ∀ b : UInt8, b &&& 0xC0 = 0x80 ↔ IsTail b := forall_byte (by decide +kernel)

theorem toNat_and_0x3F (b : UInt8) : (b &&& 0x3F).toNat = b.toNat % 64 := by
  rw [UInt8.toNat_and]
  exact Nat.and_two_pow_sub_one_eq_mod b.toNat 6

/-- One round of the loop appends six bits. -/
theorem toNat_shiftLeft_or {v : UInt32} {b : UInt8} (hv : v.toNat < 2 ^ 26) :
    ((v <<< 6) ||| (b &&& 0x3F).toUInt32).toNat = v.toNat * 64 + b.toNat % 64 := by
  have hb : b.toNat % 64 < 2 ^ 6 := Nat.mod_lt _ (by decide)
  have hshift : (v <<< 6).toNat = 2 ^ 6 * v.toNat := by
    rw [UInt32.toNat_shiftLeft, Nat.shiftLeft_eq, Nat.mul_comm]
    exact Nat.mod_eq_of_lt (by simp; omega)
  rw [UInt32.toNat_or, hshift, UInt8.toNat_toUInt32, toNat_and_0x3F,
    ← Nat.two_pow_add_eq_or_of_lt hb]
  omega

/-! ### Continuation bytes, six bits each -/

/-- The value of continuation bytes behind the bits `n`. -/
def tailValue (n : Nat) (bs : Bytes) : Nat := bs.foldl (fun n b => n * 64 + b.toNat % 64) n

/-- The last `k` bytes of the encoding of `v`. -/
def tails : (k : Nat) → (v : Nat) → Bytes
  | 0, _ => []
  | k + 1, v => UInt8.ofNat (128 + v / 64 ^ k % 64) :: tails k v

@[simp] theorem tails_length (k v : Nat) : (tails k v).length = k := by
  induction k with
  | zero => rfl
  | succ k ih => rw [tails, List.length_cons, ih]

theorem toNat_tail (v k : Nat) :
    (UInt8.ofNat (128 + v / 64 ^ k % 64)).toNat = 128 + v / 64 ^ k % 64 :=
  toNat_ofNat_of_lt (by omega)

theorem isTail_of_mem_tails {k v : Nat} : ∀ b ∈ tails k v, IsTail b := by
  induction k with
  | zero => exact fun b hb => absurd hb List.not_mem_nil
  | succ k ih =>
      intro b hb
      rcases List.mem_cons.mp hb with rfl | hb
      · unfold IsTail
        rw [toNat_tail]
        omega
      · exact ih b hb

theorem tailValue_tails (k v : Nat) : tailValue (v / 64 ^ k) (tails k v) = v := by
  induction k with
  | zero => simp [tailValue, tails]
  | succ k ih =>
      have hdigit : v / 64 ^ (k + 1) * 64 + (128 + v / 64 ^ k % 64) % 64 = v / 64 ^ k := by
        rw [pow_succ, ← Nat.div_div_eq_div_mul]
        omega
      rw [tails, tailValue, List.foldl_cons, toNat_tail, hdigit]
      exact ih

/-- Continuation bytes are those of the value they make. -/
theorem tails_tailValue {bs : Bytes} (h : ∀ b ∈ bs, IsTail b) (n : Nat) :
    tailValue n bs / 64 ^ bs.length = n ∧ tails bs.length (tailValue n bs) = bs := by
  induction bs generalizing n with
  | nil => simp [tailValue, tails]
  | cons b bs ih =>
      rcases ih (fun b hb => h b (List.mem_cons_of_mem _ hb)) (n * 64 + b.toNat % 64) with ⟨hdiv, htails⟩
      have hb := h b List.mem_cons_self
      have hvalue : tailValue n (b :: bs) = tailValue (n * 64 + b.toNat % 64) bs := rfl
      rw [hvalue, List.length_cons]
      constructor
      · rw [pow_succ, ← Nat.div_div_eq_div_mul, hdiv]
        omega
      · have hdigit : UInt8.ofNat (128 + (n * 64 + b.toNat % 64) % 64) = b := by
          unfold IsTail at hb
          apply UInt8.toNat_inj.mp
          rw [toNat_ofNat_of_lt (by omega)]
          omega
        rw [tails, hdiv, htails, hdigit]

theorem continue?_eq_some_iff {bs : Bytes} {v w : UInt32}
    (hv : (v.toNat + 1) * 64 ^ bs.length ≤ 2 ^ 32) :
    continue? bs v = some w ↔ (∀ b ∈ bs, IsTail b) ∧ w.toNat = tailValue v.toNat bs := by
  induction bs generalizing v with
  | nil => simp [continue?, tailValue, ← UInt32.toNat_inj, eq_comm]
  | cons b bs ih =>
      rw [continue?]
      by_cases hb : IsTail b
      · have hpos : 1 ≤ 64 ^ bs.length := Nat.one_le_pow _ _ (by decide)
        rw [List.length_cons, pow_succ] at hv
        have hlt : v.toNat < 2 ^ 26 := by nlinarith
        have hround := toNat_shiftLeft_or (b := b) hlt
        have hnext : (v.toNat * 64 + b.toNat % 64 + 1) * 64 ^ bs.length ≤ 2 ^ 32 := by
          have : b.toNat % 64 < 64 := Nat.mod_lt _ (by decide)
          nlinarith
        rw [if_neg (not_not.mpr ((isTail_iff b).mpr hb)), ih (by rw [hround]; exact hnext), hround]
        simp [hb, tailValue]
      · rw [if_pos (fun h => hb ((isTail_iff b).mp h))]
        simp [hb]

/-! ### The forms of longer sequences -/

/-- A form of sequences: how many continuation bytes, the least lead byte, the least value. -/
structure Form where
  tailCount : Nat
  base : Nat
  minValue : UInt32
  deriving DecidableEq

def forms : List Form := [⟨1, 192, 0x80⟩, ⟨2, 224, 0x800⟩, ⟨3, 240, 0x10000⟩]

/-- How many lead bytes there are of the form. -/
def Form.leads (f : Form) : Nat := 2 ^ (6 - f.tailCount)

theorem lead?_of_form : ∀ f ∈ forms, ∀ b : UInt8, f.base ≤ b.toNat → b.toNat < f.base + f.leads →
    lead? b = some (f.tailCount + 1, UInt32.ofNat (b.toNat - f.base), f.minValue) := by
  intro f hf
  apply forall_byte
  revert f hf
  decide +kernel

theorem form_of_lead? : ∀ b : UInt8, 128 ≤ b.toNat → lead? b = none ∨
    ∃ f ∈ forms, f.base ≤ b.toNat ∧ b.toNat < f.base + f.leads :=
  forall_byte (by decide +kernel)

theorem Form.fits : ∀ f ∈ forms, 128 ≤ f.base ∧ f.base + f.leads ≤ 256 ∧
    f.leads * 64 ^ f.tailCount ≤ 2 ^ 32 := by decide

/-- What makes a value of a form acceptable. -/
structure Accepts (minValue w : UInt32) : Prop where
  minimal : minValue ≤ w
  notSurrogate : ¬ (w ≥ 0xD800 ∧ w ≤ 0xDFFF)
  inRange : w ≤ kMaxCodepoint

/-- Scalar values are in range and no surrogates. -/
theorem isValidChar_iff (w : UInt32) :
    w.isValidChar ↔ ¬ (w ≥ 0xD800 ∧ w ≤ 0xDFFF) ∧ w ≤ kMaxCodepoint := by
  have hmax : w ≤ kMaxCodepoint ↔ w.toNat ≤ 0x10FFFF := UInt32.le_iff_toNat_le
  have hlow : w ≥ 0xD800 ↔ 0xD800 ≤ w.toNat := UInt32.le_iff_toNat_le
  have hhigh : w ≤ 0xDFFF ↔ w.toNat ≤ 0xDFFF := UInt32.le_iff_toNat_le
  rw [hmax, hlow, hhigh, UInt32.isValidChar, Nat.isValidChar]
  omega

theorem accepts_iff {minValue w : UInt32} :
    Accepts minValue w ↔ minValue.toNat ≤ w.toNat ∧ w.isValidChar := by
  rw [isValidChar_iff, ← UInt32.le_iff_toNat_le]
  constructor
  · rintro ⟨hmin, hsurrogate, hrange⟩
    exact ⟨hmin, hsurrogate, hrange⟩
  · rintro ⟨hmin, hsurrogate, hrange⟩
    exact ⟨hmin, hsurrogate, hrange⟩

theorem decode_single {b0 : UInt8} (h : b0.toNat < 128) (rest : Bytes) :
    decode (b0 :: rest) = some (1, b0.toUInt32) := by
  rw [decode, if_pos ((lt_0x80_iff b0).mpr h)]

section Form

variable {f : Form} (hf : f ∈ forms) {b0 : UInt8} (hlow : f.base ≤ b0.toNat)
  (hhigh : b0.toNat < f.base + f.leads) {rest : Bytes} {n : Nat} {w : UInt32}

include hf hlow hhigh

/-- Behind a lead byte of a form, `decode` goes on with the continuation bytes and the checks. -/
theorem decode_lead : decode (b0 :: rest) = some (n, w) ↔
    n = f.tailCount + 1 ∧ f.tailCount ≤ rest.length ∧
      continue? (rest.take f.tailCount) (UInt32.ofNat (b0.toNat - f.base)) = some w ∧
        Accepts f.minValue w := by
  have hbase := (f.fits hf).1
  have hnot : ¬ b0 < 0x80 := by
    rw [lt_0x80_iff]
    omega
  rw [decode, if_neg hnot, lead?_of_form f hf b0 hlow hhigh]
  dsimp only
  by_cases hlen : rest.length < f.tailCount
  · rw [if_pos (by omega)]
    constructor
    · intro h
      cases h
    · rintro ⟨-, hle, -⟩
      omega
  · rw [if_neg (by omega), Nat.add_sub_cancel]
    cases hvalue : continue? (rest.take f.tailCount) (UInt32.ofNat (b0.toNat - f.base)) with
    | none =>
        constructor
        · intro h
          cases h
        · rintro ⟨-, -, h, -⟩
          cases h
    | some v =>
        dsimp only
        constructor
        · intro h
          split_ifs at h with hmin hsurrogate hmax
          cases h
          exact ⟨rfl, by omega, rfl, UInt32.not_lt.mp hmin, hsurrogate, UInt32.not_lt.mp hmax⟩
        · rintro ⟨rfl, -, ⟨⟩, haccepts⟩
          rw [if_neg (UInt32.not_lt.mpr haccepts.minimal), if_neg haccepts.notSurrogate,
            if_neg (UInt32.not_lt.mpr haccepts.inRange)]

/-- Its continuation bytes must follow and make an acceptable value. -/
theorem decode_form : decode (b0 :: rest) = some (n, w) ↔
    n = f.tailCount + 1 ∧ f.tailCount ≤ rest.length ∧ (∀ b ∈ rest.take f.tailCount, IsTail b) ∧
      w.toNat = tailValue (b0.toNat - f.base) (rest.take f.tailCount) ∧ Accepts f.minValue w := by
  rcases f.fits hf with ⟨-, hbytes, hbits⟩
  have hleadValue : (UInt32.ofNat (b0.toNat - f.base)).toNat = b0.toNat - f.base := by
    rw [UInt32.toNat_ofNat']
    exact Nat.mod_eq_of_lt (by omega)
  rw [decode_lead hf hlow hhigh]
  refine and_congr_right fun _ => and_congr_right fun hlen => ?_
  have hroom : (b0.toNat - f.base + 1) * 64 ^ (rest.take f.tailCount).length ≤ 2 ^ 32 := by
    rw [List.length_take_of_le hlen]
    exact (Nat.mul_le_mul_right _ (by omega)).trans hbits
  rw [continue?_eq_some_iff (by rwa [hleadValue]), hleadValue, and_assoc]

end Form

/-! ### The standard encoding -/

theorem toNat_lt (c : Char) : c.toNat < 0x110000 := by
  have hvalid : c.toNat.isValidChar := c.valid
  unfold Nat.isValidChar at hvalid
  omega

theorem utf8EncodeChar_single {c : Char} (h : c.toNat < 128) :
    String.utf8EncodeChar c = [UInt8.ofNat c.toNat] := by
  have h : c.val.toNat ≤ 0x7F := Nat.le_of_lt_succ h
  simp only [String.utf8EncodeChar, if_pos h]
  rfl

theorem exists_form {c : Char} (h : 128 ≤ c.toNat) :
    ∃ f ∈ forms, f.minValue.toNat ≤ c.toNat ∧ c.toNat / 64 ^ f.tailCount < f.leads := by
  by_cases h₂ : c.toNat < 0x800
  · exact ⟨⟨1, 192, 0x80⟩, by decide, h, Nat.div_lt_of_lt_mul h₂⟩
  · by_cases h₃ : c.toNat < 0x10000
    · exact ⟨⟨2, 224, 0x800⟩, by decide, Nat.le_of_not_lt h₂, Nat.div_lt_of_lt_mul h₃⟩
    · refine ⟨⟨3, 240, 0x10000⟩, by decide, Nat.le_of_not_lt h₃, Nat.div_lt_of_lt_mul ?_⟩
      exact (toNat_lt c).trans (by decide)

/-- A value that needs the form is encoded in it. -/
theorem utf8EncodeChar_of_form {f : Form} (hf : f ∈ forms) {c : Char}
    (hmin : f.minValue.toNat ≤ c.toNat) (hleads : c.toNat / 64 ^ f.tailCount < f.leads) :
    String.utf8EncodeChar c =
      UInt8.ofNat (f.base + c.toNat / 64 ^ f.tailCount) :: tails f.tailCount c.toNat := by
  simp only [forms, List.mem_cons, List.not_mem_nil, or_false] at hf
  rcases hf with rfl | rfl | rfl
  · have hlow : 0x80 ≤ c.toNat := hmin
    have hhigh : c.toNat / 64 < 32 := hleads
    have hlead : c.toNat / 64 % 32 + 192 = 192 + c.toNat / 64 := by omega
    have h₁ : ¬ c.toNat ≤ 0x7F := by omega
    have h₂ : c.toNat ≤ 0x7FF := by omega
    change String.utf8EncodeChar c = [UInt8.ofNat (192 + c.toNat / 64),
      UInt8.ofNat (128 + c.toNat / 1 % 64)]
    rw [← hlead, Nat.div_one, Nat.add_comm 128]
    exact (if_neg h₁).trans (if_pos h₂)
  · have hlow : 0x800 ≤ c.toNat := hmin
    have hhigh : c.toNat / 4096 < 16 := hleads
    have hlead : c.toNat / 4096 % 16 + 224 = 224 + c.toNat / 4096 := by omega
    have h₁ : ¬ c.toNat ≤ 0x7F := by omega
    have h₂ : ¬ c.toNat ≤ 0x7FF := by omega
    have h₃ : c.toNat ≤ 0xFFFF := by omega
    change String.utf8EncodeChar c = [UInt8.ofNat (224 + c.toNat / 4096),
      UInt8.ofNat (128 + c.toNat / 64 % 64), UInt8.ofNat (128 + c.toNat / 1 % 64)]
    rw [← hlead, Nat.div_one, Nat.add_comm 128, Nat.add_comm 128]
    exact (if_neg h₁).trans ((if_neg h₂).trans (if_pos h₃))
  · have hlow : 0x10000 ≤ c.toNat := hmin
    have hhigh : c.toNat / 262144 < 8 := hleads
    have hlead : c.toNat / 262144 % 8 + 240 = 240 + c.toNat / 262144 := by omega
    have h₁ : ¬ c.toNat ≤ 0x7F := by omega
    have h₂ : ¬ c.toNat ≤ 0x7FF := by omega
    have h₃ : ¬ c.toNat ≤ 0xFFFF := by omega
    change String.utf8EncodeChar c = [UInt8.ofNat (240 + c.toNat / 262144),
      UInt8.ofNat (128 + c.toNat / 4096 % 64), UInt8.ofNat (128 + c.toNat / 64 % 64),
      UInt8.ofNat (128 + c.toNat / 1 % 64)]
    rw [← hlead, Nat.div_one, Nat.add_comm 128, Nat.add_comm 128, Nat.add_comm 128]
    exact (if_neg h₁).trans ((if_neg h₂).trans (if_neg h₃))

/-! ### Decoding inverts encoding -/

theorem decode_utf8EncodeChar (c : Char) (rest : Bytes) :
    decode (String.utf8EncodeChar c ++ rest) = some ((String.utf8EncodeChar c).length, c.val) := by
  by_cases hsingle : c.toNat < 128
  · have hbyte := toNat_ofNat_of_lt (n := c.toNat) (by omega)
    have hvalue : (UInt8.ofNat c.toNat).toUInt32 = c.val := by
      apply UInt32.toNat_inj.mp
      rw [UInt8.toNat_toUInt32, hbyte]
      rfl
    rw [utf8EncodeChar_single hsingle, List.singleton_append, decode_single (by rwa [hbyte]), hvalue]
    rfl
  · rcases exists_form (Nat.le_of_not_lt hsingle) with ⟨f, hf, hmin, hleads⟩
    rcases f.fits hf with ⟨-, hfits, -⟩
    have hlt : f.base + c.toNat / 64 ^ f.tailCount < f.base + f.leads := Nat.add_lt_add_left hleads _
    have hlead := toNat_ofNat_of_lt (hlt.trans_le hfits)
    have htake : (tails f.tailCount c.toNat ++ rest).take f.tailCount = tails f.tailCount c.toNat :=
      List.take_left' (tails_length ..)
    rw [utf8EncodeChar_of_form hf hmin hleads, List.cons_append,
      decode_form hf (by rw [hlead]; exact Nat.le_add_right ..) (by rwa [hlead]), htake, hlead,
      Nat.add_sub_cancel_left, tailValue_tails]
    refine ⟨by simp, by simp, isTail_of_mem_tails, rfl, accepts_iff.mpr ⟨hmin, c.valid⟩⟩

/-- What decodes begins with the encoding of a scalar value. -/
theorem decode_eq_some {data : Bytes} {n : Nat} {cp : UInt32} (h : decode data = some (n, cp)) :
    ∃ (c : Char) (rest : Bytes), c.val = cp ∧ data = String.utf8EncodeChar c ++ rest ∧
      n = (String.utf8EncodeChar c).length := by
  cases data with
  | nil => cases h
  | cons b0 rest =>
      by_cases hb0 : b0.toNat < 128
      · rw [decode_single hb0] at h
        cases h
        have hvalid : b0.toUInt32.isValidChar := by
          change b0.toUInt32.toNat.isValidChar
          rw [UInt8.toNat_toUInt32]
          exact .inl (by omega)
        have hchar : (⟨b0.toUInt32, hvalid⟩ : Char).toNat = b0.toNat := UInt8.toNat_toUInt32 b0
        refine ⟨⟨b0.toUInt32, hvalid⟩, rest, rfl, ?_⟩
        rw [utf8EncodeChar_single (by rwa [hchar]), hchar, UInt8.ofNat_toNat]
        exact ⟨rfl, rfl⟩
      · rcases form_of_lead? b0 (Nat.le_of_not_lt hb0) with hnone | ⟨f, hf, hlow, hhigh⟩
        · rw [decode, if_neg (by rwa [lt_0x80_iff]), hnone] at h
          cases h
        · rw [decode_form hf hlow hhigh] at h
          rcases h with ⟨rfl, hlen, htails, hcp, haccepts⟩
          rcases accepts_iff.mp haccepts with ⟨hmin, hvalid⟩
          refine ⟨⟨cp, hvalid⟩, rest.drop f.tailCount, rfl, ?_⟩
          have hcount : (rest.take f.tailCount).length = f.tailCount := by
            rw [List.length_take]
            omega
          rcases tails_tailValue htails (b0.toNat - f.base) with ⟨hdiv, hsame⟩
          rw [hcount, ← hcp] at hdiv hsame
          rcases f.fits hf with ⟨-, hfits, -⟩
          have hbytes : String.utf8EncodeChar ⟨cp, hvalid⟩ = b0 :: rest.take f.tailCount := by
            have hlead : f.base + (b0.toNat - f.base) = b0.toNat := by omega
            rw [utf8EncodeChar_of_form hf (c := ⟨cp, hvalid⟩) hmin (hdiv.trans_lt (by omega))]
            change UInt8.ofNat (f.base + cp.toNat / _) :: tails _ cp.toNat = _
            rw [hdiv, hsame, hlead, UInt8.ofNat_toNat]
          rw [hbytes, List.cons_append, List.take_append_drop, List.length_cons, hcount]
          exact ⟨rfl, rfl⟩

/-! ### The encoder -/

/-- The bytes of a longer sequence, as the encoders make them. -/
theorem tail_byte (cp s : UInt32) (hs : s.toNat < 32) :
    ((0x80 : UInt32) ||| ((cp >>> s) &&& 0x3F)).toUInt8 =
      UInt8.ofNat (128 + cp.toNat / 2 ^ s.toNat % 64) := by
  have hlt : cp.toNat / 2 ^ s.toNat % 64 < 2 ^ 6 := Nat.mod_lt _ (by decide)
  have hbits : ((cp >>> s) &&& 0x3F).toNat = cp.toNat / 2 ^ s.toNat % 64 := by
    rw [UInt32.toNat_and, UInt32.toNat_shiftRight, Nat.mod_eq_of_lt hs, Nat.shiftRight_eq_div_pow]
    exact Nat.and_two_pow_sub_one_eq_mod _ 6
  apply UInt8.toNat_inj.mp
  rw [UInt32.toNat_toUInt8, UInt32.toNat_or, hbits, UInt8.toNat_ofNat']
  change (2 ^ 6 * 2 ||| _) % _ = (2 ^ 6 * 2 + _) % _
  rw [Nat.two_pow_add_eq_or_of_lt hlt]

theorem lead_byte {base cp s : UInt32} {k : Nat} (hs : s.toNat < 32) (hbase : 2 ^ k ∣ base.toNat)
    (hlt : cp.toNat / 2 ^ s.toNat < 2 ^ k) :
    (base ||| (cp >>> s)).toUInt8 = UInt8.ofNat (base.toNat + cp.toNat / 2 ^ s.toNat) := by
  rcases hbase with ⟨m, hm⟩
  apply UInt8.toNat_inj.mp
  rw [UInt32.toNat_toUInt8, UInt32.toNat_or, UInt32.toNat_shiftRight, Nat.mod_eq_of_lt hs,
    Nat.shiftRight_eq_div_pow, UInt8.toNat_ofNat', hm, Nat.two_pow_add_eq_or_of_lt hlt]

/-- The bytes of a sequence of two, three and four bytes. -/
def sequence (cp : UInt32) : Bytes :=
  let low (shift : UInt32) : UInt8 := ((0x80 : UInt32) ||| ((cp >>> shift) &&& 0x3F)).toUInt8
  if cp < 0x80 then [cp.toUInt8]
  else if cp < 0x800 then [((0xC0 : UInt32) ||| (cp >>> 6)).toUInt8, low 0]
  else if cp < 0x10000 then [((0xE0 : UInt32) ||| (cp >>> 12)).toUInt8, low 6, low 0]
  else [((0xF0 : UInt32) ||| (cp >>> 18)).toUInt8, low 12, low 6, low 0]

/-- What an encoder puts together for a form is the standard encoding. -/
theorem sequence_form {f : Form} (hf : f ∈ forms) {c : Char} {base s : UInt32}
    (hbase : base.toNat = f.base) (hs : s.toNat = 6 * f.tailCount)
    (hmin : f.minValue.toNat ≤ c.toNat) (hleads : c.toNat / 64 ^ f.tailCount < f.leads) :
    (base ||| (c.val >>> s)).toUInt8 :: tails f.tailCount c.toNat = String.utf8EncodeChar c := by
  have hsmall : s.toNat < 32 := by
    have : ∀ f ∈ forms, 6 * f.tailCount < 32 := by decide
    rw [hs]
    exact this f hf
  have hdvd : ∀ f ∈ forms, 2 ^ (6 - f.tailCount) ∣ f.base := by decide
  have hpow : 2 ^ s.toNat = 64 ^ f.tailCount := by
    rw [hs, pow_mul]
    norm_num
  have hlead : (base ||| (c.val >>> s)).toUInt8 =
      UInt8.ofNat (base.toNat + c.val.toNat / 2 ^ s.toNat) :=
    lead_byte hsmall (hbase ▸ hdvd f hf) (by rw [hpow]; exact hleads)
  rw [utf8EncodeChar_of_form hf hmin hleads, hlead, hbase, hpow]
  rfl

theorem sequence_char (c : Char) : sequence c.val = String.utf8EncodeChar c := by
  have hlt (n : UInt32) : c.val < n ↔ c.toNat < n.toNat := UInt32.lt_iff_toNat_lt
  have h0 := tail_byte c.val 0 (by decide)
  have h6 := tail_byte c.val 6 (by decide)
  have h12 := tail_byte c.val 12 (by decide)
  unfold sequence
  dsimp only
  rw [h0, h6, h12]
  split
  · next h =>
    have h : c.toNat < 128 := (hlt 0x80).mp h
    rw [utf8EncodeChar_single h]
    rfl
  · next h₁ =>
    have h₁ : 0x80 ≤ c.toNat := Nat.le_of_not_lt fun h => h₁ ((hlt 0x80).mpr h)
    split
    · next h₂ =>
      have h₂ : c.toNat < 0x800 := (hlt 0x800).mp h₂
      exact sequence_form (f := ⟨1, 192, 0x80⟩) (by decide) rfl rfl h₁ (Nat.div_lt_of_lt_mul h₂)
    · next h₂ =>
      have h₂ : 0x800 ≤ c.toNat := Nat.le_of_not_lt fun h => h₂ ((hlt 0x800).mpr h)
      split
      · next h₃ =>
        have h₃ : c.toNat < 0x10000 := (hlt 0x10000).mp h₃
        exact sequence_form (f := ⟨2, 224, 0x800⟩) (by decide) rfl rfl h₂ (Nat.div_lt_of_lt_mul h₃)
      · next h₃ =>
        have h₃ : 0x10000 ≤ c.toNat := Nat.le_of_not_lt fun h => h₃ ((hlt 0x10000).mpr h)
        exact sequence_form (f := ⟨3, 240, 0x10000⟩) (by decide) rfl rfl h₃
          (Nat.div_lt_of_lt_mul ((toNat_lt c).trans (by decide)))

theorem encode_valid {cp : UInt32} (h : cp.isValidChar) (out : Bytes) :
    encode cp out = (true, out ++ sequence cp) := by
  rcases (isValidChar_iff cp).mp h with ⟨hsurrogate, hrange⟩
  have hvalid : ¬ ((cp ≥ 0xD800 ∧ cp ≤ 0xDFFF) ∨ cp > kMaxCodepoint) := by
    rintro (h | h)
    · exact hsurrogate h
    · exact UInt32.not_lt.mpr hrange h
  rw [encode, if_neg hvalid]
  unfold sequence
  dsimp only
  split_ifs <;> rfl

/-- `encode` appends the standard encoding of a scalar value. -/
theorem encode_char (c : Char) (out : Bytes) :
    encode c.val out = (true, out ++ String.utf8EncodeChar c) := by
  rw [encode_valid c.valid, sequence_char]

/-- It appends nothing else. -/
theorem encode_invalid {cp : UInt32} (h : ¬ cp.isValidChar) (out : Bytes) :
    encode cp out = (false, out) := by
  have hout : (cp ≥ 0xD800 ∧ cp ≤ 0xDFFF) ∨ cp > kMaxCodepoint := by
    rw [isValidChar_iff, not_and_or, not_not] at h
    exact h.imp_right UInt32.not_le.mp
  rw [encode, if_pos hout]

theorem encode_fails_iff (cp : UInt32) (out : Bytes) : (encode cp out).1 = false ↔ ¬ cp.isValidChar := by
  by_cases h : cp.isValidChar
  · simp [encode_valid h, h]
  · simp [encode_invalid h, h]

/-! ### Whole strings -/

/-- The encodings of scalar values, one after the other. -/
def encodeAll (cs : List Char) : Bytes := cs.flatMap fun c => (encode c.val []).2

theorem encodeAll_cons (c : Char) (cs : List Char) :
    encodeAll (c :: cs) = String.utf8EncodeChar c ++ encodeAll cs := by
  rw [encodeAll, List.flatMap_cons, encode_char, List.nil_append]
  rfl

theorem encodeAll_length (cs : List Char) : cs.length ≤ (encodeAll cs).length := by
  induction cs with
  | nil => exact Nat.le_refl _
  | cons c cs ih =>
      have hpos := c.utf8Size_pos
      rw [encodeAll_cons, List.length_append, List.length_cons, String.length_utf8EncodeChar]
      omega

/-- A string is taken apart by `decode` sequence by sequence, to its end or up to an error. -/
theorem exists_split (s : Bytes) :
    ∃ cs bad, s = encodeAll cs ++ bad ∧ (bad = [] ∨ bad ≠ [] ∧ decode bad = none) := by
  induction hn : s.length using Nat.strong_induction_on generalizing s with
  | _ n ih =>
      by_cases hs : s = []
      · exact ⟨[], [], by rw [hs]; rfl, .inl rfl⟩
      · cases hdecode : decode s with
        | none => exact ⟨[], s, rfl, .inr ⟨hs, hdecode⟩⟩
        | some out =>
            rcases decode_eq_some hdecode with ⟨c, rest, -, rfl, -⟩
            have hpos := c.utf8Size_pos
            rw [List.length_append, String.length_utf8EncodeChar] at hn
            rcases ih rest.length (by omega) rest rfl with ⟨cs, bad, rfl, hbad⟩
            exact ⟨c :: cs, bad, by rw [encodeAll_cons, List.append_assoc], hbad⟩

section Loop

variable {σ : Type} (step : σ → UInt32 → σ)

/-- What a loop makes of code points. -/
def collect (st : σ) (cs : List Char) : σ := cs.foldl (fun st c => step st c.val) st

theorem decodeLoop_encodeAll (cs : List Char) (fuel : Nat) (rest : Bytes) (st : σ) :
    decodeLoop step (cs.length + fuel) (encodeAll cs ++ rest) st =
      decodeLoop step fuel rest (collect step st cs) := by
  induction cs generalizing st with
  | nil => rw [List.length_nil, Nat.zero_add]; rfl
  | cons c cs ih =>
      have hdecode := decode_utf8EncodeChar c (encodeAll cs ++ rest)
      have hdrop : (String.utf8EncodeChar c ++ (encodeAll cs ++ rest)).drop
          (String.utf8EncodeChar c).length = encodeAll cs ++ rest := List.drop_left
      rw [encodeAll_cons, List.append_assoc, List.length_cons, Nat.succ_add]
      rcases hbytes : String.utf8EncodeChar c ++ (encodeAll cs ++ rest) with _ | ⟨b, bs⟩
      · rw [hbytes] at hdecode
        cases hdecode
      · rw [hbytes] at hdecode hdrop
        rw [decodeLoop, hdecode]
        dsimp only
        rw [hdrop]
        exact ih (step st c.val)

theorem decodeLoop_run {cs : List Char} {bad : Bytes} (hbad : bad = [] ∨ bad ≠ [] ∧ decode bad = none)
    (st : σ) :
    decodeLoop step ((encodeAll cs ++ bad).length + 1) (encodeAll cs ++ bad) st =
      .ok (bad.isEmpty, collect step st cs) := by
  have hfuel : (encodeAll cs ++ bad).length + 1 =
      cs.length + ((encodeAll cs ++ bad).length - cs.length + 1) := by
    have := encodeAll_length cs
    rw [List.length_append]
    omega
  rw [hfuel, decodeLoop_encodeAll]
  rcases hbad with rfl | ⟨hne, hdecode⟩
  · rfl
  · cases bad with
    | nil => exact absurd rfl hne
    | cons b bs =>
        rw [decodeLoop, hdecode]
        rfl

end Loop

theorem collect_push (out : List UInt32) (cs : List Char) :
    collect (fun out cp => out ++ [cp]) out cs = out ++ cs.map Char.val := by
  induction cs generalizing out with
  | nil => simp [collect]
  | cons c cs ih =>
      have hrest := ih (out ++ [c.val])
      rw [List.append_assoc] at hrest
      exact hrest

theorem collect_count (n : Nat) (cs : List Char) : collect (fun n _ => n + 1) n cs = n + cs.length := by
  induction cs generalizing n with
  | nil => rfl
  | cons c cs ih =>
      have hrest := ih (n + 1)
      rw [List.length_cons, Nat.add_comm cs.length, ← Nat.add_assoc]
      exact hrest

section Split

variable {cs : List Char} {bad : Bytes} (hbad : bad = [] ∨ bad ≠ [] ∧ decode bad = none)

include hbad

theorem validate_run : validate (encodeAll cs ++ bad) = .ok bad.isEmpty := by
  rw [validate, decodeLoop_run _ hbad]
  rfl

theorem countCodepoints_run (out : Nat) : countCodepoints (encodeAll cs ++ bad) out =
    .ok (if bad.isEmpty then (true, cs.length) else (false, out)) := by
  rw [countCodepoints, decodeLoop_run _ hbad, collect_count, Nat.zero_add]
  rfl

theorem toCodepoints_run (out : List UInt32) : toCodepoints (encodeAll cs ++ bad) out =
    .ok (bad.isEmpty, out ++ cs.map Char.val) := by
  rw [toCodepoints, decodeLoop_run _ hbad, collect_push]

end Split

theorem validate_encodeAll (cs : List Char) : validate (encodeAll cs) = .ok true := by
  have hrun : validate (encodeAll cs ++ []) = _ := validate_run (.inl rfl)
  rwa [List.append_nil] at hrun

theorem countCodepoints_encodeAll (cs : List Char) (out : Nat) :
    countCodepoints (encodeAll cs) out = .ok (true, cs.length) := by
  have hrun : countCodepoints (encodeAll cs ++ []) out = _ := countCodepoints_run (.inl rfl) out
  rwa [List.append_nil] at hrun

theorem toCodepoints_encodeAll (cs : List Char) (out : List UInt32) :
    toCodepoints (encodeAll cs) out = .ok (true, out ++ cs.map Char.val) := by
  have hrun : toCodepoints (encodeAll cs ++ []) out = _ := toCodepoints_run (.inl rfl) out
  rwa [List.append_nil] at hrun

theorem encodeAll_injective {cs cs' : List Char} (h : encodeAll cs = encodeAll cs') : cs = cs' := by
  have hrun := toCodepoints_encodeAll cs []
  rw [h, toCodepoints_encodeAll] at hrun
  have hvals : cs'.map Char.val = cs.map Char.val := by
    injection hrun with hrun
    exact congrArg Prod.snd hrun
  exact ((List.map_inj_right fun _ _ h => Char.ext h).mp hvals).symm

/-- A string is valid if and only if it is the concatenation of encoded scalar values, which are then
unique, returned by `to_codepoints` and counted by `count_codepoints`. Otherwise all three fail. A
sequence is decoded if and only if it is the encoding of a scalar value. -/
theorem validate_exact (s : Bytes) :
    (validate s = .ok true ↔ ∃ cs, s = encodeAll cs) ∧
    (∀ cs, s = encodeAll cs → (∀ cs', s = encodeAll cs' → cs' = cs) ∧
      (∀ out, toCodepoints s out = .ok (true, out ++ cs.map Char.val)) ∧
      ∀ out, countCodepoints s out = .ok (true, cs.length)) ∧
    ((¬ ∃ cs, s = encodeAll cs) → validate s = .ok false ∧
      (∀ out, ∃ out', toCodepoints s out = .ok (false, out')) ∧
      ∀ out, countCodepoints s out = .ok (false, out)) ∧
    ∀ n cp, decode s = some (n, cp) ↔
      ∃ (c : Char) (rest : Bytes), c.val = cp ∧ s = (encode c.val []).2 ++ rest ∧
        n = ((encode c.val []).2).length := by
  refine ⟨⟨fun hvalid => ?_, ?_⟩, ?_, fun hnone => ?_, fun n cp => ⟨fun hdecode => ?_, ?_⟩⟩
  · rcases exists_split s with ⟨cs, bad, rfl, hbad⟩
    rw [validate_run hbad] at hvalid
    injection hvalid with hempty
    rw [List.isEmpty_iff.mp hempty, List.append_nil]
    exact ⟨cs, rfl⟩
  · rintro ⟨cs, rfl⟩
    exact validate_encodeAll cs
  · rintro cs rfl
    exact ⟨fun cs' h => (encodeAll_injective h).symm, toCodepoints_encodeAll cs,
      countCodepoints_encodeAll cs⟩
  · rcases exists_split s with ⟨cs, bad, rfl, hbad⟩
    have hne : bad.isEmpty = false := by
      rw [List.isEmpty_eq_false_iff]
      rintro rfl
      exact hnone ⟨cs, List.append_nil _⟩
    rw [← hne]
    refine ⟨validate_run hbad, fun out => ⟨_, toCodepoints_run hbad out⟩, fun out => ?_⟩
    rw [countCodepoints_run hbad, hne]
    rfl
  · rcases decode_eq_some hdecode with ⟨c, rest, hc, hs, hn⟩
    refine ⟨c, rest, hc, ?_, ?_⟩
    · rw [encode_char, List.nil_append, hs]
    · rw [encode_char, List.nil_append, hn]
  · rintro ⟨c, rest, rfl, rfl, rfl⟩
    rw [encode_char, List.nil_append]
    exact decode_utf8EncodeChar c rest

/-- The euro sign, and the slash in two bytes. -/
theorem validate_exact_overlong :
    (∀ out, toCodepoints (encodeAll [Char.ofNat 0x20AC]) out = .ok (true, out ++ [0x20AC])) ∧
      validate [0xC0, 0xAF] = .ok false ∧ ∀ out, countCodepoints [0xC0, 0xAF] out = .ok (false, out) := by
  have hsign := validate_exact (encodeAll [Char.ofNat 0x20AC])
  have hslash := validate_exact [0xC0, 0xAF]
  have hinvalid : ¬ validate [0xC0, 0xAF] = .ok true := by decide +kernel
  have hfails := hslash.2.2.1 (fun h => hinvalid (hslash.1.mpr h))
  exact ⟨(hsign.2.1 _ rfl).2.1, hfails.1, hfails.2.2⟩

end Bytewright.Common.Utf8
