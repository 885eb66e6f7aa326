import Mathlib.Data.List.Induction
import Bytewright.Verification.Common.Codec

/-! # The variable-length integer codec -/

namespace Bytewright.Common

/-! ### The writer, as arithmetic -/

theorem toNat_shiftRight_seven (v : UInt64) : (v >>> 7).toNat = v.toNat / 128 := by
  rw [UInt64.toNat_shiftRight]
  simp [Nat.shiftRight_eq_div_pow]

theorem varintBytes_of_lt {v : UInt64} (h : v.toNat < 128) :
    varintBytes v = [v.toUInt8] := by
  have hn : ¬ v ≥ 0x80 := fun hge => by
    have := UInt64.le_iff_toNat_le.mp hge
    simp at this
    omega
  rw [varintBytes, dif_neg hn]

theorem varintBytes_ofNat_of_lt {n : Nat} (h : n < 128) :
    varintBytes (UInt64.ofNat n) = [UInt8.ofNat n] := by
  have hn : (UInt64.ofNat n).toNat = n := by
    rw [UInt64.toNat_ofNat', Nat.mod_eq_of_lt (by omega)]
  rw [varintBytes_of_lt (by rwa [hn])]
  simp

theorem varintBytes_of_ge {v : UInt64} (h : 128 ≤ v.toNat) :
    varintBytes v = ((v &&& 0x7F) ||| 0x80).toUInt8 :: varintBytes (v >>> 7) := by
  have hge : v ≥ 0x80 := UInt64.le_iff_toNat_le.mpr h
  rw [varintBytes, dif_pos hge]

/-! ### Bytes, as arithmetic -/

theorem toNat_and_0x7F (b : UInt8) : (b &&& 0x7F).toNat = b.toNat % 128 := by
  rw [UInt8.toNat_and]
  exact Nat.and_two_pow_sub_one_eq_mod b.toNat 7

theorem and_0x80_eq_zero_iff (b : UInt8) : b &&& 0x80 = 0 ↔ b.toNat < 128 := by
  obtain ⟨b⟩ := b
  revert b
  decide +kernel

theorem and_0x80_ne_zero {b : UInt8} (hb : 128 ≤ b.toNat) : ¬ b &&& 0x80 = 0 := by
  rw [and_0x80_eq_zero_iff]
  exact Nat.not_lt.mpr hb

theorem toNat_continuation_byte (v : UInt64) :
    (((v &&& 0x7F) ||| 0x80).toUInt8).toNat = v.toNat % 128 + 128 := by
  have hand : (v &&& 0x7F).toNat = v.toNat % 128 := by
    rw [UInt64.toNat_and]
    exact Nat.and_two_pow_sub_one_eq_mod v.toNat 7
  have hlt : v.toNat % 128 < 2 ^ 7 := Nat.mod_lt _ (by decide)
  have hor : v.toNat % 128 ||| 2 ^ 7 = 2 ^ 7 + v.toNat % 128 := by
    rw [Nat.or_comm, ← Nat.mul_one (2 ^ 7), ← Nat.two_pow_add_eq_or_of_lt hlt]
  rw [UInt64.toNat_toUInt8, UInt64.toNat_or, hand]
  change (v.toNat % 128 ||| 2 ^ 7) % 256 = _
  rw [hor]
  omega

/-- One round of the reader adds seven more bits above those it holds. -/
theorem toNat_or_shiftLeft {acc : UInt64} {b : UInt8} {shift : Nat} (hs : shift < 64)
    (hacc : acc.toNat < 2 ^ shift) (hfit : b.toNat % 128 * 2 ^ shift < 2 ^ 64) :
    (acc ||| ((b &&& 0x7F).toUInt64 <<< UInt64.ofNat shift)).toNat =
      acc.toNat + b.toNat % 128 * 2 ^ shift := by
  have hs' : (UInt64.ofNat shift).toNat % 64 = shift := by
    rw [UInt64.toNat_ofNat']
    omega
  rw [UInt64.toNat_or, UInt64.toNat_shiftLeft, UInt8.toNat_toUInt64, toNat_and_0x7F, hs',
    Nat.shiftLeft_eq, Nat.mod_eq_of_lt hfit, Nat.or_comm, Nat.mul_comm,
    ← Nat.two_pow_add_eq_or_of_lt hacc, Nat.add_comm]

/-! ### Encodings -/

/-- The sum of `(byte_i mod 128) * 128 ^ i`. -/
def varintValue (bs : Bytes) : Nat := (bs.mapIdx fun i b => b.toNat % 128 * 128 ^ i).sum

/-- One encoding: bytes with the high bit set, then one without it. -/
def IsVarint (bs : Bytes) : Prop :=
  ∃ cs b, bs = cs ++ [b] ∧ (∀ c ∈ cs, 128 ≤ c.toNat) ∧ b.toNat < 128

@[simp] theorem varintValue_nil : varintValue [] = 0 := rfl

theorem varintValue_append (bs : Bytes) (b : UInt8) :
    varintValue (bs ++ [b]) = varintValue bs + b.toNat % 128 * 128 ^ bs.length := by
  simp [varintValue, List.mapIdx_append]

theorem varintValue_cons (b : UInt8) (bs : Bytes) :
    varintValue (b :: bs) = b.toNat % 128 + 128 * varintValue bs := by
  induction bs using List.reverseRecOn with
  | nil => simp [varintValue]
  | append_singleton bs c ih =>
      rw [← List.cons_append, varintValue_append, varintValue_append, ih, List.length_cons, pow_succ]
      ring

theorem varintValue_lt (bs : Bytes) : varintValue bs < 128 ^ bs.length := by
  induction bs with
  | nil => exact Nat.one_pos
  | cons b bs ih =>
      rw [varintValue_cons, List.length_cons, pow_succ]
      have hb : b.toNat % 128 < 128 := Nat.mod_lt _ (by decide)
      omega

theorem IsVarint.last {b : UInt8} (hb : b.toNat < 128) : IsVarint [b] := ⟨[], b, rfl, by simp, hb⟩

theorem IsVarint.more {b : UInt8} {bs : Bytes} (hb : 128 ≤ b.toNat) (h : IsVarint bs) :
    IsVarint (b :: bs) := by
  rcases h with ⟨cs, c, rfl, hcs, hc⟩
  exact ⟨b :: cs, c, rfl, List.forall_mem_cons.mpr ⟨hb, hcs⟩, hc⟩

theorem isVarint_varintBytes (v : UInt64) : IsVarint (varintBytes v) := by
  induction v using varintBytes.induct with
  | case1 v hv ih =>
      have hge : 128 ≤ v.toNat := UInt64.le_iff_toNat_le.mp hv
      rw [varintBytes_of_ge hge]
      exact ih.more (by rw [toNat_continuation_byte]; omega)
  | case2 v hv =>
      have hlt : v.toNat < 128 := Nat.lt_of_not_le fun hge => hv (UInt64.le_iff_toNat_le.mpr hge)
      rw [varintBytes_of_lt hlt]
      exact .last (by rw [UInt64.toNat_toUInt8]; omega)

theorem varintValue_varintBytes (v : UInt64) : varintValue (varintBytes v) = v.toNat := by
  induction v using varintBytes.induct with
  | case1 v hv ih =>
      have hge : 128 ≤ v.toNat := UInt64.le_iff_toNat_le.mp hv
      rw [varintBytes_of_ge hge, varintValue_cons, ih, toNat_continuation_byte, toNat_shiftRight_seven]
      omega
  | case2 v hv =>
      have hlt : v.toNat < 128 := Nat.lt_of_not_le fun hge => hv (UInt64.le_iff_toNat_le.mpr hge)
      rw [varintBytes_of_lt hlt, varintValue_cons, varintValue_nil, UInt64.toNat_toUInt8]
      omega

theorem varintBytes_length_le {v : UInt64} {n : Nat} (hn : 0 < n) (h : v.toNat < 2 ^ (7 * n)) :
    (varintBytes v).length ≤ n := by
  induction v using varintBytes.induct generalizing n with
  | case1 v hv ih =>
      have hge : 128 ≤ v.toNat := UInt64.le_iff_toNat_le.mp hv
      rcases Nat.exists_eq_add_of_lt hn with ⟨m, rfl⟩
      have hpow : 2 ^ (7 * (0 + m + 1)) = 128 * 2 ^ (7 * m) := by
        rw [Nat.zero_add, Nat.mul_succ, Nat.add_comm, Nat.pow_add]
      rw [hpow] at h
      have hm : 0 < m := by
        rcases Nat.eq_zero_or_pos m with rfl | hm
        · simp at h
          omega
        · exact hm
      rw [varintBytes_of_ge hge, List.length_cons]
      have hrest := ih hm (by rw [toNat_shiftRight_seven]; omega)
      omega
  | case2 v hv =>
      rw [varintBytes, dif_neg hv]
      exact hn

/-! ### Reading an encoding -/

theorem readVarintFrom_last {b : UInt8} (start left shift : Nat) (acc : UInt64)
    (hb : b.toNat < 128) :
    Reads (readVarintFrom start (left + 1) shift acc) [b]
      (acc ||| ((b &&& 0x7F).toUInt64 <<< UInt64.ofNat shift)) := by
  intro r rest hr
  rw [readVarintFrom, bind_of_ok (reads_readU8 b r rest hr)]
  simp [(and_0x80_eq_zero_iff b).mpr hb]

theorem readVarintFrom_more {b : UInt8} {bs : Bytes} {v : UInt64} (start left shift : Nat)
    (acc : UInt64) (hb : 128 ≤ b.toNat)
    (h : Reads (readVarintFrom start left (shift + 7)
      (acc ||| ((b &&& 0x7F).toUInt64 <<< UInt64.ofNat shift))) bs v) :
    Reads (readVarintFrom start (left + 1) shift acc) (b :: bs) v := by
  intro r rest hr
  have hne := and_0x80_ne_zero hb
  rw [readVarintFrom, bind_of_ok (reads_readU8 b r (bs ++ rest) hr)]
  have hrest : (r.advance 1).rest = bs ++ rest := by simp [hr]
  simp only [hne, if_false]
  rw [List.length_singleton, h _ rest hrest]
  simp [Nat.add_comm]

/-- The loop takes an encoding no longer than the rounds it has left. A value that fits the word
is gathered whole. -/
theorem readVarintFrom_encoding {cs : Bytes} {b : UInt8} (start : Nat) (hb : b.toNat < 128) :
    ∀ (left shift : Nat) (acc : UInt64), (∀ c ∈ cs, 128 ≤ c.toNat) → cs.length < left →
      shift + 7 * left = 70 → acc.toNat < 2 ^ shift →
      ∃ v : UInt64, Reads (readVarintFrom start left shift acc) (cs ++ [b]) v ∧
        (varintValue (cs ++ [b]) * 2 ^ shift < 2 ^ 64 →
          v.toNat = acc.toNat + varintValue (cs ++ [b]) * 2 ^ shift) := by
  induction cs with
  | nil =>
      intro left shift acc _ hlen hleft hacc
      obtain ⟨left, rfl⟩ : ∃ n, left = n + 1 := ⟨left - 1, by omega⟩
      refine ⟨_, readVarintFrom_last start left shift acc hb, fun hfit => ?_⟩
      have hvalue : varintValue ([] ++ [b]) = b.toNat % 128 := by simp [varintValue]
      rw [hvalue] at hfit ⊢
      exact toNat_or_shiftLeft (by omega) hacc hfit
  | cons c cs ih =>
      intro left shift acc hcs hlen hleft hacc
      obtain ⟨left, rfl⟩ : ∃ n, left = n + 1 := ⟨left - 1, by omega⟩
      rw [List.length_cons] at hlen
      have hmod : c.toNat % 128 < 128 := Nat.mod_lt _ (by decide)
      have hpow : 2 ^ (shift + 7) = 128 * 2 ^ shift := by rw [pow_add]; ring
      -- another round follows, so this byte's bits lie below the top of the word
      have hround : c.toNat % 128 * 2 ^ shift < 2 ^ 64 := by
        have htop : 2 ^ (shift + 7) ≤ 2 ^ 64 := Nat.pow_le_pow_right (by decide) (by omega)
        have hlt := Nat.mul_lt_mul_of_pos_right hmod (Nat.two_pow_pos shift)
        omega
      have hacc' := toNat_or_shiftLeft (by omega) hacc hround
      have hnext : acc.toNat + c.toNat % 128 * 2 ^ shift < 2 ^ (shift + 7) := by
        rw [hpow]
        nlinarith
      rcases ih left (shift + 7) _ (fun d hd => hcs d (List.mem_cons_of_mem c hd)) (by omega)
        (by omega) (by rwa [hacc']) with ⟨v, hreads, hv⟩
      have hsplit : varintValue (c :: cs ++ [b]) * 2 ^ shift =
          c.toNat % 128 * 2 ^ shift + varintValue (cs ++ [b]) * 2 ^ (shift + 7) := by
        rw [List.cons_append, varintValue_cons, hpow]
        ring
      refine ⟨v, readVarintFrom_more start left shift acc (hcs c (List.mem_cons_self ..)) hreads, ?_⟩
      intro hfit
      rw [hsplit] at hfit ⊢
      rw [hv (by omega), hacc', Nat.add_assoc]

/-- On an encoding of ten bytes at most the reader returns, with the number where it fits. -/
theorem IsVarint.decodes {bs rest : Bytes} {r : ByteReader} (h : IsVarint bs) (hlen : bs.length ≤ 10)
    (hr : r.rest = bs ++ rest) :
    ∃ v : UInt64, readVarint r = .ok v (r.advance bs.length) ∧
      (varintValue bs < 2 ^ 64 → v.toNat = varintValue bs) := by
  obtain ⟨cs, b, rfl, hcs, hb⟩ := h
  rw [List.length_append, List.length_singleton] at hlen
  rcases readVarintFrom_encoding r.pos hb 10 0 0 hcs (by omega) rfl (by decide) with ⟨v, hreads, hv⟩
  exact ⟨v, hreads r rest hr, by simpa using hv⟩

/-! ### Reading back what was written -/

/-- Any encoding that fits is read, the writer's or another. -/
theorem IsVarint.reads {bs : Bytes} (h : IsVarint bs) (hlen : bs.length ≤ 10)
    (hfit : varintValue bs < 2 ^ 64) : Reads readVarint bs (UInt64.ofNat (varintValue bs)) := by
  intro r rest hr
  rcases h.decodes hlen hr with ⟨v, hrun, hv⟩
  rw [hrun, ← hv hfit, UInt64.ofNat_toNat]

theorem reads_readVarint (v : UInt64) : Reads readVarint (varintBytes v) v := by
  have hlen : (varintBytes v).length ≤ 10 := varintBytes_length_le (by decide) (v.toNat_lt.trans (by decide))
  have hfit : varintValue (varintBytes v) < 2 ^ 64 := by
    rw [varintValue_varintBytes]
    exact v.toNat_lt
  have hreads := (isVarint_varintBytes v).reads hlen hfit
  rwa [varintValue_varintBytes, UInt64.ofNat_toNat] at hreads

theorem reads_readVarint_byte {n : Nat} (h : n < 128) :
    Reads readVarint [UInt8.ofNat n] (UInt64.ofNat n) := by
  have hreads := reads_readVarint (UInt64.ofNat n)
  rwa [varintBytes_ofNat_of_lt h] at hreads

/-! ### Any spelling the reader accepts -/

theorem starves_last {b : UInt8} (start left shift : Nat) (acc : UInt64) :
    Starves (readVarintFrom start (left + 1) shift acc) [b] := by
  rw [readVarintFrom]
  intro r hr hne
  rcases starves_readU8 b r hr hne with ⟨i, w, s, h⟩
  exact ⟨i, w, s, bind_of_error h⟩

theorem starves_more {b : UInt8} {bs : Bytes} (start left shift : Nat) (acc : UInt64)
    (hb : 128 ≤ b.toNat)
    (h : Starves (readVarintFrom start left (shift + 7)
      (acc ||| ((b &&& 0x7F).toUInt64 <<< UInt64.ofNat shift))) bs) :
    Starves (readVarintFrom start (left + 1) shift acc) (b :: bs) := by
  have hne := and_0x80_ne_zero hb
  rw [readVarintFrom, ← List.singleton_append]
  apply Starves.bind (reads_readU8 b) (starves_readU8 b)
  simp only [hne, if_false]
  exact h

/-- What the loop returns on, it took as one encoding, which it needs whole. -/
theorem exact_readVarintFrom {left start shift : Nat} {acc v : UInt64} {r s : ByteReader}
    (h : readVarintFrom start left shift acc r = .ok v s) :
    ∃ bs, IsVarint bs ∧ bs.length ≤ left ∧ r.rest = bs ++ s.rest ∧ s = r.advance bs.length ∧
      ∀ start', Reads (readVarintFrom start' left shift acc) bs v ∧
        Starves (readVarintFrom start' left shift acc) bs := by
  induction left generalizing shift acc r with
  | zero => cases h
  | succ left ih =>
      rw [readVarintFrom] at h
      rcases bind_eq_ok.mp h with ⟨b, t, hb, h⟩
      rcases readU8_ok hb with ⟨hr, rfl⟩
      by_cases hlast : b &&& 0x80 = 0
      · rw [if_pos hlast] at h
        cases h
        have hb : b.toNat < 128 := (and_0x80_eq_zero_iff b).mp hlast
        refine ⟨[b], .last hb, Nat.le_add_left 1 left, hr, rfl, fun start' => ⟨?_, ?_⟩⟩
        · exact readVarintFrom_last start' left shift acc hb
        · exact starves_last start' left shift acc
      · have hb : 128 ≤ b.toNat := Nat.le_of_not_lt fun hlt => hlast ((and_0x80_eq_zero_iff b).mpr hlt)
        simp only [hlast, if_false] at h
        rcases ih h with ⟨bs, hvarint, hlen, hr', hs, hbs⟩
        refine ⟨b :: bs, hvarint.more hb, Nat.succ_le_succ hlen, by rw [hr, hr']; rfl,
          by rw [hs]; simp [Nat.add_comm], fun start' => ?_⟩
        exact ⟨readVarintFrom_more start' left shift acc hb (hbs start').1,
          starves_more start' left shift acc hb (hbs start').2⟩

theorem exact_readVarint : Exact readVarint := by
  intro r v s h
  have h : readVarintFrom r.pos 10 0 0 r = .ok v s := h
  rcases exact_readVarintFrom h with ⟨bs, -, -, hr, hs, hbs⟩
  exact ⟨bs, hr, hs, fun r' => (hbs r'.pos).1 r', fun r' => (hbs r'.pos).2 r'⟩

/-- What the reader returns on, it took as one encoding of ten bytes at most. -/
theorem readVarint_takes {r s : ByteReader} {v : UInt64} (h : readVarint r = .ok v s) :
    ∃ bs, IsVarint bs ∧ bs.length ≤ 10 ∧ r.rest = bs ++ s.rest ∧ s = r.advance bs.length := by
  have h : readVarintFrom r.pos 10 0 0 r = .ok v s := h
  rcases exact_readVarintFrom h with ⟨bs, hbs, hlen, hr, hs, -⟩
  exact ⟨bs, hbs, hlen, hr, hs⟩

/-- No spelling of a number is shorter than the writer's, nor of a greater one. -/
theorem varintBytes_length_le_of_reads {bs : Bytes} {u v : UInt64} (h : Reads readVarint bs v)
    (hle : u.toNat ≤ v.toNat) : (varintBytes u).length ≤ bs.length := by
  have hrun := h.run (List.append_nil bs).symm
  rcases readVarint_takes hrun with ⟨cs, hcs, hlen, hrest, hadvance⟩
  obtain rfl : cs = bs := by simpa using hrest.symm
  rcases hcs.decodes hlen hrest with ⟨v', hv', hvalue⟩
  rw [hrun] at hv'
  cases hv'
  have hlt := varintValue_lt cs
  have hsmall : v.toNat < 128 ^ cs.length := by
    by_cases hfit : varintValue cs < 2 ^ 64
    · rwa [hvalue hfit]
    · exact v.toNat_lt.trans_le ((Nat.le_of_not_lt hfit).trans hlt.le)
  have hpos : 0 < cs.length := by
    rcases hcs with ⟨front, b, rfl, -⟩
    simp
  apply varintBytes_length_le hpos
  rw [pow_mul]
  exact hle.trans_lt hsmall

theorem onlyThrows_readVarint : OnlyThrows readVarint := by
  have hfrom : ∀ left start shift acc, OnlyThrows (readVarintFrom start left shift acc) := by
    intro left
    induction left with
    | zero => exact fun start _ _ => OnlyThrows.raise _ start _
    | succ left ih =>
        intro start shift acc
        rw [readVarintFrom]
        apply OnlyThrows.readU8.bind
        intro b
        dsimp only
        split
        · exact OnlyThrows.pure _
        · exact ih _ _ _
  exact fun r e s h => hfrom 10 r.pos 0 0 r e s h

/-! ### Signed integers -/

theorem sshiftRight_sixtyThree (v : BitVec 64) :
    v.sshiftRight 63 = if v.msb then BitVec.allOnes 64 else 0#64 := by
  ext i hi
  have hlast : ∀ h : 63 + i < 64, v[63 + i] = v.msb := by
    intro h
    obtain rfl : i = 0 := by omega
    simp [BitVec.msb_eq_getLsbD_last]
  have hbit : (v.sshiftRight 63)[i] = v.msb := by
    rw [BitVec.getElem_sshiftRight]
    split
    · exact hlast _
    · rfl
  rw [hbit]
  cases v.msb
  · simp
  · simp only [if_true, BitVec.getElem_allOnes]

/-- Doubling and flipping by the sign is undone by halving and flipping by the low bit. -/
theorem unzigzag_bits (v : BitVec 64) :
    (((v <<< 1) ^^^ v.sshiftRight 63) >>> 1) ^^^
      (~~~(((v <<< 1) ^^^ v.sshiftRight 63) &&& 1#64) + 1#64) = v := by
  rw [sshiftRight_sixtyThree, ← BitVec.neg_eq_not_add]
  have hmsb := BitVec.msb_eq_decide v
  cases h : v.msb
  · have hand : (v <<< 1) &&& 1#64 = 0#64 := by
      ext i hi
      by_cases h0 : i = 0 <;> simp [h0]
    rw [h] at hmsb
    simp only [Bool.false_eq_true, if_false, BitVec.xor_zero, hand, BitVec.neg_zero]
    apply BitVec.eq_of_toNat_eq
    simp [Nat.shiftLeft_eq, Nat.shiftRight_eq_div_pow] at hmsb ⊢
    omega
  · have hand : ~~~(v <<< 1) &&& 1#64 = 1#64 := by
      ext i hi
      by_cases h0 : i = 0 <;> simp [h0]
    have hneg : -1#64 = BitVec.allOnes 64 := by decide
    rw [h] at hmsb
    simp only [if_true, BitVec.xor_allOnes, hand, hneg]
    apply BitVec.eq_of_toNat_eq
    simp [Nat.shiftLeft_eq, Nat.shiftRight_eq_div_pow] at hmsb ⊢
    omega

theorem unzigzag_zigzag (v : Int64) :
    ((zigzag v >>> 1) ^^^ (~~~(zigzag v &&& 1) + 1)).toInt64 = v :=
  Int64.toBitVec_inj.mp (unzigzag_bits v.toBitVec)

theorem shiftRight_shiftLeft_getElem (w : BitVec 64) {i : Nat} (hi : i < 64) (hpos : i ≠ 0) :
    (w >>> 1)[i - 1] = w[i] := by
  have hsucc : 1 + (i - 1) = i := by omega
  rw [BitVec.getElem_ushiftRight, hsucc, BitVec.getLsbD_eq_getElem hi]

/-- Halving and flipping by the low bit is undone by doubling and flipping by the sign. -/
theorem zigzag_bits (w : BitVec 64) :
    (((w >>> 1) ^^^ (~~~(w &&& 1#64) + 1#64)) <<< 1) ^^^
      (((w >>> 1) ^^^ (~~~(w &&& 1#64) + 1#64)).sshiftRight 63) = w := by
  have hmsb : (w >>> 1).msb = false := by simp [BitVec.msb_eq_getLsbD_last]
  rw [sshiftRight_sixtyThree, ← BitVec.neg_eq_not_add]
  cases h : w[0] with
  | false =>
      have hand : w &&& 1#64 = 0#64 := by
        ext i hi
        by_cases h0 : i = 0 <;> simp [h0, h]
      rw [hand, BitVec.neg_zero, BitVec.xor_zero, hmsb]
      ext i hi
      by_cases h0 : i = 0
      · simp [h0, h]
      · simpa [h0] using shiftRight_shiftLeft_getElem w hi h0
  | true =>
      have hand : w &&& 1#64 = 1#64 := by
        ext i hi
        by_cases h0 : i = 0 <;> simp [h0, h]
      have hneg : -1#64 = BitVec.allOnes 64 := by decide
      have hall : (BitVec.allOnes 64).msb = true := by decide
      rw [hand, hneg, BitVec.msb_xor, hmsb, hall]
      ext i hi
      simp only [Bool.false_xor, if_true, BitVec.getElem_xor, BitVec.getElem_shiftLeft,
        BitVec.getElem_allOnes]
      by_cases h0 : i = 0
      · simp [h0, h]
      · simp [h0, shiftRight_shiftLeft_getElem w hi h0]

theorem zigzag_unzigzag (u : UInt64) :
    zigzag (((u >>> 1) ^^^ (~~~(u &&& 1) + 1)).toInt64) = u :=
  UInt64.toBitVec_inj.mp (zigzag_bits u.toBitVec)

theorem reads_readSvarint (v : Int64) : Reads readSvarint (varintBytes (zigzag v)) v := by
  have h := (reads_readVarint (zigzag v)).map
    (fun u : UInt64 => ((u >>> 1) ^^^ (~~~(u &&& 1) + 1)).toInt64)
  rwa [unzigzag_zigzag] at h

end Bytewright.Common
