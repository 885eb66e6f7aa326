import Bytewright.Library.BitOrder
import Bytewright.Model.Common.BitReader
import Bytewright.Verification.Common.ByteReader

/-! # The bit reader

Its fast and its slow path read the same bits. -/

namespace Bytewright.Common

open Bytewright.Library

/-! ### The view of a cursor -/

namespace BitReader

/-- The bytes that the size in bits covers. -/
def readable (r : BitReader) : Bytes := r.data.take (r.sizeBits / 8)

theorem readable_length (r : BitReader) : 8 * r.readable.length = r.sizeBits := by
  rw [readable, List.length_take, sizeBits, UInt64.toNat_ofNat']
  omega

/-- The bits from the cursor to the end of the buffer. -/
def rest (r : BitReader) : List Bool := (bitsOf msbFirst r.readable).drop r.bitPos

theorem rest_length (r : BitReader) : r.rest.length = r.sizeBits - r.bitPos := by
  rw [rest, List.length_drop, msbFirst_order.length_bitsOf, r.readable_length]

theorem bitsRemaining_eq (r : BitReader) : r.bitsRemaining = r.rest.length := by
  rw [bitsRemaining, rest_length]
  split <;> omega

@[simp] theorem rest_advance (r : BitReader) (n : Nat) : (r.advance n).rest = r.rest.drop n := by
  rw [rest, rest, List.drop_drop]
  rfl

@[simp] theorem advance_advance (r : BitReader) (m n : Nat) :
    (r.advance m).advance n = r.advance (m + n) := by
  simp [advance, Nat.add_assoc]

/-- The next bit is one of the byte the cursor is in. -/
theorem head?_rest (r : BitReader) :
    r.rest.head? = r.readable[r.bitPos / 8]?.map fun b => b.toNat.testBit (7 - r.bitPos % 8) := by
  have hlt : r.bitPos % 8 < 8 := Nat.mod_lt _ (by decide)
  rw [rest, List.head?_drop, msbFirst_order.getElem?_bitsOf]
  cases r.readable[r.bitPos / 8]? with
  | none => rfl
  | some b => simp [msbFirst, hlt]

/-- At a byte boundary the next bits are those of the whole byte. -/
theorem rest_aligned {r : BitReader} (h : r.bitPos % 8 = 0) :
    r.rest = bitsOf msbFirst (r.readable.drop (r.bitPos / 8)) := by
  have hpos : r.bitPos = 8 * (r.bitPos / 8) := by omega
  rw [← msbFirst_order.drop_bitsOf, ← hpos, rest]

end BitReader

/-! ### One bit -/

theorem shiftRight_and_one (b : UInt8) {i : Nat} (hi : i < 8) :
    (b >>> UInt8.ofNat i) &&& 1 = (b.toNat.testBit i).toUInt8 := by
  have hshift : (UInt8.ofNat i).toNat % 8 = i := by
    rw [UInt8.toNat_ofNat']
    omega
  apply UInt8.toNat_inj.mp
  rw [UInt8.toNat_and, UInt8.toNat_shiftRight, hshift, Nat.shiftRight_eq_div_pow, UInt8.toNat_one,
    Nat.and_one_is_mod, Nat.testBit_eq_decide_div_mod_eq]
  rcases Nat.mod_two_eq_zero_or_one (b.toNat / 2 ^ i) with h | h <;> rw [h] <;> rfl

theorem currentByte_run {r : BitReader} {b : UInt8} (h : r.readable[r.bitPos / 8]? = some b) :
    currentByte r = .ok b r := by
  have hbyte : r.data[r.bitPos / 8]? = some b := by
    rw [BitReader.readable, List.getElem?_take] at h
    split at h
    · exact h
    · cases h
  rw [currentByte, bind_of_ok (get_run r), hbyte]
  rfl

theorem readBit_run (r : BitReader) :
    readBit r = match r.rest with
      | b :: _ => .ok b.toUInt8 (r.advance 1)
      | [] => .error (.thrown ⟨.kShortRead, r.bitPos / 8, "bit read past end"⟩) r := by
  have hlen := r.rest_length
  rw [readBit, bind_of_ok (get_run r), ite_run]
  cases hrest : r.rest with
  | nil =>
      rw [hrest, List.length_nil] at hlen
      rw [if_pos (by omega)]
      rfl
  | cons b bits =>
      rw [hrest, List.length_cons] at hlen
      have hhead := r.head?_rest
      rw [hrest, List.head?_cons] at hhead
      obtain ⟨c, hc, rfl⟩ := Option.map_eq_some_iff.mp hhead.symm
      rw [if_neg (by omega)]
      dsimp only
      rw [bind_of_ok (currentByte_run hc), bind_of_ok (modify_run _ _), shiftRight_and_one c (by omega)]
      rfl

/-- A bit that is there is read, and the others are still there. -/
theorem readBit_next {n : Nat} {r : BitReader} (h : n + 1 ≤ r.rest.length) :
    ∃ b, r.rest = b :: (r.advance 1).rest ∧ readBit r = .ok b.toUInt8 (r.advance 1) ∧
      n ≤ (r.advance 1).rest.length := by
  cases hrest : r.rest with
  | nil => simp [hrest] at h
  | cons b bits =>
      have hnext : (r.advance 1).rest = bits := by
        rw [r.rest_advance, hrest, List.drop_one, List.tail_cons]
      rw [hrest] at h
      exact ⟨b, by rw [hnext], by rw [readBit_run, hrest], by rw [hnext]; exact Nat.le_of_succ_le_succ h⟩

/-! ### The two paths -/

/-- One more bit in the word. -/
theorem ofNat_pushBit (v : Nat) (b : Bool) :
    (UInt64.ofNat v <<< 1) ||| b.toUInt8.toUInt64 = UInt64.ofNat (pushBit v b) := by
  have hbit : b.toUInt8.toUInt64.toNat = b.toNat := by cases b <;> rfl
  have hlt : b.toUInt8.toUInt64.toNat < 2 ^ 1 := by cases b <;> decide
  have hpush := ofNat_shiftLeft_or (by decide) v hlt
  rw [hbit, Nat.pow_one, Nat.mul_comm] at hpush
  exact hpush

/-- One more byte in the word is eight more bits. -/
theorem ofNat_pushByte (v : Nat) (b : UInt8) :
    (UInt64.ofNat v <<< 8) ||| b.toUInt64 = UInt64.ofNat ((msbFirst b).foldl pushBit v) := by
  have hlt : b.toUInt64.toNat < 2 ^ 8 := by
    rw [UInt8.toNat_toUInt64]
    exact b.toNat_lt
  have hpush := ofNat_shiftLeft_or (by decide) v hlt
  rw [UInt8.toNat_toUInt64] at hpush
  rw [foldl_pushBit, msbFirst_length, bitValue_msbFirst]
  exact hpush

theorem readSingleBits_run (n v : Nat) {r : BitReader} (h : n ≤ r.rest.length) :
    readSingleBits n (UInt64.ofNat v) r =
      .ok (UInt64.ofNat ((r.rest.take n).foldl pushBit v)) (r.advance n) := by
  induction n generalizing v r with
  | zero => rfl
  | succ n ih =>
      obtain ⟨b, hrest, hbit, hbits⟩ := readBit_next h
      rw [readSingleBits, bind_of_ok hbit, ofNat_pushBit, ih _ hbits, r.advance_advance, hrest,
        Nat.add_comm 1 n, List.take_succ_cons, List.foldl_cons]

theorem readWholeBytes_of_lt {n : Nat} (h : n < 8) (value : UInt64) :
    readWholeBytes n value = pure (value, n) := by
  rw [readWholeBytes]
  intro m hm
  omega

/-- The fast path reads some of the bits and says how many are left. -/
theorem readWholeBytes_run (n v : Nat) {r : BitReader} (h : n ≤ r.rest.length) :
    ∃ k left, k + left = n ∧ readWholeBytes n (UInt64.ofNat v) r =
      .ok (UInt64.ofNat ((r.rest.take k).foldl pushBit v), left) (r.advance k) := by
  induction n using Nat.strongRecOn generalizing v r with
  | ind n ih =>
      by_cases hn : n < 8
      · exact ⟨0, n, Nat.zero_add n, by rw [readWholeBytes_of_lt hn]; rfl⟩
      · obtain ⟨m, rfl⟩ := Nat.exists_eq_add_of_le' (Nat.le_of_not_lt hn)
        rw [readWholeBytes, bind_of_ok (get_run r), ite_run]
        by_cases haligned : r.bitPos % 8 = 0
        · rw [if_pos haligned]
          have hrest := BitReader.rest_aligned haligned
          cases hdata : r.readable.drop (r.bitPos / 8) with
          | nil =>
              rw [hrest, hdata] at h
              simp at h
          | cons b data =>
              rw [hdata, bitsOf_cons] at hrest
              have hbyte : currentByte r = .ok b r :=
                currentByte_run (by rw [← List.head?_drop, hdata]; rfl)
              have hnext : (r.advance 8).rest = bitsOf msbFirst data := by
                rw [r.rest_advance, hrest, List.drop_left' (msbFirst_length b)]
              have hbits : m ≤ (r.advance 8).rest.length := by
                rw [r.rest_advance, List.length_drop]
                omega
              obtain ⟨k, left, hsum, hrun⟩ := ih m (by omega) ((msbFirst b).foldl pushBit v) hbits
              have htake : r.rest.take (8 + k) = msbFirst b ++ (bitsOf msbFirst data).take k := by
                rw [hrest, ← msbFirst_length b, List.take_length_add_append]
              refine ⟨8 + k, left, by omega, ?_⟩
              rw [bind_of_ok hbyte, bind_of_ok (modify_run _ _), ofNat_pushByte, hrun, hnext, htake,
                r.advance_advance, List.foldl_append]
        · rw [if_neg haligned]
          exact ⟨0, m + 8, Nat.zero_add _, rfl⟩

/-- All bits of a width of 64 bits at most. -/
theorem readBits_run {n : Nat} (hn : n ≤ 64) {r : BitReader} (h : n ≤ r.rest.length) :
    readBits n r = .ok (UInt64.ofNat (bitValue (r.rest.take n))) (r.advance n) := by
  rw [readBits, ite_run]
  by_cases hzero : n = 0
  · subst hzero
    rfl
  · rw [if_neg hzero]
    dsimp only
    rw [bind_of_ok (get_run r), ite_run, if_neg (by omega)]
    rw [ite_run, r.bitsRemaining_eq, if_neg (by omega)]
    obtain ⟨k, left, hsum, hwhole⟩ := readWholeBytes_run n 0 h
    change readWholeBytes n 0 r = _ at hwhole
    have hleft : left ≤ (r.advance k).rest.length := by
      rw [r.rest_advance, List.length_drop]
      omega
    rw [bind_of_ok hwhole, readSingleBits_run left _ hleft, r.rest_advance, ← List.foldl_append,
      ← List.take_add, r.advance_advance, hsum]
    rfl

/-! ### Reads that fail -/

/-- An error of the bit reader that leaves it as it was. -/
def LeftAt (r : BitReader) (e : Fault) (s : BitReader) : Prop :=
  s = r ∧ ∃ code what, e = .thrown ⟨code, r.bitPos / 8, what⟩ ∧ (code = .kShortRead ∨ code = .kBadLength)

theorem readBit_error {r s : BitReader} {e : Fault} (h : readBit r = .error e s) : LeftAt r e s := by
  rw [readBit_run] at h
  split at h
  · cases h
  · cases h
    exact ⟨rfl, _, _, rfl, .inl rfl⟩

/-- A width that is too large, or larger than what is left. -/
theorem readBits_refused {n : Nat} {r : BitReader} (h : ¬ (n ≤ 64 ∧ n ≤ r.rest.length)) :
    ∃ e, readBits n r = .error e r ∧ LeftAt r e r := by
  have hpos : ¬ n = 0 := fun hzero => h (by omega)
  rw [readBits, ite_run, if_neg hpos]
  dsimp only
  rw [bind_of_ok (get_run r), ite_run]
  by_cases hwide : n > 64
  · rw [if_pos hwide]
    exact ⟨_, rfl, rfl, _, _, rfl, .inr rfl⟩
  · rw [if_neg hwide, ite_run, r.bitsRemaining_eq, if_pos (by omega)]
    exact ⟨_, rfl, rfl, _, _, rfl, .inl rfl⟩

theorem readBits_error {n : Nat} {r s : BitReader} {e : Fault} (h : readBits n r = .error e s) :
    LeftAt r e s := by
  by_cases hn : n ≤ 64 ∧ n ≤ r.rest.length
  · rw [readBits_run hn.1 hn.2] at h
    cases h
  · obtain ⟨e', hrun, hleft⟩ := readBits_refused hn
    rw [hrun] at h
    cases h
    exact hleft

theorem skipBits_run (n : Nat) (r : BitReader) :
    skipBits n r =
      if n ≤ r.rest.length then .ok () (r.advance n)
      else .error (.thrown ⟨.kShortRead, r.bitPos / 8, describe .kShortRead⟩) r := by
  rw [skipBits, bind_of_ok (get_run r), ite_run, r.bitsRemaining_eq]
  by_cases h : n ≤ r.rest.length
  · rw [if_neg (by omega), if_pos h]
    rfl
  · rw [if_pos (by omega), if_neg h]
    rfl

theorem skipBits_error {n : Nat} {r s : BitReader} {e : Fault} (h : skipBits n r = .error e s) :
    LeftAt r e s := by
  rw [skipBits_run] at h
  split at h
  · cases h
  · cases h
    exact ⟨rfl, _, _, rfl, .inl rfl⟩

theorem align_run (r : BitReader) :
    align r = .ok () (r.advance ((8 - r.bitPos % 8) % 8)) := by
  have hlt : r.bitPos % 8 < 8 := Nat.mod_lt _ (by decide)
  rw [align, bind_of_ok (get_run r), ite_run]
  by_cases h : r.bitPos % 8 = 0
  · rw [if_neg (not_not_intro h), h]
    rfl
  · have hrem : (8 - r.bitPos % 8) % 8 = 8 - r.bitPos % 8 := Nat.mod_eq_of_lt (by omega)
    rw [if_pos h, hrem]
    rfl

/-! ### One bit after the other -/

/-- `n` calls of `read_bit`. -/
def readEach : (n : Nat) → Bits (List UInt8)
  | 0 => return []
  | n + 1 => do
    let bit ← readBit
    return bit :: (← readEach n)

/-- Bits in one word, the most significant one first. -/
def combine (bits : List UInt8) : UInt64 :=
  bits.foldl (fun value bit => (value <<< 1) ||| bit.toUInt64) 0

theorem combine_toUInt8 (bits : List Bool) :
    combine (bits.map Bool.toUInt8) = UInt64.ofNat (bitValue bits) := by
  have hfold : ∀ (bits : List Bool) (v : Nat),
      (bits.map Bool.toUInt8).foldl (fun (value : UInt64) bit => (value <<< 1) ||| bit.toUInt64)
        (UInt64.ofNat v) = UInt64.ofNat (bits.foldl pushBit v) := by
    intro bits
    induction bits with
    | nil => exact fun _ => rfl
    | cons b bits ih =>
        intro v
        rw [List.map_cons, List.foldl_cons, List.foldl_cons, ofNat_pushBit, ih]
  exact hfold bits 0

theorem readEach_run {n : Nat} {r : BitReader} (h : n ≤ r.rest.length) :
    readEach n r = .ok ((r.rest.take n).map Bool.toUInt8) (r.advance n) := by
  induction n generalizing r with
  | zero => rfl
  | succ n ih =>
      obtain ⟨b, hrest, hbit, hbits⟩ := readBit_next h
      rw [readEach, bind_of_ok hbit, bind_of_ok (ih hbits), r.advance_advance, hrest, Nat.add_comm 1 n]
      rfl

theorem toNat_ofNat_bitValue {bits : List Bool} (h : bits.length ≤ 64) :
    (UInt64.ofNat (bitValue bits)).toNat = bitValue bits := by
  rw [UInt64.toNat_ofNat']
  exact Nat.mod_eq_of_lt ((bitValue_lt bits).trans_le (Nat.pow_le_pow_right (by decide) h))

/-- Wide fields, single bits and fields in two parts all read the same; and a read that fails leaves
the cursor where it was. -/
theorem readBits_paths (r : BitReader) :
    (∀ a b, a + b ≤ 64 → a + b ≤ r.bitsRemaining →
      ∃ v hi lo, readBits (a + b) r = .ok v (r.advance (a + b)) ∧
        (combine <$> readEach (a + b)) r = .ok v (r.advance (a + b)) ∧
        readBits a r = .ok hi (r.advance a) ∧
        readBits b (r.advance a) = .ok lo (r.advance (a + b)) ∧
        v.toNat = (hi.toNat <<< b) ||| lo.toNat) ∧
    ∀ e s, (readBit r = .error e s ∨ (∃ n, readBits n r = .error e s) ∨
        ∃ n, skipBits n r = .error e s) → LeftAt r e s := by
  constructor
  · intro a b hwidth hremaining
    rw [r.bitsRemaining_eq] at hremaining
    have hlow : b ≤ (r.advance a).rest.length := by
      rw [r.rest_advance, List.length_drop]
      omega
    refine ⟨_, _, _, readBits_run hwidth hremaining, ?_, readBits_run (by omega) (by omega),
      (readBits_run (by omega) hlow).trans (by rw [r.advance_advance]), ?_⟩
    · rw [map_run, readEach_run hremaining]
      dsimp only
      rw [combine_toUInt8]
    · rw [toNat_ofNat_bitValue (by simp; omega), toNat_ofNat_bitValue (by simp; omega),
        toNat_ofNat_bitValue (by simp; omega), r.rest_advance]
      exact bitValue_take_add r.rest (by omega)
  · rintro e s (h | ⟨n, h⟩ | ⟨n, h⟩)
    · exact readBit_error h
    · exact readBits_error h
    · exact skipBits_error h

/-- A field that starts inside a byte and ends inside another, and one that is too long. -/
theorem readBits_paths_unaligned :
    let r : BitReader := { data := [0xAB, 0xCD, 0xEF], bitPos := 4 }
    (∃ v hi lo, readBits (5 + 12) r = .ok v (r.advance 17) ∧
      (combine <$> readEach (5 + 12)) r = .ok v (r.advance 17) ∧
      readBits 5 r = .ok hi (r.advance 5) ∧ readBits 12 (r.advance 5) = .ok lo (r.advance 17) ∧
      v.toNat = (hi.toNat <<< 12) ||| lo.toNat) ∧
    LeftAt r (.thrown ⟨.kShortRead, 0, describe .kShortRead⟩) r :=
  ⟨(readBits_paths _).1 5 12 (by decide) (by decide),
    (readBits_paths _).2 _ _ (.inr (.inl ⟨21, rfl⟩))⟩

/-! ### Any sequence of calls -/

/-- A call of the bit reader. -/
inductive BitOperation where
  | readBit
  | readBits (count : Nat)
  | skipBits (count : Nat)
  | align

namespace BitOperation

def run : BitOperation → Bits Unit
  | readBit => (fun _ => ()) <$> Common.readBit
  | readBits count => (fun _ => ()) <$> Common.readBits count
  | skipBits count => Common.skipBits count
  | align => Common.align

/-- The reader behind the call, also behind one that threw. -/
def after (op : BitOperation) (r : BitReader) : BitReader :=
  match op.run r with
  | .ok _ s => s
  | .error _ s => s

/-- A call that returns moves the cursor inside the buffer, and one that throws leaves it. -/
theorem run_spec (op : BitOperation) {r : BitReader} (h : r.bitPos ≤ r.sizeBits) :
    (∃ n, op.run r = .ok () (r.advance n) ∧ r.bitPos + n ≤ r.sizeBits) ∨
      ∃ e, op.run r = .error e r ∧ LeftAt r e r := by
  have hlen := r.rest_length
  cases op with
  | readBit =>
      rw [run, map_run, readBit_run]
      cases hrest : r.rest with
      | nil => exact .inr ⟨_, rfl, rfl, _, _, rfl, .inl rfl⟩
      | cons b bits =>
          rw [hrest, List.length_cons] at hlen
          exact .inl ⟨1, rfl, by omega⟩
  | readBits count =>
      rw [run, map_run]
      by_cases hcount : count ≤ 64 ∧ count ≤ r.rest.length
      · rw [readBits_run hcount.1 hcount.2]
        exact .inl ⟨count, rfl, by omega⟩
      · obtain ⟨e, hrun, hleft⟩ := readBits_refused hcount
        rw [hrun]
        exact .inr ⟨e, rfl, hleft⟩
  | skipBits count =>
      rw [run, skipBits_run]
      by_cases hcount : count ≤ r.rest.length
      · rw [if_pos hcount]
        exact .inl ⟨count, rfl, by omega⟩
      · rw [if_neg hcount]
        exact .inr ⟨_, rfl, rfl, _, _, rfl, .inl rfl⟩
  | align =>
      have hsize : r.sizeBits % 8 = 0 := by
        rw [← r.readable_length]
        exact Nat.mul_mod_right 8 _
      exact .inl ⟨_, align_run r, by omega⟩

theorem after_inside (op : BitOperation) {r : BitReader} (h : r.bitPos ≤ r.sizeBits) :
    (op.after r).data = r.data ∧ (op.after r).bitPos ≤ (op.after r).sizeBits := by
  cases op.run_spec h with
  | inl hmoved =>
      obtain ⟨n, hrun, hn⟩ := hmoved
      rw [after, hrun]
      exact ⟨rfl, hn⟩
  | inr hfailed =>
      obtain ⟨e, hrun, -⟩ := hfailed
      rw [after, hrun]
      exact ⟨rfl, h⟩

theorem run_inside (ops : List BitOperation) {r : BitReader} (h : r.bitPos ≤ r.sizeBits) :
    (ops.foldl (fun r op => op.after r) r).data = r.data ∧
      (ops.foldl (fun r op => op.after r) r).bitPos ≤ (ops.foldl (fun r op => op.after r) r).sizeBits := by
  induction ops generalizing r with
  | nil => exact ⟨rfl, h⟩
  | cons op ops ih =>
      obtain ⟨hdata, hinside⟩ := op.after_inside h
      obtain ⟨hrest, hend⟩ := ih hinside
      exact ⟨hrest.trans hdata, hend⟩

end BitOperation

/-- After any calls the cursor is in the buffer, and the next call never reads outside it: if it fails, it
throws and leaves the reader as it was. -/
theorem bitReader_safe (data : Bytes) (ops : List BitOperation) (op : BitOperation) :
    let r := ops.foldl (fun r op => op.after r) { data }
    r.data = data ∧ r.bitPos ≤ r.sizeBits ∧ ∀ e s, op.run r = .error e s → LeftAt r e s := by
  intro r
  have hstart : BitReader.bitPos { data } ≤ BitReader.sizeBits { data } := Nat.zero_le _
  obtain ⟨hdata, hinside⟩ := BitOperation.run_inside ops hstart
  refine ⟨hdata, hinside, fun e s herror => ?_⟩
  cases op.run_spec hinside with
  | inl hmoved =>
      obtain ⟨n, hrun, -⟩ := hmoved
      rw [hrun] at herror
      cases herror
  | inr hfailed =>
      obtain ⟨e', hrun, hleft⟩ := hfailed
      rw [hrun] at herror
      cases herror
      exact hleft

end Bytewright.Common
