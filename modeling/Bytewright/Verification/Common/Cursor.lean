import Bytewright.Model.Common.WordReader
import Bytewright.Verification.Common.ByteReader

/-! # The byte cursor

Any sequence of calls keeps the cursor in its buffer, also on machine words. -/

namespace Bytewright.Common

open Bytewright.Library

/-! ### Calls in sequence -/

/-- A call of the reader, with its arguments. -/
inductive Operation where
  | seek (pos : UInt64)
  | skip (n : UInt64)
  | require (n : UInt64)
  | readU8
  | readU16le
  | readU32le
  | readU64le
  | readU16be
  | readU32be
  | readU64be
  | readVarint
  | readSvarint
  | readBytes (n : UInt64)
  | readString (n : UInt64)
  | readRaw (n : UInt64)
  | peekU8
  | matchBytes (expected : Buffer)

/-- What a call returns. -/
inductive Value where
  | nothing
  | word (v : UInt64)
  | signed (v : Int64)
  | bytes (bs : Bytes)
  | flag (b : Bool)
  deriving DecidableEq, Repr

namespace Operation

/-- The two calls that read until a byte ends the number. -/
def isVarint : Operation → Bool
  | readVarint => true
  | readSvarint => true
  | _ => false

/-- The call on numbers without bounds. -/
def run : Operation → Reader Value
  | seek pos => do Common.seek pos.toNat; return .nothing
  | skip n => do Common.skip n.toNat; return .nothing
  | require n => do Common.require n.toNat; return .nothing
  | readU8 => return .word (← Common.readU8).toUInt64
  | readU16le => return .word (← Common.readU16le).toUInt64
  | readU32le => return .word (← Common.readU32le).toUInt64
  | readU64le => return .word (← Common.readU64le)
  | readU16be => return .word (← Common.readU16be).toUInt64
  | readU32be => return .word (← Common.readU32be).toUInt64
  | readU64be => return .word (← Common.readU64be)
  | readVarint => return .word (← Common.readVarint)
  | readSvarint => return .signed (← Common.readSvarint)
  | readBytes n => return .bytes (← Common.readBytes n.toNat)
  | readString n => return .bytes (← Common.readString n.toNat)
  | readRaw n => return .bytes (← Common.readRaw n.toNat)
  | peekU8 => return .word (← Common.peekU8).toUInt64
  | matchBytes expected => return .flag (← Common.matchBytes expected.bytes)

/-- The call on machine words. -/
def runWords : Operation → Words Value
  | seek pos => do WordReader.seek pos; return .nothing
  | skip n => do WordReader.skip n; return .nothing
  | require n => do WordReader.require n; return .nothing
  | readU8 => return .word (← WordReader.readU8).toUInt64
  | readU16le => return .word (← WordReader.readU16le).toUInt64
  | readU32le => return .word (← WordReader.readU32le).toUInt64
  | readU64le => return .word (← WordReader.readU64le)
  | readU16be => return .word (← WordReader.readU16be).toUInt64
  | readU32be => return .word (← WordReader.readU32be).toUInt64
  | readU64be => return .word (← WordReader.readU64be)
  | readVarint => return .word (← WordReader.readVarint)
  | readSvarint => return .signed (← WordReader.readSvarint)
  | readBytes n => return .bytes (← WordReader.readBytes n)
  | readString n => return .bytes (← WordReader.readString n)
  | readRaw n => return .bytes (← WordReader.readRaw n)
  | peekU8 => return .word (← WordReader.peekU8).toUInt64
  | matchBytes expected => return .flag (← WordReader.matchBytes expected)

end Operation

/-- How a call ended, and the reader it left behind. -/
def observe {σ : Type} (m : Action σ Value) (s : σ) : Except Fault Value × σ :=
  match m s with
  | .ok v t => (.ok v, t)
  | .error e t => (.error e, t)

/-- Calls one after the other, also behind one that threw. -/
def runAll (ops : List Operation) (r : ByteReader) : ByteReader :=
  ops.foldl (fun r op => (observe op.run r).2) r

def runAllWords (ops : List Operation) (w : WordReader) : WordReader :=
  ops.foldl (fun w op => (observe op.runWords w).2) w

/-! ### Failing calls -/

/-- What is done with the result of a call cannot fail. -/
theorem error_of_map {σ α β : Type} {m : Action σ α} {g : α → β} {s t : σ} {e : Fault}
    (h : (m >>= fun a => pure (g a)) s = .error e t) : m s = .error e t := by
  rw [bind_run] at h
  cases hrun : m s with
  | ok a u =>
      rw [hrun] at h
      cases h
  | error e' u =>
      rw [hrun] at h
      cases h
      rfl

/-- `m` fails with exceptions of the source only, and then leaves the reader as it was. -/
def LeavesUnchanged {α : Type} (m : Reader α) : Prop :=
  ∀ r e s, m r = .error e s → s = r ∧ ∃ p, e = .thrown p

namespace LeavesUnchanged

variable {α β : Type}

theorem map {m : Reader α} (hm : LeavesUnchanged m) (g : α → β) :
    LeavesUnchanged (m >>= fun a => pure (g a)) :=
  fun r e s h => hm r e s (error_of_map h)

end LeavesUnchanged

theorem leavesUnchanged_require (n : Nat) : LeavesUnchanged (require n) := by
  intro r e s h
  rw [require_run] at h
  split at h
  · cases h
  · cases h
    exact ⟨rfl, _, rfl⟩

theorem leavesUnchanged_seek (pos : Nat) : LeavesUnchanged (seek pos) := by
  intro r e s h
  rw [seek, bind_of_ok (get_run r), ite_run] at h
  split at h
  · cases h
    exact ⟨rfl, _, rfl⟩
  · cases h

theorem leavesUnchanged_skip (n : Nat) : LeavesUnchanged (skip n) := by
  intro r e s h
  rw [skip, bind_run] at h
  cases hrun : require n r with
  | ok u t =>
      rw [hrun] at h
      cases h
  | error e' t =>
      rw [hrun] at h
      cases h
      exact leavesUnchanged_require n r e s hrun

theorem leavesUnchanged_readU8 : LeavesUnchanged readU8 := by
  intro r e s h
  rw [readU8_run] at h
  split at h
  · cases h
  · cases h
    exact ⟨rfl, _, rfl⟩

theorem leavesUnchanged_readRaw (n : Nat) : LeavesUnchanged (readRaw n) := by
  intro r e s h
  rw [readRaw_run] at h
  split at h
  · cases h
  · cases h
    exact ⟨rfl, _, rfl⟩

theorem peekU8_run (r : ByteReader) :
    peekU8 r = match r.rest with
      | b :: _ => .ok b r
      | [] => .error (.thrown ⟨.kShortRead, r.pos, describe .kShortRead⟩) r := by
  cases h : r.rest with
  | nil => simp [peekU8, bind_run, require_run, h]
  | cons b bs => simp [peekU8, byteAt, bind_run, require_run, h, r.getElem?_pos]

theorem leavesUnchanged_peekU8 : LeavesUnchanged peekU8 := by
  intro r e s h
  rw [peekU8_run] at h
  split at h
  · cases h
  · cases h
    exact ⟨rfl, _, rfl⟩

theorem matchBytes_run (expected : Bytes) (r : ByteReader) :
    matchBytes expected r = .ok (decide (expected <+: r.rest)) r := by
  rw [matchBytes, bind_of_ok (get_run r), ite_run, r.remaining_eq]
  split
  · next hlong =>
    have hnot : ¬ expected <+: r.rest := fun h => absurd h.length_le (by omega)
    rw [decide_eq_false hnot]
    rfl
  · next hshort =>
    rw [bind_of_ok (bytesAt_run expected.length r (by omega)), pure_run]
    congr 1
    rw [Bool.eq_iff_iff, beq_iff_eq, decide_eq_true_iff, List.prefix_iff_eq_take]
    exact eq_comm

theorem leavesUnchanged_matchBytes (expected : Bytes) : LeavesUnchanged (matchBytes expected) := by
  intro r e s h
  rw [matchBytes_run] at h
  cases h

/-- Every call but those of the varints either returns or changes nothing. -/
theorem Operation.leavesUnchanged {op : Operation} (hop : op.isVarint = false) :
    LeavesUnchanged op.run := by
  cases op with
  | seek pos => exact .map (leavesUnchanged_seek pos.toNat) _
  | skip n => exact .map (leavesUnchanged_skip n.toNat) _
  | require n => exact .map (leavesUnchanged_require n.toNat) _
  | readU8 => exact .map leavesUnchanged_readU8 _
  | readU16le => exact .map (.map (leavesUnchanged_readRaw 2) _) _
  | readU32le => exact .map (.map (leavesUnchanged_readRaw 4) _) _
  | readU64le => exact .map (.map (leavesUnchanged_readRaw 8) _) _
  | readU16be => exact .map (.map (leavesUnchanged_readRaw 2) _) _
  | readU32be => exact .map (.map (leavesUnchanged_readRaw 4) _) _
  | readU64be => exact .map (.map (leavesUnchanged_readRaw 8) _) _
  | readVarint => cases hop
  | readSvarint => cases hop
  | readBytes n => exact .map (leavesUnchanged_readRaw n.toNat) _
  | readString n => exact .map (leavesUnchanged_readRaw n.toNat) _
  | readRaw n => exact .map (leavesUnchanged_readRaw n.toNat) _
  | peekU8 => exact .map leavesUnchanged_peekU8 _
  | matchBytes expected => exact .map (leavesUnchanged_matchBytes expected.bytes) _

/-- Each round of a varint that fails took one byte at most. -/
theorem readVarintFrom_error {start left shift : Nat} {acc : UInt64} {r s : ByteReader} {e : Fault}
    (h : readVarintFrom start left shift acc r = .error e s) :
    (∃ k ≤ left, s = r.advance k) ∧ ∃ p, e = .thrown p := by
  induction left generalizing shift acc r with
  | zero =>
      cases h
      exact ⟨⟨0, Nat.le_refl 0, rfl⟩, _, rfl⟩
  | succ left ih =>
      rw [readVarintFrom, bind_run, readU8_run] at h
      cases hrest : r.rest with
      | nil =>
          rw [hrest] at h
          cases h
          exact ⟨⟨0, Nat.zero_le _, rfl⟩, _, rfl⟩
      | cons b bs =>
          rw [hrest] at h
          dsimp only at h
          rw [ite_run] at h
          split at h
          · cases h
          · obtain ⟨⟨k, hk, rfl⟩, hthrown⟩ := ih h
            exact ⟨⟨1 + k, by omega, r.advance_advance 1 k⟩, hthrown⟩

theorem readVarint_error {r s : ByteReader} {e : Fault} (h : readVarint r = .error e s) :
    (∃ k ≤ 10, s = r.advance k) ∧ ∃ p, e = .thrown p := by
  rw [readVarint, bind_of_ok (get_run r)] at h
  exact readVarintFrom_error h

theorem Operation.varint_error {op : Operation} (hop : op.isVarint = true) {r s : ByteReader} {e : Fault}
    (h : op.run r = .error e s) : (∃ k ≤ 10, s = r.advance k) ∧ ∃ p, e = .thrown p := by
  cases op with
  | readVarint => exact readVarint_error (error_of_map h)
  | readSvarint => exact readVarint_error (error_of_map (error_of_map h))
  | _ => cases hop

/-! ### Machine words -/

/-- The reader on words and the one on numbers are in the same place of a buffer. -/
structure Represents (data : Buffer) (w : WordReader) (r : ByteReader) : Prop where
  words : w.data = data
  numbers : r.data = data.bytes
  pos : w.pos.toNat = r.pos
  inside : r.pos ≤ r.data.length

variable {data : Buffer}

namespace Represents

variable {w : WordReader} {r : ByteReader}

theorem start (data : Buffer) : Represents data { data } { data := data.bytes } :=
  ⟨rfl, rfl, rfl, Nat.zero_le _⟩

theorem bytes (h : Represents data w r) : w.data.bytes = r.data := by rw [h.words, h.numbers]

theorem size_toNat (h : Represents data w r) : w.size.toNat = r.data.length := by
  rw [WordReader.size, UInt64.toNat_ofNat', h.bytes, Nat.mod_eq_of_lt]
  rw [← h.bytes]
  exact w.data.fits

theorem remaining_toNat (h : Represents data w r) : w.remaining.toNat = r.rest.length := by
  have hle : w.pos ≤ w.size := by
    rw [UInt64.le_iff_toNat_le, h.size_toNat, h.pos]
    exact h.inside
  rw [WordReader.remaining, if_pos hle, UInt64.toNat_sub_of_le _ _ hle, h.size_toNat, h.pos,
    ByteReader.rest, List.length_drop]

/-- What the remaining bytes have room for ends inside the buffer. -/
theorem room (h : Represents data w r) {n : Nat} (hn : n ≤ r.rest.length) :
    w.pos.toNat + n ≤ w.data.bytes.length := by
  rw [ByteReader.rest, List.length_drop] at hn
  have hinside := h.inside
  rw [h.pos, h.bytes]
  omega

theorem advance (h : Represents data w r) {n : UInt64} (hn : n.toNat ≤ r.rest.length) :
    Represents data (w.advance n) (r.advance n.toNat) where
  words := h.words
  numbers := h.numbers
  pos := by
    have hroom := h.room hn
    have hfits := w.data.fits
    change (w.pos + n).toNat = r.pos + n.toNat
    rw [UInt64.toNat_add, Nat.mod_eq_of_lt (by omega), h.pos]
  inside := by
    have hroom := h.room hn
    rw [h.pos, h.bytes] at hroom
    exact hroom

end Represents

/-- Positions that are counted up inside the buffer do not wrap around. -/
theorem WordReader.bytesAt_run {w : WordReader} {i : UInt64} {n : Nat}
    (h : i.toNat + n ≤ w.data.bytes.length) :
    bytesAt i n w = .ok ((w.data.bytes.drop i.toNat).take n) w := by
  induction n generalizing i with
  | zero => rfl
  | succ n ih =>
      have hfits := w.data.fits
      have hi : i.toNat < w.data.bytes.length := by omega
      have hnext : (i + 1).toNat = i.toNat + 1 := by
        rw [UInt64.toNat_add, UInt64.toNat_one]
        exact Nat.mod_eq_of_lt (by omega)
      have hbyte : byteAt i w = .ok w.data.bytes[i.toNat] w := by
        rw [byteAt, bind_of_ok (get_run w), List.getElem?_eq_getElem hi]
        rfl
      rw [bytesAt, bind_of_ok hbyte, bind_of_ok (ih (by omega)), hnext, List.drop_eq_getElem_cons hi,
        List.take_succ_cons]
      rfl

section Words

variable {w : WordReader} {r : ByteReader}

theorem WordReader.require_run (h : Represents data w r) (n : UInt64) :
    require n w = if n.toNat ≤ r.rest.length then .ok () w
      else .error (.thrown ⟨.kShortRead, r.pos, describe .kShortRead⟩) w := by
  rw [require, bind_of_ok (get_run w), ite_run, h.pos]
  by_cases hn : n.toNat ≤ r.rest.length
  · have hle : ¬ n > w.remaining := by
      rw [gt_iff_lt, UInt64.lt_iff_toNat_lt, h.remaining_toNat]
      omega
    rw [if_neg hle, if_pos hn]
    rfl
  · have hgt : n > w.remaining := by
      rw [gt_iff_lt, UInt64.lt_iff_toNat_lt, h.remaining_toNat]
      omega
    rw [if_pos hgt, if_neg hn]
    rfl

theorem WordReader.readRaw_run (h : Represents data w r) (n : UInt64) :
    readRaw n w = if n.toNat ≤ r.rest.length then .ok (r.rest.take n.toNat) (w.advance n)
      else .error (.thrown ⟨.kShortRead, r.pos, describe .kShortRead⟩) w := by
  have hrequire := WordReader.require_run h n
  split
  · next hn =>
    rw [if_pos hn] at hrequire
    rw [readRaw, bind_of_ok hrequire, bind_of_ok (get_run w),
      bind_of_ok (WordReader.bytesAt_run (h.room hn)),
      bind_of_ok (modify_run _ _), h.pos, h.bytes]
    rfl
  · next hn =>
    rw [if_neg hn] at hrequire
    rw [readRaw, bind_of_error hrequire]

end Words

theorem inParallel_require (n : UInt64) :
    InParallel (Represents data) (WordReader.require n) (require n.toNat) := by
  intro w r h
  rw [WordReader.require_run h, require_run]
  split
  · exact .ok h
  · exact .error h

theorem inParallel_seek (pos : UInt64) : InParallel (Represents data) (WordReader.seek pos) (seek pos.toNat) := by
  intro w r h
  have hcheck : pos > w.size ↔ pos.toNat > r.size := by
    rw [gt_iff_lt, UInt64.lt_iff_toNat_lt, h.size_toNat]
  rw [WordReader.seek, seek, bind_of_ok (get_run w), bind_of_ok (get_run r), ite_run, ite_run]
  by_cases hpos : pos.toNat > r.size
  · rw [if_pos hpos, if_pos (hcheck.mpr hpos)]
    exact .error h
  · rw [if_neg hpos, if_neg (hcheck.not.mpr hpos)]
    exact .ok ⟨h.words, h.numbers, rfl, Nat.le_of_not_lt hpos⟩

theorem inParallel_skip (n : UInt64) : InParallel (Represents data) (WordReader.skip n) (skip n.toNat) := by
  intro w r h
  have hwords := WordReader.require_run h n
  have hnumbers := require_run n.toNat r
  by_cases hn : n.toNat ≤ r.rest.length
  · rw [if_pos hn] at hwords hnumbers
    rw [WordReader.skip, skip, bind_of_ok hwords, bind_of_ok hnumbers]
    exact .ok (h.advance hn)
  · rw [if_neg hn] at hwords hnumbers
    rw [WordReader.skip, skip, bind_of_error hwords, bind_of_error hnumbers]
    exact .error h

theorem inParallel_readRaw (n : UInt64) :
    InParallel (Represents data) (WordReader.readRaw n) (readRaw n.toNat) := by
  intro w r h
  rw [WordReader.readRaw_run h, readRaw_run]
  split
  · next hn => exact .ok (h.advance hn)
  · exact .error h

theorem inParallel_byteAt {i : UInt64} {j : Nat} (hij : i.toNat = j) :
    InParallel (Represents data) (WordReader.byteAt i) (byteAt j) := by
  intro w r h
  rw [WordReader.byteAt, byteAt, bind_of_ok (get_run w), bind_of_ok (get_run r), h.bytes, hij]
  cases r.data[j]? with
  | none => exact .error h
  | some b => exact .ok h

theorem inParallel_peekU8 : InParallel (Represents data) WordReader.peekU8 peekU8 :=
  (inParallel_require 1).bind fun _ => .get_bind fun _ _ h => inParallel_byteAt h.pos

theorem inParallel_readU8 : InParallel (Represents data) WordReader.readU8 readU8 := by
  intro w r h
  have hwords := WordReader.require_run h 1
  rw [readU8_run]
  cases hrest : r.rest with
  | nil =>
      rw [hrest, if_neg (by decide)] at hwords
      rw [WordReader.readU8, bind_of_error hwords]
      exact .error h
  | cons b bs =>
      have hone : (1 : UInt64).toNat ≤ r.rest.length := by
        rw [hrest]
        exact Nat.succ_le_succ (Nat.zero_le _)
      have hbyte : WordReader.byteAt w.pos w = .ok b w := by
        rw [WordReader.byteAt, bind_of_ok (get_run w), h.bytes, h.pos, r.getElem?_pos, hrest]
        rfl
      rw [if_pos hone] at hwords
      rw [WordReader.readU8, bind_of_ok hwords, bind_of_ok (get_run w), bind_of_ok hbyte]
      exact .ok (h.advance hone)

theorem inParallel_readVarintFrom {start : UInt64} {start' : Nat} (hstart : start.toNat = start')
    (left shift : Nat) (acc : UInt64) :
    InParallel (Represents data) (WordReader.readVarintFrom start left shift acc)
      (readVarintFrom start' left shift acc) := by
  induction left generalizing shift acc with
  | zero =>
      rw [WordReader.readVarintFrom, readVarintFrom, hstart]
      exact .throw _
  | succ left ih =>
      rw [WordReader.readVarintFrom, readVarintFrom]
      apply inParallel_readU8.bind
      intro b
      dsimp only
      split
      · exact .pure _
      · exact ih _ _

theorem inParallel_readVarint : InParallel (Represents data) WordReader.readVarint readVarint :=
  .get_bind fun _ _ h => inParallel_readVarintFrom h.pos 10 0 0

theorem inParallel_matchBytes (expected : Buffer) :
    InParallel (Represents data) (WordReader.matchBytes expected) (matchBytes expected.bytes) := by
  intro w r h
  have hlen : (UInt64.ofNat expected.bytes.length).toNat = expected.bytes.length := by
    rw [UInt64.toNat_ofNat', Nat.mod_eq_of_lt expected.fits]
  have hcheck : UInt64.ofNat expected.bytes.length > w.remaining ↔
      expected.bytes.length > r.remaining := by
    rw [gt_iff_lt, UInt64.lt_iff_toNat_lt, h.remaining_toNat, hlen, r.remaining_eq]
  rw [WordReader.matchBytes, matchBytes, bind_of_ok (get_run w), bind_of_ok (get_run r),
    ite_run, ite_run]
  by_cases hn : expected.bytes.length > r.remaining
  · rw [if_pos hn, if_pos (hcheck.mpr hn)]
    exact .ok h
  · rw [if_neg hn, if_neg (hcheck.not.mpr hn), hlen]
    have hrest : expected.bytes.length ≤ r.rest.length := by
      rw [r.remaining_eq] at hn
      exact Nat.le_of_not_lt hn
    rw [bind_of_ok (WordReader.bytesAt_run (h.room hrest)), bind_of_ok (bytesAt_run _ r hrest), h.pos,
      h.bytes]
    exact .ok h

/-- No call takes another course on words than on numbers. -/
theorem Operation.inParallel (op : Operation) : InParallel (Represents data) op.runWords op.run := by
  cases op with
  | seek pos => exact .map (inParallel_seek pos) _
  | skip n => exact .map (inParallel_skip n) _
  | require n => exact .map (inParallel_require n) _
  | readU8 => exact .map inParallel_readU8 _
  | readU16le => exact .map (.map (inParallel_readRaw 2) _) _
  | readU32le => exact .map (.map (inParallel_readRaw 4) _) _
  | readU64le => exact .map (.map (inParallel_readRaw 8) _) _
  | readU16be => exact .map (.map (inParallel_readRaw 2) _) _
  | readU32be => exact .map (.map (inParallel_readRaw 4) _) _
  | readU64be => exact .map (.map (inParallel_readRaw 8) _) _
  | readVarint => exact .map inParallel_readVarint _
  | readSvarint => exact .map (.map inParallel_readVarint _) _
  | readBytes n => exact .map (inParallel_readRaw n) _
  | readString n => exact .map (inParallel_readRaw n) _
  | readRaw n => exact .map (inParallel_readRaw n) _
  | peekU8 => exact .map inParallel_peekU8 _
  | matchBytes expected => exact .map (inParallel_matchBytes expected) _

/-! ### Any sequence of calls -/

theorem observe_parallel {σ τ : Type} {R : σ → τ → Prop} {m : Action σ Value} {n : Action τ Value}
    (h : InParallel R m n) {s : σ} {t : τ} (hst : R s t) :
    (observe m s).1 = (observe n t).1 ∧ R (observe m s).2 (observe n t).2 := by
  have hrun := h s t hst
  rw [observe, observe]
  generalize m s = x at hrun
  generalize n t = y at hrun
  cases hrun with
  | ok h => exact ⟨rfl, h⟩
  | error h => exact ⟨rfl, h⟩

theorem runAll_parallel (ops : List Operation) {w : WordReader} {r : ByteReader}
    (h : Represents data w r) : Represents data (runAllWords ops w) (runAll ops r) := by
  induction ops generalizing w r with
  | nil => exact h
  | cons op ops ih => exact ih (observe_parallel op.inParallel h).2

/-- Two readers on words that stand for one on numbers are the same. -/
theorem Represents.unique {w w' : WordReader} {r : ByteReader} (h : Represents data w r)
    (h' : Represents data w' r) : w = w' := by
  rcases w with ⟨wdata, wpos⟩
  rcases w' with ⟨wdata', wpos'⟩
  obtain rfl : wdata = wdata' := h.words.trans h'.words.symm
  obtain rfl : wpos = wpos' := UInt64.toNat_inj.mp (h.pos.trans h'.pos.symm)
  rfl

theorem observe_error {σ : Type} {m : Action σ Value} {s : σ} {e : Fault}
    (h : (observe m s).1 = .error e) : m s = .error e (observe m s).2 := by
  rw [observe] at h ⊢
  cases hrun : m s with
  | ok v t =>
      rw [hrun] at h
      cases h
  | error e' t =>
      rw [hrun] at h
      cases h
      rfl

/-- After any calls the cursor is in the buffer, and where it would be without bounds on the numbers.
The next call takes the course it would take there, reads nothing outside the buffer, and if it
throws leaves the reader as it was, except that a varint has moved past ten bytes at most. -/
theorem cursor_safe (data : Buffer) (ops : List Operation) (op : Operation) :
    let w := runAllWords ops { data }
    let r := runAll ops { data := data.bytes }
    w.data = data ∧ w.pos.toNat ≤ data.bytes.length ∧
    r = { data := data.bytes, pos := w.pos.toNat } ∧
    (observe op.runWords w).1 = (observe op.run r).1 ∧
    ∀ e, (observe op.runWords w).1 = .error e → (∃ p, e = .thrown p) ∧
      let w' := (observe op.runWords w).2
      if op.isVarint then
        w'.data = w.data ∧ w.pos.toNat ≤ w'.pos.toNat ∧ w'.pos.toNat ≤ w.pos.toNat + 10
      else w' = w := by
  intro w r
  have h : Represents data w r := runAll_parallel ops (.start data)
  obtain ⟨hsame, hnext⟩ := observe_parallel op.inParallel h
  refine ⟨h.words, ?_, ?_, hsame, ?_⟩
  · rw [h.pos, ← h.numbers]
    exact h.inside
  · rw [h.pos, ← h.numbers]
  · intro e he
    rw [hsame] at he
    have hrun := observe_error he
    cases hvarint : op.isVarint with
    | true =>
        obtain ⟨⟨k, hk, hmoved⟩, hthrown⟩ := Operation.varint_error hvarint hrun
        have hpos := hnext.pos
        rw [hmoved, r.pos_advance, ← h.pos] at hpos
        refine ⟨hthrown, hnext.words.trans h.words.symm, ?_, ?_⟩ <;> omega
    | false =>
        obtain ⟨hunchanged, hthrown⟩ := Operation.leavesUnchanged hvarint r e _ hrun
        rw [hunchanged] at hnext
        exact ⟨hthrown, hnext.unique h⟩

/-- A varint that runs into the end of its buffer. -/
def cutVarint : Buffer := ⟨[0x01, 0x80, 0x80], by decide⟩

/-- It is read after a seek that throws and a skip. -/
theorem cursor_safe_cutVarint :
    let w := runAllWords [.seek 4, .skip 1] { data := cutVarint }
    let w' := (observe Operation.readVarint.runWords w).2
    w.pos = 1 ∧ w'.data = cutVarint ∧ w.pos.toNat ≤ w'.pos.toNat ∧ w'.pos.toNat ≤ w.pos.toNat + 10 := by
  obtain ⟨hdata, -, -, -, herror⟩ := cursor_safe cutVarint [.seek 4, .skip 1] .readVarint
  obtain ⟨-, hsame, hmoved⟩ :=
    herror (.thrown ⟨.kShortRead, 3, describe .kShortRead⟩) (by decide +kernel)
  exact ⟨by decide +kernel, hsame.trans hdata, hmoved⟩

end Bytewright.Common
