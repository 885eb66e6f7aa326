import Bytewright.Library.Computation
import Bytewright.Model.Common.ByteReader

/-! What each reader does to a cursor, said in terms of the bytes still in front of it. -/

namespace Bytewright.Common

open Bytewright.Library

/-! ### The view of a cursor -/

namespace ByteReader

@[simp] theorem rest_mk_zero (data : Bytes) : ({ data } : ByteReader).rest = data := rfl

theorem remaining_eq (r : ByteReader) : r.remaining = r.rest.length := by
  simp only [remaining, rest, size, List.length_drop]
  split <;> omega

theorem eof_iff (r : ByteReader) : r.eof = true ↔ r.rest = [] := by
  simp [eof, rest]

theorem eof_eq_isEmpty (r : ByteReader) : r.eof = r.rest.isEmpty := by
  rw [Bool.eq_iff_iff, eof_iff, List.isEmpty_iff]

@[simp] theorem rest_advance (r : ByteReader) (n : Nat) :
    (r.advance n).rest = r.rest.drop n := by
  simp [rest, advance, List.drop_drop]

@[simp] theorem pos_advance (r : ByteReader) (n : Nat) : (r.advance n).pos = r.pos + n := rfl

@[simp] theorem data_advance (r : ByteReader) (n : Nat) : (r.advance n).data = r.data := rfl

@[simp] theorem advance_zero (r : ByteReader) : r.advance 0 = r := rfl

@[simp] theorem advance_advance (r : ByteReader) (m n : Nat) :
    (r.advance m).advance n = r.advance (m + n) := by
  simp [advance, Nat.add_assoc]

theorem getElem?_pos (r : ByteReader) : r.data[r.pos]? = r.rest.head? := by
  simp [rest, List.head?_drop]

end ByteReader

/-! ### The monad of an object with exceptions -/

section Monad

variable {σ α β : Type}

@[simp] theorem pure_run (a : α) (s : σ) : (pure a : Action σ α) s = .ok a s := rfl

@[simp] theorem get_run (s : σ) : (get : Action σ σ) s = .ok s s := rfl

@[simp] theorem modify_run (f : σ → σ) (s : σ) : (modify f : Action σ Unit) s = .ok () (f s) := rfl

@[simp] theorem set_run (t s : σ) : (set t : Action σ Unit) s = .ok () t := rfl

@[simp] theorem throw_run (e : Fault) (s : σ) : (throw e : Action σ α) s = .error e s := rfl

@[simp] theorem raise_run (c : ErrorCode) (i : Nat) (w : String) (s : σ) :
    (raise c i w : Action σ α) s = .error (.thrown ⟨c, i, w⟩) s := rfl

theorem bind_run (m : Action σ α) (f : α → Action σ β) (s : σ) :
    (m >>= f) s = match m s with
      | .ok a t => f a t
      | .error e t => .error e t := by
  cases h : m s <;> simp [bind, EStateM.bind, h]

@[simp] theorem map_run (f : α → β) (m : Action σ α) (s : σ) :
    (f <$> m) s = match m s with
      | .ok a t => .ok (f a) t
      | .error e t => .error e t := by
  cases h : m s <;> simp [Functor.map, EStateM.map, h]

theorem ite_run (c : Prop) [Decidable c] (m n : Action σ α) (s : σ) :
    (if c then m else n) s = if c then m s else n s := by
  split <;> rfl

theorem bind_of_ok {m : Action σ α} {f : α → Action σ β} {s t : σ} {a : α}
    (h : m s = .ok a t) : (m >>= f) s = f a t := ok_bind h

theorem bind_of_error {m : Action σ α} {f : α → Action σ β} {s t : σ} {e : Fault}
    (h : m s = .error e t) : (m >>= f) s = .error e t := by
  rw [bind_run, h]

theorem bind_eq_ok {m : Action σ α} {f : α → Action σ β} {s u : σ} {b : β} :
    (m >>= f) s = .ok b u ↔ ∃ a t, m s = .ok a t ∧ f a t = .ok b u := by
  constructor
  · exact bind_ok
  · rintro ⟨a, t, h, hrest⟩
    rw [bind_of_ok h, hrest]

theorem run'_eq_some {m : Action σ α} {s : σ} {a : α} (h : m.run' s = some a) :
    ∃ t, m s = .ok a t := by
  cases hrun : m s with
  | ok b t =>
      delta EStateM.run' EStateM.run at h
      rw [hrun] at h
      cases h
      exact ⟨t, rfl⟩
  | error e t =>
      delta EStateM.run' EStateM.run at h
      rw [hrun] at h
      cases h

theorem outcome_bind_eq_ok {m : Outcome α} {f : α → Outcome β} {b : β} :
    m >>= f = .ok b ↔ ∃ a, m = .ok a ∧ f a = .ok b := by
  cases m with
  | ok a => simp [bind, Except.bind]
  | error e => simp [bind, Except.bind]

theorem outcome_bind_eq_error {m : Outcome α} {f : α → Outcome β} {e : Fault} :
    m >>= f = .error e ↔ m = .error e ∨ ∃ a, m = .ok a ∧ f a = .error e := by
  cases m with
  | ok a => simp [bind, Except.bind]
  | error e' => simp [bind, Except.bind]

end Monad

/-! ### One reader at a time -/

theorem require_run (n : Nat) (r : ByteReader) :
    require n r =
      if n ≤ r.rest.length then .ok () r
      else .error (.thrown ⟨.kShortRead, r.pos, describe .kShortRead⟩) r := by
  by_cases h : n ≤ r.rest.length
  · have hn : ¬ n > r.remaining := by rw [r.remaining_eq]; omega
    simp [require, bind_run, hn, h]
  · have hn : n > r.remaining := by rw [r.remaining_eq]; omega
    simp [require, bind_run, hn, h]

theorem readU8_run (r : ByteReader) :
    readU8 r = match r.rest with
      | b :: _ => .ok b (r.advance 1)
      | [] => .error (.thrown ⟨.kShortRead, r.pos, describe .kShortRead⟩) r := by
  cases h : r.rest with
  | nil => simp [readU8, bind_run, require_run, h]
  | cons b bs => simp [readU8, byteAt, bind_run, require_run, h, r.getElem?_pos]

theorem readU8_ok {r s : ByteReader} {b : UInt8} (h : readU8 r = .ok b s) :
    r.rest = b :: s.rest ∧ s = r.advance 1 := by
  rw [readU8_run] at h
  split at h
  · next b' bs hr =>
    cases h
    exact ⟨by rw [ByteReader.rest_advance, hr]; rfl, rfl⟩
  · cases h

theorem bytesAt_run (n : Nat) (r : ByteReader) (h : n ≤ r.rest.length) :
    bytesAt r.pos n r = .ok (r.rest.take n) r := by
  have hlen : ((r.data.drop r.pos).take n).length = n := List.length_take_of_le h
  simp [bytesAt, bind_run, hlen, ByteReader.rest, -List.length_take]

theorem readRaw_run (n : Nat) (r : ByteReader) :
    readRaw n r =
      if n ≤ r.rest.length then .ok (r.rest.take n) (r.advance n)
      else .error (.thrown ⟨.kShortRead, r.pos, describe .kShortRead⟩) r := by
  by_cases h : n ≤ r.rest.length
  · simp [readRaw, bind_run, require_run, h, bytesAt_run]
  · simp [readRaw, bind_run, require_run, h]

theorem readRaw_at {n : Nat} {r s : ByteReader} {bs : Bytes} (h : readRaw n r = .ok bs s) :
    bs = r.rest.take n ∧ s = r.advance n := by
  rw [readRaw_run] at h
  split at h
  · cases h
    exact ⟨rfl, rfl⟩
  · cases h

theorem readWithin_ok {σ α : Type} {data : Bytes} {m : Reader α} {s t : σ} {a : α}
    (h : readWithin data m s = .ok a t) : t = s ∧ ∃ r, m { data } = .ok a r := by
  cases hm : m { data } with
  | ok b r =>
      rw [readWithin, hm] at h
      cases h
      exact ⟨rfl, r, rfl⟩
  | error e r =>
      rw [readWithin, hm] at h
      cases h

/-- The little-endian number in the two bytes from `i` on. -/
def u16At (data : Bytes) (i : Nat) : UInt16 := UInt16.ofNat (leValue ((data.drop i).take 2))

/-- The little-endian number in the four bytes from `i` on. -/
def u32At (data : Bytes) (i : Nat) : UInt32 := UInt32.ofNat (leValue ((data.drop i).take 4))

theorem readU16le_at {r s : ByteReader} {v : UInt16} (h : readU16le r = .ok v s) :
    v = u16At r.data r.pos ∧ s = r.advance 2 := by
  obtain ⟨bs, t, hraw, hv⟩ := bind_eq_ok.mp h
  obtain ⟨rfl, rfl⟩ := readRaw_at hraw
  cases hv
  exact ⟨rfl, rfl⟩

theorem readU32le_at {r s : ByteReader} {v : UInt32} (h : readU32le r = .ok v s) :
    v = u32At r.data r.pos ∧ s = r.advance 4 := by
  obtain ⟨bs, t, hraw, hv⟩ := bind_eq_ok.mp h
  obtain ⟨rfl, rfl⟩ := readRaw_at hraw
  cases hv
  exact ⟨rfl, rfl⟩

theorem readU16be_at {r s : ByteReader} {v : UInt16} (h : readU16be r = .ok v s) :
    s = r.advance 2 := by
  obtain ⟨bs, t, hraw, hv⟩ := bind_eq_ok.mp h
  obtain ⟨-, rfl⟩ := readRaw_at hraw
  cases hv
  rfl

end Bytewright.Common
