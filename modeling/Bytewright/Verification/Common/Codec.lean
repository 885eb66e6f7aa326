import Bytewright.Model.Common.ByteWriter
import Bytewright.Verification.Common.ByteReader

/-! Byte strings a reader consumes exactly, and byte strings it cannot do without. -/

namespace Bytewright.Common

open Bytewright.Library

variable {α β : Type}

/-- In front of `bs`, and whatever follows, `m` returns `a` and moves past exactly `bs`. -/
def Reads (m : Reader α) (bs : Bytes) (a : α) : Prop :=
  ∀ r rest, r.rest = bs ++ rest → m r = .ok a (r.advance bs.length)

/-- When the buffer ends inside `bs`, `m` throws `kShortRead`. -/
def Starves (m : Reader α) (bs : Bytes) : Prop :=
  ∀ r, r.rest <+: bs → r.rest ≠ bs →
    ∃ at_ what s, m r = .error (.thrown ⟨.kShortRead, at_, what⟩) s

namespace Reads

theorem pure (a : α) : Reads (Pure.pure a) [] a := fun _ _ _ => rfl

theorem bind {m : Reader α} {f : α → Reader β} {bs cs : Bytes} {a : α} {b : β}
    (hm : Reads m bs a) (hf : Reads (f a) cs b) : Reads (m >>= f) (bs ++ cs) b := by
  intro r rest hr
  rw [List.append_assoc] at hr
  have hrest : (r.advance bs.length).rest = cs ++ rest := by simp [hr]
  rw [bind_of_ok (hm r _ hr), hf _ _ hrest]
  simp

theorem map {m : Reader α} {bs : Bytes} {a : α} (g : α → β) (hm : Reads m bs a) :
    Reads (g <$> m) bs (g a) := by
  intro r rest hr
  simp [hm r rest hr]

/-- The last bytes taken are those of `m`. -/
theorem bind_last {m : Reader α} {f : α → Reader β} {bs : Bytes} {a : α} {b : β}
    (hm : Reads m bs a) (hf : Reads (f a) [] b) : Reads (m >>= f) bs b := by
  have h := hm.bind hf
  rwa [List.append_nil] at h

/-- Looking at the cursor takes no bytes. -/
theorem get_bind {f : ByteReader → Reader β} {bs : Bytes} {b : β} (hf : ∀ r, Reads (f r) bs b) :
    Reads (get >>= f) bs b :=
  fun r => hf r r

/-- A run from the start of a buffer. -/
theorem run {m : Reader α} {bs rest data : Bytes} {a : α} (hm : Reads m bs a)
    (hdata : data = bs ++ rest) : m { data } = .ok a (ByteReader.advance { data } bs.length) :=
  hm { data } rest hdata

/-- What a reader takes off the front is settled by what stands there. -/
theorem unique {m : Reader α} {bs cs x y : Bytes} {a b : α} (h : Reads m bs a) (h' : Reads m cs b)
    (heq : bs ++ x = cs ++ y) : bs = cs ∧ a = b := by
  have hrun := (h.run rfl).symm.trans (h'.run heq)
  have hlen : bs.length = cs.length := by
    injection hrun with _ hr
    simpa [ByteReader.advance] using congrArg ByteReader.pos hr
  injection hrun with hval _
  exact ⟨(List.append_inj heq hlen).1, hval⟩

/-- Reading off a fresh cursor that holds `bs` only. -/
theorem within {σ : Type} {m : Reader α} {bs : Bytes} {a : α} (hm : Reads m bs a) :
    (readWithin bs m : Action σ α) = Pure.pure a := by
  simp [readWithin, hm { data := bs } [] (by simp)]

end Reads

namespace Starves

theorem bind {m : Reader α} {f : α → Reader β} {bs cs : Bytes} {a : α}
    (hm : Reads m bs a) (hs : Starves m bs) (hf : Starves (f a) cs) :
    Starves (m >>= f) (bs ++ cs) := by
  intro r hr hne
  by_cases hlt : r.rest.length < bs.length
  · -- the buffer ends inside the bytes of `m`
    have hpre : r.rest <+: bs :=
      List.prefix_of_prefix_length_le hr (List.prefix_append bs cs) hlt.le
    obtain ⟨i, w, s, h⟩ := hs r hpre (fun h => by simp [h] at hlt)
    exact ⟨i, w, s, bind_of_error h⟩
  · obtain ⟨ds, hds⟩ : bs <+: r.rest :=
      List.prefix_of_prefix_length_le (List.prefix_append bs cs) hr (Nat.le_of_not_lt hlt)
    have hds' : r.rest = bs ++ ds := hds.symm
    have hrest : (r.advance bs.length).rest = ds := by simp [hds']
    rw [hds', List.prefix_append_right_inj] at hr
    obtain ⟨i, w, s, h⟩ := hf (r.advance bs.length) (by rwa [hrest])
      (fun h => hne (by rw [hds', ← h, hrest]))
    exact ⟨i, w, s, by rw [bind_of_ok (hm r ds hds'), h]⟩

theorem map {m : Reader α} {bs : Bytes} (g : α → β) (hs : Starves m bs) :
    Starves (g <$> m) bs := by
  intro r hr hne
  obtain ⟨i, w, s, h⟩ := hs r hr hne
  exact ⟨i, w, s, by simp [h]⟩

end Starves

/-! ### Fixed-width fields -/

theorem reads_readRaw (bs : Bytes) : Reads (readRaw bs.length) bs bs := by
  intro r rest hr
  rw [readRaw_run]
  simp [hr]

theorem starves_readRaw (bs : Bytes) : Starves (readRaw bs.length) bs := by
  intro r hr hne
  have hlt : ¬ bs.length ≤ r.rest.length := fun h => hne (hr.eq_of_length_le h)
  refine ⟨r.pos, describe .kShortRead, r, ?_⟩
  rw [readRaw_run, if_neg hlt]

theorem reads_readU8 (b : UInt8) : Reads readU8 [b] b := by
  intro r rest hr
  simp [readU8_run, hr]

theorem starves_readU8 (b : UInt8) : Starves readU8 [b] := by
  intro r hr hne
  have hnil : r.rest = [] := by
    rcases List.prefix_cons_iff.mp hr with h | ⟨t, h, ht⟩
    · exact h
    · exact absurd (by rw [h, List.prefix_nil.mp ht]) hne
  refine ⟨r.pos, describe .kShortRead, r, ?_⟩
  rw [readU8_run, hnil]

/-- A fixed-width field written as `n` bytes reads back as the number itself. -/
theorem reads_fixed {n v : Nat} {value : Bytes → Nat} {bytes : Bytes} (of : Nat → α)
    (hlen : bytes.length = n) (hval : value bytes = v) :
    Reads (do return of (value (← readRaw n))) bytes (of v) := by
  subst hlen hval
  exact (reads_readRaw bytes).map (fun bs => of (value bs))

theorem reads_readU16le (v : UInt16) : Reads readU16le (leBytes 2 v.toNat) v := by
  have h := reads_fixed UInt16.ofNat (leBytes_length 2 v.toNat)
    (leValue_leBytes_of_lt v.toNat_lt)
  rwa [UInt16.ofNat_toNat] at h

theorem reads_readU32le (v : UInt32) : Reads readU32le (leBytes 4 v.toNat) v := by
  have h := reads_fixed UInt32.ofNat (leBytes_length 4 v.toNat)
    (leValue_leBytes_of_lt v.toNat_lt)
  rwa [UInt32.ofNat_toNat] at h

theorem reads_readU64le (v : UInt64) : Reads readU64le (leBytes 8 v.toNat) v := by
  have h := reads_fixed UInt64.ofNat (leBytes_length 8 v.toNat)
    (leValue_leBytes_of_lt v.toNat_lt)
  rwa [UInt64.ofNat_toNat] at h

theorem reads_readU16be (v : UInt16) : Reads readU16be (beBytes 2 v.toNat) v := by
  have h := reads_fixed UInt16.ofNat (beBytes_length 2 v.toNat)
    (beValue_beBytes_of_lt v.toNat_lt)
  rwa [UInt16.ofNat_toNat] at h

theorem reads_readU32be (v : UInt32) : Reads readU32be (beBytes 4 v.toNat) v := by
  have h := reads_fixed UInt32.ofNat (beBytes_length 4 v.toNat)
    (beValue_beBytes_of_lt v.toNat_lt)
  rwa [UInt32.ofNat_toNat] at h

theorem readRaw_ok {n : Nat} {r s : ByteReader} {bs : Bytes} (h : readRaw n r = .ok bs s) :
    r.rest = bs ++ s.rest ∧ bs.length = n := by
  rw [readRaw_run] at h
  split at h
  · next hn =>
    cases h
    exact ⟨by rw [ByteReader.rest_advance, List.take_append_drop], List.length_take_of_le hn⟩
  · cases h

theorem readU32le_ok {r s : ByteReader} {v : UInt32} (h : readU32le r = .ok v s) :
    r.rest = leBytes 4 v.toNat ++ s.rest := by
  rcases bind_eq_ok.mp h with ⟨bs, t, hbs, h⟩
  rcases readRaw_ok hbs with ⟨hr, hlen⟩
  cases h
  have hlt : leValue bs < 2 ^ 32 := (leValue_lt bs).trans_eq (by rw [hlen]; norm_num)
  rw [hr, UInt32.toNat_ofNat', Nat.mod_eq_of_lt hlt, ← hlen, leBytes_leValue]

theorem readU16le_ok {r s : ByteReader} {v : UInt16} (h : readU16le r = .ok v s) :
    r.rest = leBytes 2 v.toNat ++ s.rest := by
  rcases bind_eq_ok.mp h with ⟨bs, t, hbs, h⟩
  rcases readRaw_ok hbs with ⟨hr, hlen⟩
  cases h
  have hlt : leValue bs < 2 ^ 16 := (leValue_lt bs).trans_eq (by rw [hlen]; norm_num)
  rw [hr, UInt16.toNat_ofNat', Nat.mod_eq_of_lt hlt, ← hlen, leBytes_leValue]

theorem readU16be_ok {r s : ByteReader} {v : UInt16} (h : readU16be r = .ok v s) :
    r.rest = beBytes 2 v.toNat ++ s.rest := by
  obtain ⟨bs, t, hbs, h⟩ := bind_eq_ok.mp h
  obtain ⟨hr, hlen⟩ := readRaw_ok hbs
  cases h
  have hlt : beValue bs < 2 ^ 16 := (beValue_lt bs).trans_eq (by rw [hlen]; norm_num)
  rw [hr, UInt16.toNat_ofNat', Nat.mod_eq_of_lt hlt, ← hlen, beBytes_beValue]

theorem readU32be_ok {r s : ByteReader} {v : UInt32} (h : readU32be r = .ok v s) :
    r.rest = beBytes 4 v.toNat ++ s.rest := by
  obtain ⟨bs, t, hbs, h⟩ := bind_eq_ok.mp h
  obtain ⟨hr, hlen⟩ := readRaw_ok hbs
  cases h
  have hlt : beValue bs < 2 ^ 32 := (beValue_lt bs).trans_eq (by rw [hlen]; norm_num)
  rw [hr, UInt32.toNat_ofNat', Nat.mod_eq_of_lt hlt, ← hlen, beBytes_beValue]

/-! ### Readers whose success fixes the bytes they took -/

/-- Whenever `m` returns, the bytes it moved past are the ones it needs and the only ones. -/
def Exact (m : Reader α) : Prop :=
  ∀ r a s, m r = .ok a s →
    ∃ bs, r.rest = bs ++ s.rest ∧ s = r.advance bs.length ∧ Reads m bs a ∧ Starves m bs

/-- `m` fails with exceptions of the source only. -/
def OnlyThrows (m : Reader α) : Prop := ∀ r e s, m r = .error e s → ∃ p, e = .thrown p

namespace Exact

theorem pure (a : α) : Exact (Pure.pure a : Reader α) := by
  intro r b s h
  cases h
  refine ⟨[], rfl, rfl, Reads.pure a, fun r hr hne => ?_⟩
  exact absurd (List.prefix_nil.mp hr) hne

theorem bind {m : Reader α} {f : α → Reader β} (hm : Exact m) (hf : ∀ a, Exact (f a)) :
    Exact (m >>= f) := by
  intro r b u h
  rcases bind_eq_ok.mp h with ⟨a, t, hmr, hft⟩
  rcases hm r a t hmr with ⟨bs, hr, rfl, hreads, hstarves⟩
  rcases hf a _ b u hft with ⟨cs, hs, rfl, hreads', hstarves'⟩
  refine ⟨bs ++ cs, ?_, by simp, hreads.bind hreads', Starves.bind hreads hstarves hstarves'⟩
  rw [hr, hs, List.append_assoc]

theorem map {m : Reader α} (hm : Exact m) (g : α → β) : Exact (g <$> m) := by
  intro r b u h
  rw [map_run] at h
  cases hmr : m r with
  | error e t =>
      rw [hmr] at h
      cases h
  | ok a t =>
      rw [hmr] at h
      cases h
      rcases hm r a u hmr with ⟨bs, hr, hs, hreads, hstarves⟩
      exact ⟨bs, hr, hs, hreads.map g, hstarves.map g⟩

theorem readRaw (n : Nat) : Exact (readRaw n) := by
  intro r bs s h
  rw [readRaw_run] at h
  split at h
  · next hn =>
    cases h
    have hlen : (r.rest.take n).length = n := List.length_take_of_le hn
    refine ⟨r.rest.take n, ?_, by rw [hlen], ?_, ?_⟩
    · rw [ByteReader.rest_advance, List.take_append_drop]
    · have := reads_readRaw (r.rest.take n)
      rwa [hlen] at this
    · have := starves_readRaw (r.rest.take n)
      rwa [hlen] at this
  · cases h

theorem readU8 : Exact readU8 := by
  intro r b s h
  rcases readU8_ok h with ⟨hr, rfl⟩
  exact ⟨[b], hr, rfl, reads_readU8 b, starves_readU8 b⟩

theorem readU16le : Exact readU16le := (readRaw 2).map _

theorem readU32le : Exact readU32le := (readRaw 4).map _

end Exact

/-- The bytes an exact reader takes are bytes it starves without. -/
theorem Exact.starves {m : Reader α} (hm : Exact m) {bs : Bytes} {a : α} (h : Reads m bs a) :
    Starves m bs := by
  have hrun := h { data := bs } [] (by simp)
  rcases hm _ _ _ hrun with ⟨cs, hcs, hpos, -, hstarves⟩
  have hrest : (ByteReader.advance { data := bs } bs.length).rest = [] := by simp
  obtain rfl : bs = cs := by simpa [hrest] using hcs
  exact hstarves

namespace OnlyThrows

theorem pure (a : α) : OnlyThrows (Pure.pure a : Reader α) := by
  intro r e s h
  cases h

theorem bind {m : Reader α} {f : α → Reader β} (hm : OnlyThrows m) (hf : ∀ a, OnlyThrows (f a)) :
    OnlyThrows (m >>= f) := by
  intro r e s h
  rw [bind_run] at h
  split at h
  · exact hf _ _ e s h
  · next hmr =>
    cases h
    exact hm _ _ _ hmr

theorem get : OnlyThrows (get : Reader ByteReader) := by
  intro r e s h
  cases h

theorem modify (f : ByteReader → ByteReader) : OnlyThrows (modify f : Reader Unit) := by
  intro r e s h
  cases h

theorem ite {c : Prop} [Decidable c] {m n : Reader α} (hm : OnlyThrows m) (hn : OnlyThrows n) :
    OnlyThrows (if c then m else n) := by
  split
  · exact hm
  · exact hn

theorem within {data : Bytes} {m : Reader α} (hm : OnlyThrows m) :
    OnlyThrows (readWithin data m : Reader α) := by
  intro r e s h
  cases hrun : m { data } with
  | ok a t =>
      rw [readWithin, hrun] at h
      cases h
  | error e' t =>
      rw [readWithin, hrun] at h
      cases h
      exact hm _ _ _ hrun

theorem require (n : Nat) : OnlyThrows (require n) := by
  intro r e s h
  rw [require_run] at h
  split at h
  · cases h
  · cases h
    exact ⟨_, rfl⟩

theorem readU8 : OnlyThrows readU8 := by
  intro r e s h
  rw [readU8_run] at h
  split at h
  · cases h
  · cases h
    exact ⟨_, rfl⟩

theorem readRaw (n : Nat) : OnlyThrows (readRaw n) := by
  intro r e s h
  rw [readRaw_run] at h
  split at h
  · cases h
  · cases h
    exact ⟨_, rfl⟩

theorem raise (c : ErrorCode) (i : Nat) (w : String) : OnlyThrows (Common.raise c i w : Reader α) := by
  intro r e s h
  cases h
  exact ⟨_, rfl⟩

end OnlyThrows

/-- There are at least as many bytes as pieces when no piece is empty. -/
theorem length_le_flatMap {xs : List α} {enc : α → Bytes} (hne : ∀ x ∈ xs, enc x ≠ []) :
    xs.length ≤ (xs.flatMap enc).length := by
  induction xs with
  | nil => exact Nat.le_refl _
  | cons x xs ih =>
      have hpos := List.length_pos_iff.mpr (hne x (List.mem_cons_self ..))
      have hxs := ih fun y hy => hne y (List.mem_cons_of_mem x hy)
      rw [List.flatMap_cons, List.length_append, List.length_cons]
      omega

/-- Asking for the bytes first changes nothing. -/
theorem require_bind_readRaw (n : Nat) : (do require n; readRaw n) = readRaw n := by
  funext r
  by_cases h : n ≤ r.rest.length
  · simp [bind_run, require_run, h]
  · simp [bind_run, require_run, readRaw_run, h]

end Bytewright.Common
