import Mathlib.Data.List.Forall2
import Mathlib.Tactic.IntervalCases
import Bytewright.Library.Overlap
import Bytewright.Library.Salvage
import Bytewright.Model.Minidb.PageBuilder
import Bytewright.Verification.Minidb.Entries
import Bytewright.Verification.Minidb.TornTail

/-! # The string table of a slotted page -/

namespace Bytewright.Minidb

open Bytewright.Common Bytewright.Library

/-! ### The entries of a table -/

/-- A reader of entries, and how they are spelled. -/
structure EntryFormat {α : Type} (m : Reader α) (Whole : α → Bytes → Prop) : Prop where
  reads : ∀ a bs, Whole a bs → Reads m bs a
  whole : ∀ r a s, m r = .ok a s → ∃ bs, r.rest = bs ++ s.rest ∧ Whole a bs
  throws : OnlyThrows m

section Tables

variable {α : Type} {m : Reader α} {Whole : α → Bytes → Prop}

def attempt (m : Reader α) (r : ByteReader) : Option (α × ByteReader) :=
  match m r with
  | .ok a s => some (a, s)
  | .error _ _ => none

theorem attempt_eq_some {r s : ByteReader} {a : α} :
    attempt m r = some (a, s) ↔ m r = .ok a s := by
  rw [attempt]
  cases m r <;> simp

theorem attempt_eq_none {r : ByteReader} (h : attempt m r = none) (a : α) (s : ByteReader) :
    m r ≠ .ok a s := by
  intro hrun
  rw [attempt_eq_some.mpr hrun] at h
  cases h

/-- The entries that can be read lie one behind the other, as many as are asked for or as there are. -/
theorem EntryFormat.pieces (h : EntryFormat m Whole) (count : Nat) (r : ByteReader) :
    ∃ pieces rest, r.rest = pieces.flatten ++ rest ∧
      List.Forall₂ Whole (salvage (attempt m) count r) pieces ∧
      (salvage (attempt m) count r).length ≤ count ∧
      ((salvage (attempt m) count r).length < count →
        ¬ ∃ entry piece tail, Whole entry piece ∧ rest = piece ++ tail) := by
  have hstep : ∀ r a t, attempt m r = some (a, t) → ∃ bs, Whole a bs ∧ r.rest = bs ++ t.rest := by
    intro r a t hrun
    rcases h.whole r a t (attempt_eq_some.mp hrun) with ⟨bs, hr, hbs⟩
    exact ⟨bs, hbs, hr⟩
  rcases salvage_pieces hstep count r with ⟨pieces, t, hrest, hall, hend⟩
  refine ⟨pieces, t.rest, hrest, hall, salvage_length_le _ _, fun hlt => ?_⟩
  rintro ⟨entry, piece, tail, hpiece, htail⟩
  exact attempt_eq_none (hend hlt) entry _ (h.reads entry piece hpiece t tail htail)

end Tables

/-! ### String entries -/

/-- The bytes are an entry for the string, its length spelled in any way the reader accepts. -/
def Spells (entry bs : Bytes) : Prop :=
  ∃ lenBytes len, Reads readVarint lenBytes len ∧ entry.length = len.toNat ∧ bs = lenBytes ++ entry

theorem readStringEntry_eq : readStringEntry = readBody := by
  have hrequire : ∀ len : UInt64, (do require len.toNat; readString len.toNat) = readBytes len.toNat :=
    fun len => require_bind_readRaw len.toNat
  simp only [readStringEntry, readBody, hrequire]

theorem Spells.reads {entry bs : Bytes} (h : Spells entry bs) : Reads readStringEntry bs entry := by
  rcases h with ⟨lenBytes, len, hlen, hlength, rfl⟩
  rw [readStringEntry_eq]
  exact reads_readBody hlen hlength.symm

theorem spells_of_readStringEntry {r s : ByteReader} {entry : Bytes}
    (h : readStringEntry r = .ok entry s) :
    ∃ bs, r.rest = bs ++ s.rest ∧ Spells entry bs := by
  rw [readStringEntry_eq] at h
  rcases bind_eq_ok.mp h with ⟨len, t, hlen, hraw⟩
  rcases exact_readVarint _ _ _ hlen with ⟨lenBytes, hr, -, hreads, -⟩
  rcases readRaw_ok hraw with ⟨ht, hlength⟩
  exact ⟨lenBytes ++ entry, by rw [hr, ht, List.append_assoc], lenBytes, len, hreads, hlength, rfl⟩

/-- No entry is complete in front of these bytes. -/
def CutShort (bs : Bytes) : Prop := ¬ ∃ entry piece rest, Spells entry piece ∧ bs = piece ++ rest

theorem entryFormat_string : EntryFormat readStringEntry Spells where
  reads _ _ h := h.reads
  whole _ _ _ h := spells_of_readStringEntry h
  throws := onlyThrows_readStringEntry

theorem stringEntries_eq (count : Nat) (r : ByteReader) :
    stringEntries count r = .ok (salvage (attempt readStringEntry) count r) := by
  induction count generalizing r with
  | zero => rfl
  | succ count ih =>
      rw [stringEntries, salvage, attempt]
      cases hentry : readStringEntry r with
      | ok entry s =>
          dsimp only
          rw [ih]
          rfl
      | error e s =>
          rcases onlyThrows_readStringEntry _ _ _ hentry with ⟨err, rfl⟩
          rfl

/-- The table loop takes entries off the front, as many as it is asked for or as there are. -/
theorem pieces_of_stringEntries {count : Nat} {r : ByteReader} {entries : List Bytes}
    (h : stringEntries count r = .ok entries) : ∃ pieces rest, r.rest = pieces.flatten ++ rest ∧
      List.Forall₂ Spells entries pieces ∧ entries.length ≤ count ∧
      (entries.length < count → CutShort rest) := by
  rw [stringEntries_eq] at h
  cases h
  exact entryFormat_string.pieces count r

theorem stringEntries_of_pieces {entries pieces : List Bytes} (hall : List.Forall₂ Spells entries pieces)
    {count : Nat} {r : ByteReader} {rest : Bytes} (hr : r.rest = pieces.flatten ++ rest)
    (hle : entries.length ≤ count) (hcut : entries.length < count → CutShort rest) :
    stringEntries count r = .ok entries := by
  induction hall generalizing count r with
  | nil =>
      cases count with
      | zero => rfl
      | succ count =>
          have hcut := hcut (Nat.succ_pos _)
          rw [stringEntries]
          split
          · next entry s hentry =>
            rcases spells_of_readStringEntry hentry with ⟨piece, hpiece, hspells⟩
            exact absurd ⟨entry, piece, s.rest, hspells, hr.symm.trans hpiece⟩ hcut
          · rfl
          · next e s hnot hentry =>
            rcases onlyThrows_readStringEntry _ _ _ hentry with ⟨err, rfl⟩
            exact absurd rfl (hnot err)
  | @cons entry piece entries pieces hspells hall ih =>
      cases count with
      | zero => exact absurd hle (Nat.not_succ_le_zero _)
      | succ count =>
          rw [List.flatten_cons, List.append_assoc] at hr
          have hrest : (r.advance piece.length).rest = pieces.flatten ++ rest := by simp [hr]
          have htail := ih hrest (Nat.le_of_succ_le_succ hle) fun hlt => hcut (Nat.succ_lt_succ hlt)
          rw [stringEntries, hspells.reads r _ hr]
          dsimp only
          rw [htail]
          rfl

/-! ### The encoding of a list -/

/-- An entry with its length as `put_varint` spells it. -/
def entryBytes (entry : Bytes) : Bytes := varintBytes (UInt64.ofNat entry.length) ++ entry

theorem makeStringsRecord_eq (entries : List Bytes) : makeStringsRecord entries =
    varintBytes (UInt64.ofNat entries.length) ++ entries.flatMap entryBytes := by
  have hfold : ∀ (entries : List Bytes) (w : ByteWriter),
      (entries.foldl putStringEntry w).buffer = w.buffer ++ entries.flatMap entryBytes := by
    intro entries
    induction entries with
    | nil => simp
    | cons entry entries ih =>
        intro w
        rw [List.foldl_cons, ih]
        simp [putStringEntry, entryBytes, ByteWriter.putVarint, ByteWriter.putString, ByteWriter.putBytes]
  rw [makeStringsRecord, hfold]
  simp [ByteWriter.putVarint, ByteWriter.putBytes]

theorem entryBytes_of_lt {entry : Bytes} (h : entry.length < 128) :
    entryBytes entry = UInt8.ofNat entry.length :: entry := by
  rw [entryBytes, varintBytes_ofNat_of_lt h]
  rfl

theorem spells_entryBytes {entry : Bytes} (h : entry.length < 2 ^ 64) :
    Spells entry (entryBytes entry) :=
  ⟨_, _, reads_readVarint _, (UInt64.toNat_ofNat_of_lt' h).symm, rfl⟩

theorem forall₂_entryBytes {entries : List Bytes} (h : (entries.flatMap entryBytes).length < 2 ^ 64) :
    List.Forall₂ Spells entries (entries.map entryBytes) := by
  rw [List.forall₂_map_right_iff, List.forall₂_same]
  intro entry hentry
  have hpiece := List.sublist_flatten_of_mem (List.mem_map_of_mem (f := entryBytes) hentry)
  have hle := hpiece.length_le
  rw [← List.flatMap_def, entryBytes, List.length_append] at hle
  exact spells_entryBytes (by omega)

/-- Whichever of its bytes one starts at, the ring begins with a length as `put_varint` spells it. -/
def Round (w : Bytes) : Prop := ∀ k, ∃ v, varintBytes v <+: w.rotate k

theorem Round.rotate {w : Bytes} (h : Round w) (k : Nat) : Round (w.rotate k) := by
  intro i
  rw [List.rotate_rotate]
  exact h (k + i)

theorem Round.head {w : Bytes} (h : Round w) : ∃ v, varintBytes v <+: w := by
  simpa using h 0

/-- Behind such a length an entry is spelled as the writer does it. -/
theorem Spells.eq_entryBytes {entry piece w x y : Bytes} {v : UInt64} (h : Spells entry piece)
    (hv : varintBytes v <+: w) (heq : w ++ x = piece ++ y) :
    piece = entryBytes entry ∧ entry.length = v.toNat := by
  rcases h with ⟨lenBytes, len, hlen, hlength, rfl⟩
  rcases hv with ⟨w, rfl⟩
  rw [List.append_assoc, List.append_assoc] at heq
  rcases (reads_readVarint v).unique hlen heq with ⟨rfl, rfl⟩
  refine ⟨?_, hlength⟩
  rw [entryBytes, hlength, UInt64.ofNat_toNat]

/-- A ring in front of a list, and pieces cut off both: the ring moves along them, so that they are the
encoding of the list. -/
theorem pieces_eq {entries pieces : List Bytes} (h : List.Forall₂ Spells entries pieces) {w z t : Bytes}
    (hw : Round w) (heq : w ++ (entries.flatMap entryBytes ++ z) = pieces.flatten ++ t) :
    pieces = entries.map entryBytes := by
  induction h generalizing w with
  | nil => rfl
  | @cons entry piece entries pieces hspells _ ih =>
      rw [List.flatMap_cons, List.flatten_cons, List.append_assoc, List.append_assoc] at heq
      rcases hw.head with ⟨v, hv⟩
      rcases hspells.eq_entryBytes hv heq with ⟨rfl, -⟩
      have hrest := rotate_of_append heq
      rw [List.map_cons, ih (hw.rotate _) hrest.symm]

theorem varintBytes_byte {b : UInt8} (h : b.toNat < 128) : varintBytes b.toUInt64 = [b] := by
  rw [varintBytes_of_lt (by simpa using h)]
  simp

theorem round_of_bytes {w : Bytes} (hne : w ≠ []) (h : ∀ b ∈ w, b.toNat < 128) : Round w := by
  intro k
  rcases hrot : w.rotate k with _ | ⟨b, w'⟩
  · exact absurd (List.rotate_eq_nil_iff.mp hrot) hne
  · have hb : b ∈ w := List.mem_rotate.mp (hrot ▸ List.mem_cons_self)
    exact ⟨b.toUInt64, by simp [varintBytes_byte (h b hb)]⟩

/-- How far a ring of three bytes moves along `count` entries whose lengths are its own bytes. -/
def strides : (count a b c : Nat) → Nat
  | 0, _, _, _ => 0
  | count + 1, a, b, c => a + 1 + match (a + 1) % 3 with
    | 0 => strides count a b c
    | 1 => strides count b c a
    | _ => strides count c a b

theorem length_eq_strides {entries pieces : List Bytes} (hall : List.Forall₂ Spells entries pieces)
    {a b c : UInt8} {z t : Bytes} (ha : a.toNat < 128) (hb : b.toNat < 128) (hc : c.toNat < 128)
    (heq : [a, b, c] ++ (entries.flatMap entryBytes ++ z) = pieces.flatten ++ t) :
    (entries.flatMap entryBytes).length = strides entries.length a.toNat b.toNat c.toNat := by
  induction hall generalizing a b c with
  | nil => rfl
  | @cons entry piece entries pieces hspells _ ih =>
      rw [List.flatMap_cons, List.flatten_cons, List.append_assoc, List.append_assoc] at heq
      have hv : varintBytes a.toUInt64 <+: [a, b, c] := by simp [varintBytes_byte ha]
      rcases hspells.eq_entryBytes hv heq with ⟨rfl, hlength⟩
      rw [UInt8.toNat_toUInt64] at hlength
      have hlen : (entryBytes entry).length = a.toNat + 1 := by
        rw [entryBytes_of_lt (by omega), List.length_cons, hlength]
      have hrest := rotate_of_append heq
      have hthree : [a, b, c].length = 3 := rfl
      rw [hlen, ← List.rotate_mod, hthree] at hrest
      rw [List.flatMap_cons, List.length_append, hlen, List.length_cons, strides]
      congr 1
      have hmod : (a.toNat + 1) % 3 < 3 := Nat.mod_lt _ (Nat.succ_pos 2)
      generalize (a.toNat + 1) % 3 = k at hmod hrest
      interval_cases k
      · exact ih ha hb hc hrest.symm
      · exact ih hb hc ha hrest.symm
      · exact ih hc ha hb hrest.symm

end Bytewright.Minidb
