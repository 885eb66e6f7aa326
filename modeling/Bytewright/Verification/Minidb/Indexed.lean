import Bytewright.Verification.Minidb.Chains
import Bytewright.Verification.Minidb.Index

/-! # Records behind an index

An INDEX page of a store that is written: the entries that are found in it again, and the records of the
store that a lookup through them comes to. -/

namespace Bytewright.Minidb

open Bytewright.Common Bytewright.Library

/-! ### A table that was written -/

section Tables

variable {α : Type} {m : Reader α} {Whole : α → Bytes → Prop}

/-- What follows whole entries, if it is no whole entry itself, is given up. -/
theorem EntryFormat.salvage_written (h : EntryFormat m Whole) {entries : List α} {pieces : List Bytes}
    (hall : List.Forall₂ Whole entries pieces) {j : Nat} {tail : Bytes}
    (htail : ∀ piece, pieces[j]? = some piece → tail <+: piece ∧ tail ≠ piece) (r : ByteReader)
    (hr : r.rest = (pieces.take j).flatten ++ tail) :
    salvage (attempt m) entries.length r = entries.take j := by
  induction hall generalizing j r with
  | nil => simp
  | @cons e piece entries pieces hwhole hall ih =>
      cases j with
      | zero =>
          have hnone : attempt m r = none := by
            obtain ⟨⟨more, hmore⟩, hne⟩ := htail piece rfl
            cases hrun : attempt m r with
            | none => rfl
            | some read =>
                obtain ⟨bs, hbs, hspells⟩ := h.whole r read.1 read.2 (attempt_eq_some.mp hrun)
                have hlong : ByteReader.rest { data := piece } = bs ++ (read.2.rest ++ more) := by
                  rw [← List.append_assoc, ← hbs, hr]
                  exact hmore.symm
                have hrest : tail = bs ++ read.2.rest := hr.symm.trans hbs
                -- both spellings are read off the whole piece, so they are of one length
                have hread := h.reads _ _ hspells { data := piece } _ hlong
                rw [h.reads _ _ hwhole { data := piece } [] (List.append_nil _).symm] at hread
                injection hread with _ hread
                have hpos := congrArg ByteReader.pos hread
                rw [ByteReader.pos_advance, ByteReader.pos_advance] at hpos
                have hlen := congrArg List.length hmore
                rw [List.length_append] at hlen
                have hshort := congrArg List.length hrest
                rw [List.length_append] at hshort
                obtain rfl : more = [] := List.length_eq_zero_iff.mp (by omega)
                exact absurd ((List.append_nil tail).symm.trans hmore) hne
          rw [salvage_of_none hnone, List.take_zero]
      | succ j =>
          rw [List.take_succ_cons, List.flatten_cons, List.append_assoc] at hr
          have hread := attempt_eq_some.mpr (h.reads e piece hwhole r _ hr)
          rw [List.length_cons, salvage_of_some hread, List.take_succ_cons, ih htail]
          rw [ByteReader.rest_advance, hr, List.drop_left]

theorem EntryFormat.table_written (h : EntryFormat m Whole) {entries : List α} {pieces : List Bytes}
    (hall : List.Forall₂ Whole entries pieces) (hcount : entries.length < 2 ^ 64) {j : Nat} {tail : Bytes}
    (htail : ∀ piece, pieces[j]? = some piece → tail <+: piece ∧ tail ≠ piece) :
    table m { data := varintBytes (UInt64.ofNat entries.length) ++ ((pieces.take j).flatten ++ tail) } =
      entries.take j := by
  rw [table, reads_readVarint _ _ _ rfl]
  dsimp only
  rw [UInt64.toNat_ofNat_of_lt' hcount]
  apply h.salvage_written hall htail
  rw [ByteReader.rest_advance, ByteReader.rest_mk_zero, List.drop_left]

end Tables

/-! ### The page -/

def indexEntryBytes (e : IndexEntry) : Bytes :=
  entryBytes e.key ++ leBytes 4 e.page.toNat ++ leBytes 2 e.slot.toNat

/-- The body of an INDEX page: the number of entries, and the entries. -/
def indexBytes (count : Nat) (entries : List IndexEntry) : Bytes :=
  varintBytes (UInt64.ofNat count) ++ entries.flatMap indexEntryBytes

theorem makeIndexPage_eq (pageSize overflowNext : UInt16) (entries : List IndexEntry) :
    makeIndexPage pageSize overflowNext entries =
      makeBodyPage kIndex pageSize overflowNext (indexBytes entries.length entries) := by
  have hfold : ∀ w : ByteWriter, (entries.foldl putIndexEntry w).buffer =
      w.buffer ++ entries.flatMap indexEntryBytes := by
    induction entries with
    | nil => simp
    | cons e entries ih =>
        intro w
        rw [List.foldl_cons, ih]
        simp [putIndexEntry, indexEntryBytes, entryBytes, ByteWriter.putVarint, ByteWriter.putString,
          ByteWriter.putBytes, ByteWriter.putU32le, ByteWriter.putU16le]
  rw [makeIndexPage, hfold, indexBytes]
  simp [ByteWriter.putVarint, ByteWriter.putBytes]

/-- A page has as much of its body as there is room for, and zeros behind it. -/
theorem makeBodyPage_drop (type : PageType) {pageSize : UInt16} (overflowNext : UInt16) (body : Bytes)
    (hsize : kPageHeaderSize ≤ pageSize.toNat) :
    (makeBodyPage type pageSize overflowNext body).length = pageSize.toNat ∧
      (makeBodyPage type pageSize overflowNext body)[0]? = some type ∧
      (makeBodyPage type pageSize overflowNext body).drop kPageHeaderSize =
        body.take (pageSize.toNat - kPageHeaderSize) ++
          List.replicate (pageSize.toNat - kPageHeaderSize - body.length) 0 := by
  have hlength : ∀ free : Nat,
      ([type, 0, 0, 0] ++ leBytes 2 free ++ leBytes 2 overflowNext.toNat).length = kPageHeaderSize := by
    intro free
    simp [kPageHeaderSize]
  rw [makeBodyPage]
  refine ⟨?_, by simp, ?_⟩
  · rw [List.length_append, List.length_append, hlength, List.length_replicate, List.length_take]
    omega
  · rw [List.append_assoc, List.drop_left' (hlength _), List.length_append, hlength, List.length_take]
    congr 2
    omega

theorem forall₂_indexEntryBytes {entries : List IndexEntry}
    (h : (entries.flatMap indexEntryBytes).length < 2 ^ 64) :
    List.Forall₂ SpellsEntry entries (entries.map indexEntryBytes) := by
  rw [List.forall₂_map_right_iff, List.forall₂_same]
  intro e he
  have hpiece := List.sublist_flatten_of_mem (List.mem_map_of_mem (f := indexEntryBytes) he)
  have hle := hpiece.length_le
  rw [← List.flatMap_def, indexEntryBytes, entryBytes] at hle
  simp only [List.length_append] at hle
  exact ⟨_, spells_entryBytes (by omega), rfl⟩

/-- The entries of a page that was written are read as far as they are whole. -/
theorem decodeIndexPage_written {pageSize : UInt16} (overflowNext : UInt16) {entries : List IndexEntry}
    (hsize : kPageHeaderSize + 10 ≤ pageSize.toNat) (hsmall : (entries.flatMap indexEntryBytes).length < 2 ^ 64)
    (pageIndex : UInt32) : ∃ j ≤ entries.length,
      decodeIndexPage (makeIndexPage pageSize overflowNext entries) pageIndex = .ok
        { pageIndex, truncated := decide (j < entries.length), entries := sortEntries (entries.take j) } ∧
      ∀ i ≤ entries.length, i ≤ j ↔
        kPageHeaderSize + (indexBytes entries.length (entries.take i)).length ≤ pageSize.toNat := by
  let count := varintBytes (UInt64.ofNat entries.length)
  let pieces := entries.map indexEntryBytes
  let room := pageSize.toNat - kPageHeaderSize - count.length
  have hcount : count.length ≤ 10 :=
    varintBytes_length_le (by decide) ((UInt64.ofNat entries.length).toNat_lt.trans (by decide))
  have hroom : count.length ≤ pageSize.toNat - kPageHeaderSize := by omega
  have hmany : entries.length < 2 ^ 64 := by
    have hle : entries.length ≤ (entries.flatMap indexEntryBytes).length :=
      length_le_flatMap fun e _ => by simp [indexEntryBytes, leBytes]
    omega
  have hbytes : ∀ i, (indexBytes entries.length (entries.take i)).length =
      count.length + (pieces.take i).flatten.length := by
    intro i
    rw [indexBytes, List.length_append, List.flatMap_def, List.map_take]
  obtain ⟨hlength, htype, hbody⟩ := makeBodyPage_drop kIndex overflowNext (indexBytes entries.length entries)
    (Nat.le_of_add_right_le hsize)
  obtain ⟨j, tail, htake, hj, hwhole, hcut, hfit⟩ := take_flatten pieces room
  rw [List.length_map] at hj hwhole hfit
  have hover : j < entries.length → pageSize.toNat - kPageHeaderSize < (indexBytes entries.length entries).length := by
    intro hlt
    have hn := hfit entries.length (Nat.le_refl _)
    have hlast := hbytes entries.length
    rw [List.take_of_length_le (Nat.le_of_eq (List.length_map _))] at hn hlast
    rw [List.take_length] at hlast
    omega
  -- behind the entries that fit are zeros, or a part of the next entry and nothing else
  have hpage : ∃ tail, (makeIndexPage pageSize overflowNext entries).drop kPageHeaderSize =
      count ++ ((pieces.take j).flatten ++ tail) ∧ ∀ piece, pieces[j]? = some piece → tail <+: piece ∧ tail ≠ piece := by
    refine ⟨tail ++ List.replicate (pageSize.toNat - kPageHeaderSize - (indexBytes entries.length entries).length) 0,
      ?_, fun piece hpiece => ?_⟩
    · rw [makeIndexPage_eq, hbody, ← List.append_assoc, ← List.append_assoc]
      congr 1
      rw [indexBytes, List.take_append, List.take_of_length_le hroom, List.flatMap_def, htake, List.append_assoc]
    · have hj := (List.getElem?_eq_some_iff.mp hpiece).1
      rw [List.length_map] at hj
      rw [Nat.sub_eq_zero_of_le (hover hj).le, List.replicate_zero, List.append_nil]
      exact hcut piece hpiece
  obtain ⟨tail, hdrop, hcut⟩ := hpage
  have htable := entryFormat_index.table_written (forall₂_indexEntryBytes hsmall) hmany hcut
  obtain ⟨truncated, hindex, hshort⟩ := indexBody_eq (count ++ ((pieces.take j).flatten ++ tail))
  rw [htable] at hindex hshort
  have hdeclared : declaredCount (count ++ ((pieces.take j).flatten ++ tail)) = some (UInt64.ofNat entries.length) := by
    rw [declaredCount, reads_readVarint _ _ _ rfl]
  have htruncated : truncated = decide (j < entries.length) := by
    rw [Bool.eq_iff_iff, hshort, FallsShort, hdeclared, decide_eq_true_iff]
    simp [UInt64.toNat_ofNat_of_lt' hmany]
  refine ⟨j, hj, ?_, fun i hi => ?_⟩
  · rw [← htruncated]
    apply decodeIndexPage_of_body
    · rw [makeIndexPage_eq, hlength]
      omega
    · rw [makeIndexPage_eq, htype]
    · rw [hdrop, hindex]
  · rw [hfit i hi, hbytes]
    omega

/-! ### Lookups -/

/-- An INDEX page of a store that is written and opened again: the entries that fit into it are found, and
looking a key up comes to the record that the store has where the first entry for it says, as it is after the
committed transactions. -/
theorem openDb_indexed (spec : StoreSpec) (opts : Options) {n : Nat} {overflowNext : UInt16}
    {entries : List IndexEntry} (hpage : spec.pages[n]? = some (.raw (makeIndexPage spec.pageSize overflowNext entries)))
    (hsmall : (entries.flatMap indexEntryBytes).length < 2 ^ 64) (pageIndex : UInt32) :
    ∃ db out kept, openDb spec.image opts = .ok db ∧
      decodeIndexPage ((spec.image.drop (kHeaderSize + n * spec.pageSize.toNat)).take spec.pageSize.toNat) pageIndex =
        .ok out ∧
      kept <+: entries ∧ (∀ i ≤ entries.length, i ≤ kept.length ↔
        kPageHeaderSize + (indexBytes entries.length (entries.take i)).length ≤ spec.pageSize.toNat) ∧
      out.truncated = decide (kept.length < entries.length) ∧
      (∀ key, (out.lookup key).bind (fun e => db.records[(e.page, e.slot)]?) =
        (kept.find? fun e => decide (e.key = key)).bind fun e =>
          (spec.rows (e.page, e.slot)).map (Row.record db.stringTable)) ∧
      ∀ lo hi, Selects kept lo hi (out.range lo hi) := by
  obtain ⟨db, hopen, -, -, hrecords⟩ := spec.openDb_rows opts
  have hsize : kPageHeaderSize + 10 ≤ spec.pageSize.toNat :=
    Nat.le_trans (by decide) (UInt16.le_iff_toNat_le.mp spec.sized.1)
  obtain ⟨j, hj, hdecode, hfit⟩ := decodeIndexPage_written overflowNext hsize hsmall pageIndex
  have hlength := (makeBodyPage_drop kIndex overflowNext (indexBytes entries.length entries)
    (Nat.le_of_add_right_le hsize)).1
  have hbytes := List.prefix_iff_eq_take.mp (spec.image_drop_page hpage)
  rw [PageSpec.image, makeIndexPage_eq, hlength, ← makeIndexPage_eq] at hbytes
  have hkept : (entries.take j).length = j := List.length_take_of_le hj
  refine ⟨db, _, entries.take j, hopen, hbytes ▸ hdecode, List.take_prefix .., ?_, by rw [hkept], fun key => ?_,
    selects_range rfl⟩
  · rwa [hkept]
  · rw [IndexPage.lookup_eq_find? (sorted_sortEntries _), ← List.head?_filter, filter_sortEntries, List.head?_filter]
    simp only [hrecords]

def sampleEntries : List IndexEntry := [⟨ascii "b", 0, 0⟩, ⟨ascii "a", 0, 1⟩, ⟨ascii "b", 0, 1⟩]

/-- A row, and an index that names it, a missing row, and a key twice. -/
def indexedStore : StoreSpec where
  pageSize := 128
  pages := [.data 0xFFFF [{ fields := [.null], sized := by decide +kernel }],
    .raw (makeIndexPage 128 0xFFFF sampleEntries)]
  sized := by decide
  fits := by
    intro page hpage
    rcases List.mem_pair.mp hpage with rfl | rfl
    · change Fits 128 _
      rw [Fits]
      decide +kernel
    · exact ⟨by decide +kernel, by decide +kernel⟩
  small := by decide

theorem openDb_indexed_twice : ∃ db out kept, openDb indexedStore.image {} = .ok db ∧
    decodeIndexPage ((indexedStore.image.drop 160).take 128) 1 = .ok out ∧ kept <+: sampleEntries ∧
    out.truncated = decide (kept.length < 3) := by
  obtain ⟨db, out, kept, hopen, hdecode, hkept, -, htruncated, -⟩ :=
    @openDb_indexed indexedStore {} 1 0xFFFF sampleEntries rfl (by decide +kernel) 1
  exact ⟨db, out, kept, hopen, hdecode, hkept, htruncated⟩

end Bytewright.Minidb
