import Bytewright.Model.Minidb.PageBuilder
import Bytewright.Verification.Minidb.Catalog
import Bytewright.Verification.Minidb.TornTail

/-! # Headers and pages that are written

What the first stages of `open` find in the header and the pages that the builders lay out. -/

namespace Bytewright.Minidb

open Bytewright.Common Bytewright.Library

variable {data : Bytes}

/-! ### The header -/

theorem u16At_of_spelled {i v : Nat} (h : leBytes 2 v <+: data.drop i) : u16At data i = UInt16.ofNat v := by
  have htake := List.prefix_iff_eq_take.mp h
  rw [leBytes_length] at htake
  rw [u16At, ← htake, leValue_leBytes]
  exact UInt16.toNat_inj.mp (by simp)

theorem u32At_of_spelled {i v : Nat} (h : leBytes 4 v <+: data.drop i) : u32At data i = UInt32.ofNat v := by
  have htake := List.prefix_iff_eq_take.mp h
  rw [leBytes_length] at htake
  rw [u32At, ← htake, leValue_leBytes]
  exact UInt32.toNat_inj.mp (by simp)

theorem readU16le_here {r : ByteReader} (h : 2 ≤ r.rest.length) :
    readU16le r = .ok (u16At r.data r.pos) (r.advance 2) := by
  obtain ⟨v, hv⟩ := readU16le_of_le h
  rw [hv, (readU16le_at hv).1]

theorem readU32le_here {r : ByteReader} (h : 4 ≤ r.rest.length) :
    readU32le r = .ok (u32At r.data r.pos) (r.advance 4) := by
  have hraw := (readRaw_run 4 r).trans (if_pos h)
  rw [readU32le, bind_of_ok hraw]
  rfl

theorem matchBytes_here {r : ByteReader} {bs rest : Bytes} (h : r.rest = bs ++ rest) :
    matchBytes bs r = .ok true r := by
  have hlen : ¬ bs.length > r.remaining := by
    rw [r.remaining_eq, h, List.length_append]
    omega
  have hbytes := bytesAt_run bs.length r (by rw [h, List.length_append]; omega)
  rw [matchBytes, bind_of_ok (get_run r), if_neg hlen, bind_of_ok hbytes, h]
  simp

/-- A header that is whole, sound and has the right CRC is accepted in either mode. -/
theorem parseHeader_ok (strict : Bool) (hlen : kHeaderSize ≤ data.length) {rest : Bytes}
    (hmagic : data = kMagic ++ rest) (hversion : u16At data 4 = kSupportedVersion)
    (hsize : kMinPageSize ≤ u16At data 6 ∧ u16At data 6 ≤ kMaxPageSize ∧ u16At data 6 % kPageSizeAlign = 0)
    (hcrc : crc32 (data.take kHeaderCrcCovered) = u32At data 28) :
    ∃ r, parseHeader strict { data } = .ok (headerOf data) r := by
  rw [kHeaderSize] at hlen
  have hrest : ∀ n, (ByteReader.advance { data } n).rest.length = data.length - n := fun n => by
    rw [ByteReader.rest_advance, List.length_drop]
    rfl
  have hrequire : require kHeaderSize { data } = .ok () { data } := by
    rw [require_run]
    exact if_pos hlen
  have hskip : skip kMagic.length { data } = .ok () (ByteReader.advance { data } 4) := by
    have hfour : require kMagic.length { data } = .ok () { data } := by
      rw [require_run]
      exact if_pos (Nat.le_trans (by decide) hlen)
    rw [skip, bind_of_ok hfour]
    rfl
  have hsound : ¬ (u16At data 6 < kMinPageSize ∨ u16At data 6 > kMaxPageSize ∨
      u16At data 6 % kPageSizeAlign ≠ 0) := by
    obtain ⟨hmin, hmax, halign⟩ := hsize
    rintro (h | h | h)
    · exact absurd hmin (UInt16.not_le.mpr h)
    · exact absurd hmax (UInt16.not_le.mpr h)
    · exact h halign
  have h16 : ∀ n, n + 2 ≤ 32 → readU16le (ByteReader.advance { data } n) =
      .ok (u16At data (0 + n)) (ByteReader.advance { data } (n + 2)) := fun n hn =>
    (readU16le_here (by rw [hrest]; omega)).trans (by rw [ByteReader.advance_advance]; rfl)
  have h32 : ∀ n, n + 4 ≤ 32 → readU32le (ByteReader.advance { data } n) =
      .ok (u32At data (0 + n)) (ByteReader.advance { data } (n + 4)) := fun n hn =>
    (readU32le_here (by rw [hrest]; omega)).trans (by rw [ByteReader.advance_advance]; rfl)
  simp only [Nat.zero_add] at h16 h32
  have hcovered : ∀ r : ByteReader, r.data = data →
      bytesAt 0 kHeaderCrcCovered r = .ok (data.take kHeaderCrcCovered) r := fun r hr => by
    have hcount : ((r.data.drop 0).take kHeaderCrcCovered).length = kHeaderCrcCovered := by
      rw [hr, List.drop_zero]
      exact List.length_take_of_le (Nat.le_trans (by decide) hlen)
    rw [bytesAt, bind_of_ok (get_run r), ite_run, if_pos hcount, hr, List.drop_zero]
    rfl
  have hmatch : matchBytes kMagic { data } = .ok true { data } := @matchBytes_here { data } kMagic rest hmagic
  rw [parseHeader, bind_of_ok hrequire, bind_of_ok (get_run _), bind_of_ok hmatch]
  simp only [Bool.not_true, Bool.false_eq_true, if_false]
  rw [bind_of_ok hskip, bind_of_ok (h16 4 (by decide)), if_neg (not_not.mpr hversion),
    bind_of_ok (h16 6 (by decide)), if_neg hsound, bind_of_ok (h32 8 (by decide)),
    bind_of_ok (h32 12 (by decide)), bind_of_ok (h32 16 (by decide)), bind_of_ok (h32 20 (by decide)),
    bind_of_ok (h32 24 (by decide)), bind_of_ok (h32 28 (by decide)), bind_of_ok (hcovered _ rfl), hcrc,
    beq_self_eq_true]
  exact ⟨ByteReader.advance { data } 32, by simp [headerOf, hcrc]⟩

/-- The 28 bytes that the CRC of a header covers. -/
def headerFront (pageSize : UInt16) (pageCount rootPage stringTablePage journalOffset flags : UInt32) : Bytes :=
  kMagic ++ (leBytes 2 1 ++ (leBytes 2 pageSize.toNat ++ (leBytes 4 pageCount.toNat ++
    (leBytes 4 rootPage.toNat ++ (leBytes 4 stringTablePage.toNat ++ (leBytes 4 journalOffset.toNat ++
      leBytes 4 flags.toNat))))))

section

variable (pageSize : UInt16) (pageCount rootPage stringTablePage journalOffset flags : UInt32)

@[simp] theorem headerFront_length :
    (headerFront pageSize pageCount rootPage stringTablePage journalOffset flags).length = 28 := by
  simp [headerFront, kMagic, ascii]

theorem makeHeader_eq : makeHeader pageSize pageCount rootPage stringTablePage journalOffset flags none =
    headerFront pageSize pageCount rootPage stringTablePage journalOffset flags ++
      leBytes 4 (crc32 (headerFront pageSize pageCount rootPage stringTablePage journalOffset flags)).toNat := by
  have hfront : (((((((((((({} : ByteWriter).putU8 77).putU8 68).putU8 66).putU8 49).putU16le 1).putU16le
      pageSize).putU32le pageCount).putU32le rootPage).putU32le stringTablePage).putU32le
        journalOffset).putU32le flags).buffer =
      headerFront pageSize pageCount rootPage stringTablePage journalOffset flags := by
    simp [ByteWriter.putU8, ByteWriter.putU16le, ByteWriter.putU32le, ByteWriter.putBytes, headerFront, kMagic,
      ascii]
  have htake := List.take_of_length_le
    (headerFront_length pageSize pageCount rootPage stringTablePage journalOffset flags).le
  rw [makeHeader, hfront, htake, ByteWriter.putU32le, ByteWriter.putBytes, hfront]
  rfl

/-- Every field of a header that was built is found again, whatever follows it. -/
theorem headerOf_makeHeader (rest : Bytes) :
    headerOf (makeHeader pageSize pageCount rootPage stringTablePage journalOffset flags none ++ rest) =
      { version := kSupportedVersion, pageSize, pageCount, rootPage, stringTablePage, journalOffset, flags,
        headerCrc32 := crc32 (headerFront pageSize pageCount rootPage stringTablePage journalOffset flags)
        checksumOk := true } := by
  have hmagic : kMagic.length = 4 := rfl
  have hcovered : (makeHeader pageSize pageCount rootPage stringTablePage journalOffset flags none ++
      rest).take kHeaderCrcCovered =
        headerFront pageSize pageCount rootPage stringTablePage journalOffset flags := by
    rw [makeHeader_eq, List.append_assoc]
    exact List.take_left' (headerFront_length ..)
  rw [headerOf, hcovered, makeHeader_eq]
  generalize crc32 (headerFront pageSize pageCount rootPage stringTablePage journalOffset flags) = crc
  have hcrc := @u32At_of_spelled (headerFront pageSize pageCount rootPage stringTablePage journalOffset flags ++
    leBytes 4 crc.toNat ++ rest) 28 crc.toNat (by simp)
  rw [hcrc, headerFront, @u16At_of_spelled _ 4 1 (by simp [hmagic]),
    @u16At_of_spelled _ 6 pageSize.toNat (by simp [List.drop_append, List.drop_eq_nil_of_le, hmagic]),
    @u32At_of_spelled _ 8 pageCount.toNat (by simp [List.drop_append, List.drop_eq_nil_of_le, hmagic]),
    @u32At_of_spelled _ 12 rootPage.toNat (by simp [List.drop_append, List.drop_eq_nil_of_le, hmagic]),
    @u32At_of_spelled _ 16 stringTablePage.toNat (by simp [List.drop_append, List.drop_eq_nil_of_le, hmagic]),
    @u32At_of_spelled _ 20 journalOffset.toNat (by simp [List.drop_append, List.drop_eq_nil_of_le, hmagic]),
    @u32At_of_spelled _ 24 flags.toNat (by simp [List.drop_append, List.drop_eq_nil_of_le, hmagic])]
  simp [kSupportedVersion]

end

/-! ### A page of records -/

/-- The directory of records that are laid out from `cursor` on. -/
def directoryBytes (cursor : Nat) : List Bytes → Bytes
  | [] => []
  | record :: records =>
    leBytes 2 cursor ++ leBytes 2 record.length ++ directoryBytes (cursor + record.length) records

theorem foldl_layRecord (directory : Bytes) (cursor : Nat) (records : List Bytes) :
    records.foldl layRecord (directory, cursor) =
      (directory ++ directoryBytes cursor records, cursor + records.flatten.length) := by
  induction records generalizing directory cursor with
  | nil => simp [directoryBytes]
  | cons record records ih => simp [layRecord, directoryBytes, ih, Nat.add_assoc]

@[simp] theorem directoryBytes_length (cursor : Nat) (records : List Bytes) :
    (directoryBytes cursor records).length = kSlotEntrySize * records.length := by
  induction records generalizing cursor with
  | nil => rfl
  | cons record records ih =>
      rw [directoryBytes, List.length_append, List.length_append, leBytes_length, leBytes_length, ih,
        List.length_cons, Nat.mul_succ, kSlotEntrySize]
      omega

/-- Where record `s` is laid out. -/
def layoutOffset (cursor : Nat) (records : List Bytes) (s : Nat) : Nat :=
  cursor + (records.take s).flatten.length

/-- Its directory entry. -/
theorem directoryBytes_drop {records : List Bytes} {s : Nat} {record : Bytes} (h : records[s]? = some record)
    (cursor : Nat) : ∃ rest, (directoryBytes cursor records).drop (kSlotEntrySize * s) =
      leBytes 2 (layoutOffset cursor records s) ++ (leBytes 2 record.length ++ rest) := by
  induction records generalizing s cursor with
  | nil => cases h
  | cons first records ih =>
      cases s with
      | zero =>
          obtain rfl : first = record := Option.some.inj h
          exact ⟨directoryBytes (cursor + first.length) records, by simp [directoryBytes, layoutOffset]⟩
      | succ s =>
          obtain ⟨rest, hrest⟩ := ih h (cursor + first.length)
          refine ⟨rest, ?_⟩
          have hentry : (leBytes 2 cursor ++ leBytes 2 first.length).length = kSlotEntrySize := by
            rw [List.length_append, leBytes_length, leBytes_length]
            rfl
          rw [directoryBytes, Nat.mul_succ, Nat.add_comm, ← List.drop_drop, List.drop_left' hentry, hrest]
          simp [layoutOffset, Nat.add_assoc]

/-- The records that a page has room for. -/
def Fits (pageSize : UInt16) (records : List Bytes) : Prop :=
  kPageHeaderSize + kSlotEntrySize * records.length + records.flatten.length ≤ pageSize.toNat

/-- A page that is built for records has its header, their directory, and the records behind it. -/
theorem makePage_records {pageSize : UInt16} {records : List Bytes} (hfits : Fits pageSize records)
    (type : PageType) (overflowNext : UInt16) :
    ∃ header padding, header.length = 4 ∧ (makePage type pageSize overflowNext records).length = pageSize.toNat ∧
      makePage type pageSize overflowNext records = type :: 0 :: (leBytes 2 records.length ++ (header ++
        (directoryBytes (kPageHeaderSize + kSlotEntrySize * records.length) records ++
          (records.flatten ++ padding)))) := by
  have hsize := pageSize.toNat_lt
  rw [Fits, kPageHeaderSize, kSlotEntrySize] at hfits
  have hcount : (UInt16.ofNat records.length).toNat = records.length := by
    rw [UInt16.toNat_ofNat', Nat.mod_eq_of_lt (by omega)]
  refine ⟨leBytes 2 (kPageHeaderSize + kSlotEntrySize * records.length + records.flatten.length) ++
    leBytes 2 overflowNext.toNat, List.replicate (pageSize.toNat -
      (kPageHeaderSize + kSlotEntrySize * records.length + records.flatten.length)) 0, by simp, ?_, ?_⟩
  · rw [makePage, foldl_layRecord]
    simp only [List.length_append, List.length_cons, List.length_nil, leBytes_length, directoryBytes_length,
      hcount, List.length_replicate]
    rw [kSlotEntrySize]
    omega
  · rw [makePage, foldl_layRecord]
    simp [hcount, Nat.mul_comm kSlotEntrySize]
    rw [kPageHeaderSize]
    omega

/-- A list of records around one of them. -/
theorem flatten_split {records : List Bytes} {s : Nat} {record : Bytes} (h : records[s]? = some record) :
    records.flatten = (records.take s).flatten ++ (record ++ (records.drop (s + 1)).flatten) := by
  obtain ⟨hs, rfl⟩ := List.getElem?_eq_some_iff.mp h
  conv => lhs; rw [← List.take_append_drop s records, List.drop_eq_getElem_cons hs]
  rw [List.flatten_append, List.flatten_cons]

/-- The directory of a page that was built is found again. -/
theorem slots_of_makePage {pageSize : UInt16} {records : List Bytes} (hfits : Fits pageSize records)
    {type : PageType} {overflowNext : UInt16} {off : Nat}
    (hpage : makePage type pageSize overflowNext records <+: data.drop off) {index : UInt32} {page : Page}
    (hparse : parsePage data index pageSize.toNat off pageSize.toNat = .ok page) :
    page.slots.length = records.length ∧
    ∀ (s : Nat) (record : Bytes), records[s]? = some record → ∃ slot : Slot,
      page.slots[s]? = some slot ∧ slot.inBounds = true ∧ slot.recLength.toNat = record.length ∧
      (data.drop (off + slot.recOffset.toNat)).take record.length = record := by
  obtain ⟨header, padding, hheader, hlength, hbytes⟩ := makePage_records hfits type overflowNext
  rw [hbytes] at hpage
  have hsize := pageSize.toNat_lt
  rw [Fits] at hfits
  obtain ⟨rest, hrest⟩ := hpage
  have hcount : u16At data (off + 2) = UInt16.ofNat records.length :=
    u16At_of_spelled (by rw [← List.drop_drop, ← hrest]; simp)
  have hdirectory : data.drop (off + kPageHeaderSize) =
      directoryBytes (kPageHeaderSize + kSlotEntrySize * records.length) records ++
        (records.flatten ++ (padding ++ rest)) := by
    rw [← List.drop_drop, ← hrest, kPageHeaderSize]
    simp [List.drop_append, hheader]
  have hslots := (parsePage_at hparse).2.2
  have hfit : fitEntries data off pageSize.toNat = records.length := by
    rw [fitEntries, hcount, UInt16.toNat_ofNat']
    rw [kPageHeaderSize, kSlotEntrySize] at *
    omega
  rw [hfit] at hslots
  refine ⟨by rw [hslots, List.length_map, List.length_range], fun s record hrecord => ?_⟩
  have hs := (List.getElem?_eq_some_iff.mp hrecord).1
  have hsplit := congrArg List.length (flatten_split hrecord)
  rw [List.length_append, List.length_append] at hsplit
  obtain ⟨more, hentry⟩ := directoryBytes_drop hrecord (kPageHeaderSize + kSlotEntrySize * records.length)
  generalize hoffset : layoutOffset (kPageHeaderSize + kSlotEntrySize * records.length) records s = offset
    at hentry
  rw [layoutOffset] at hoffset
  have hbytes : data.drop (off + (kPageHeaderSize + kSlotEntrySize * s)) = leBytes 2 offset ++
      (leBytes 2 record.length ++ (more ++ (records.flatten ++ (padding ++ rest)))) := by
    rw [← Nat.add_assoc, ← List.drop_drop, hdirectory, List.drop_append_of_le_length
      (by rw [directoryBytes_length]; exact Nat.mul_le_mul_left _ hs.le), hentry]
    simp
  have hrecOffset : u16At data (off + (kPageHeaderSize + kSlotEntrySize * s)) = UInt16.ofNat offset :=
    u16At_of_spelled (by rw [hbytes]; exact List.prefix_append ..)
  have hrecLength : u16At data (off + (kPageHeaderSize + kSlotEntrySize * s) + 2) =
      UInt16.ofNat record.length :=
    u16At_of_spelled (by
      rw [← List.drop_drop, hbytes, List.drop_left' (leBytes_length 2 offset)]
      exact List.prefix_append ..)
  have htoNat : (UInt16.ofNat offset).toNat = offset := by
    rw [UInt16.toNat_ofNat', Nat.mod_eq_of_lt (by omega)]
  have htoNat' : (UInt16.ofNat record.length).toNat = record.length := by
    rw [UInt16.toNat_ofNat', Nat.mod_eq_of_lt (by omega)]
  refine ⟨slotAt data pageSize.toNat (off + (kPageHeaderSize + kSlotEntrySize * s)), ?_, ?_, ?_, ?_⟩
  · rw [hslots, List.getElem?_map, List.getElem?_range hs, Option.map_some]
  · rw [slotAt, hrecOffset, hrecLength, htoNat, htoNat']
    simp only [Bool.and_eq_true, decide_eq_true_eq]
    omega
  · rw [slotAt, hrecLength, htoNat']
  · rw [slotAt, hrecOffset, htoNat, ← hoffset]
    have hfront : (directoryBytes (kPageHeaderSize + kSlotEntrySize * records.length) records ++
        (records.take s).flatten).length = kSlotEntrySize * records.length + (records.take s).flatten.length := by
      rw [List.length_append, directoryBytes_length]
    rw [Nat.add_assoc, ← Nat.add_assoc off, ← List.drop_drop, hdirectory, flatten_split hrecord,
      List.append_assoc, ← List.append_assoc, List.drop_left' hfront, List.append_assoc]
    exact List.take_left

/-! ### The seed -/

/-- The slot seeds this record. -/
def Seeds (data : Bytes) (page : Page) (span : PageSpan) (slot : Slot) (record : Bytes) : Prop :=
  ∀ store s, seedSlot data page span store s slot = store.insert (page.index, s) record

theorem seeds_of_slot {page : Page} {span : PageSpan} {slot : Slot} {record : Bytes} (hne : record ≠ [])
    (hin : slot.inBounds = true) (hlen : slot.recLength.toNat = record.length)
    (hrecord : (data.drop (span.fileOffset + slot.recOffset.toNat)).take record.length = record) :
    Seeds data page span slot record := by
  intro store s
  have hpos := List.length_pos_iff.mpr hne
  have hzero : slot.recLength ≠ 0 := fun h => by
    rw [h] at hlen
    exact absurd hlen hpos.ne
  have hroom := congrArg List.length hrecord
  rw [List.length_take, List.length_drop] at hroom
  have hstart : ¬ data.length ≤ span.fileOffset + slot.recOffset.toNat := by omega
  have hstop : ¬ data.length < span.fileOffset + slot.recOffset.toNat + record.length := by omega
  simp [seedSlot, hin, hzero, hstart, hstop, hlen, hrecord]

/-- Slots that seed records put each under its own number. -/
theorem seedSlots_getElem? {page : Page} {span : PageSpan} {slots : List Slot} {records : List Bytes}
    (h : List.Forall₂ (Seeds data page span) slots records) {n : Nat} (hn : n + slots.length ≤ 2 ^ 16)
    (store : Store) (t : UInt16) :
    ((slots.zipIdx n).foldl (fun store slot => seedSlot data page span store (UInt16.ofNat slot.2) slot.1)
      store)[(page.index, t)]? =
        (if n ≤ t.toNat then records[t.toNat - n]? else none).or store[(page.index, t)]? := by
  induction h generalizing n store with
  | nil => simp
  | @cons slot record slots records hslot hslots ih =>
      rw [List.length_cons] at hn
      have hnat : (UInt16.ofNat n).toNat = n := by rw [UInt16.toNat_ofNat', Nat.mod_eq_of_lt (by omega)]
      rw [List.zipIdx_cons, List.foldl_cons, hslot, ih (by omega), getElem?_insert_eq]
      by_cases heq : t.toNat = n
      · obtain rfl : UInt16.ofNat n = t := UInt16.toNat_inj.mp (hnat.trans heq.symm)
        simp [hnat]
      · have hne : ¬ (page.index, UInt16.ofNat n) = (page.index, t) := fun h =>
          heq (by rw [← (Prod.mk.inj h).2, hnat])
        rw [if_neg hne]
        by_cases hlt : n + 1 ≤ t.toNat
        · obtain ⟨k, hk⟩ : ∃ k, t.toNat - n = k + 1 := ⟨t.toNat - n - 1, by omega⟩
          have hk' : t.toNat - (n + 1) = k := by omega
          rw [if_pos hlt, if_pos (by omega), hk, hk', List.getElem?_cons_succ]
        · rw [if_neg hlt, if_neg (by omega)]

/-- Pages that seed records put each under its own number. -/
theorem seedPages_getElem? {spans : List PageSpan} {pages : List Page} {records : List (List Bytes)}
    {i : Nat} (hindex : ∀ (k : Nat) (page : Page), pages[k]? = some page → page.index.toNat = i + k)
    (hpages : List.Forall₂ (fun page records => ∀ store (t : UInt16),
      (seedPage data spans store page)[(page.index, t)]? = (records[t.toNat]?).or store[(page.index, t)]?)
        pages records) (store : Store) (key : RecordKey) :
    (pages.foldl (seedPage data spans) store)[key]? =
      (if i ≤ key.1.toNat then (records[key.1.toNat - i]?).bind fun records => records[key.2.toNat]?
        else none).or store[key]? := by
  induction hpages generalizing i store with
  | nil => simp
  | @cons page records pages rest hpage hpages ih =>
      have hfirst : page.index.toNat = i := hindex 0 page rfl
      have hrest : ∀ (k : Nat) (page : Page), pages[k]? = some page → page.index.toNat = i + 1 + k :=
        fun k page h => (hindex (k + 1) page h).trans (by omega)
      rw [List.foldl_cons, ih hrest]
      by_cases heq : key.1.toNat = i
      · obtain ⟨number, slot⟩ := key
        obtain rfl : page.index = number := UInt32.toNat_inj.mp (hfirst.trans heq.symm)
        rw [hpage]
        simp [hfirst]
      · rw [seedPage_other fun h => heq (by rw [h, hfirst])]
        by_cases hlt : i + 1 ≤ key.1.toNat
        · obtain ⟨k, hk⟩ : ∃ k, key.1.toNat - i = k + 1 := ⟨key.1.toNat - i - 1, by omega⟩
          have hk' : key.1.toNat - (i + 1) = k := by omega
          rw [if_pos hlt, if_pos (by omega), hk, hk', List.getElem?_cons_succ]
        · rw [if_neg hlt, if_neg (by omega)]

end Bytewright.Minidb
