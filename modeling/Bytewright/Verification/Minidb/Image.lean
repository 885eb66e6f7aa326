import Bytewright.Verification.Minidb.Durability
import Bytewright.Verification.Minidb.Fields
import Bytewright.Verification.Minidb.Layout
import Bytewright.Verification.Minidb.SlottedTable

/-! # Stores that are written and opened again

A store put together from rows and journal entries, and what `open` finds in it. -/

namespace Bytewright.Minidb

open Bytewright.Common Bytewright.Library

variable {data : Bytes}

/-! ### Rows and journals -/

/-- The fields of a record whose encoding has a `std::size_t`. -/
structure Row where
  fields : List TypedField
  sized : (recordBytes fields).length < 2 ^ 64

namespace Row

/-- The record as the builders put it together. -/
def bytes (row : Row) : Bytes :=
  makeRecord (UInt64.ofNat row.fields.length) (row.fields.flatMap fieldBytes)

/-- The record that is decoded from it. -/
def record (table : List Bytes) (row : Row) : Record :=
  { fields := row.fields.map (TypedField.field table) }

theorem bytes_eq (row : Row) : row.bytes = recordBytes row.fields := rfl

theorem bytes_ne_nil (row : Row) : row.bytes ≠ [] := by
  have hcount : varintBytes (UInt64.ofNat row.fields.length) ≠ [] := by
    rw [varintBytes]
    split <;> exact List.cons_ne_nil _ _
  rw [bytes_eq, recordBytes]
  exact fun h => hcount (List.append_eq_nil_iff.mp h).1

theorem decode (row : Row) (table : List Bytes) : decodeRecord row.bytes table = .ok (row.record table) := by
  have hcount : row.fields.length < 2 ^ 64 := by
    have hsized := row.sized
    have hfields : row.fields.length ≤ (row.fields.flatMap fieldBytes).length :=
      length_le_flatMap fun f _ => List.cons_ne_nil _ _
    rw [recordBytes, List.length_append] at hsized
    omega
  have hdecode := (decodeRecord_recordBytes table hcount).1 []
  rwa [List.append_nil] at hdecode

end Row

/-- A journal entry as it was meant. -/
inductive Change where
  | begin
  | insert (key : RecordKey) (row : Row)
  | update (key : RecordKey) (row : Row)
  | delete (key : RecordKey)
  | commit
  | rollback

namespace Change

def entry : Change → Entry
  | begin => .begin
  | insert key row => .insert key row.bytes
  | update key row => .update key row.bytes
  | delete key => .delete key
  | commit => .commit
  | rollback => .rollback

/-- The entry is put behind a journal. -/
def put (w : ByteWriter) : Change → ByteWriter
  | begin => putJournalOp w .kBegin
  | insert key row => putJournalSet w .kInsert key.1 key.2 row.bytes
  | update key row => putJournalSet w .kUpdate key.1 key.2 row.bytes
  | delete key => putJournalDelete w key.1 key.2
  | commit => putJournalOp w .kCommit
  | rollback => putJournalOp w .kRollback

theorem put_buffer (w : ByteWriter) (c : Change) : (c.put w).buffer = w.buffer ++ (c.put {}).buffer := by
  cases c <;> simp [put, putJournalOp, putJournalSet, putJournalDelete, ByteWriter.putU8, ByteWriter.putU16le,
    ByteWriter.putU32le, ByteWriter.putVarint, ByteWriter.putBytes]

theorem foldl_put_buffer (w : ByteWriter) (cs : List Change) :
    (cs.foldl put w).buffer = w.buffer ++ (cs.map fun c => (c.put {}).buffer).flatten := by
  induction cs generalizing w with
  | nil => simp
  | cons c cs ih => rw [List.foldl_cons, ih, put_buffer, List.map_cons, List.flatten_cons, List.append_assoc]

theorem encodes (c : Change) : Encodes c.entry (c.put {}).buffer := by
  have hlen : ∀ row : Row, (UInt64.ofNat row.bytes.length).toNat = row.bytes.length := fun row =>
    UInt64.toNat_ofNat_of_lt' row.sized
  have hset : ∀ (op : JournalOp) (key : RecordKey) (row : Row),
      (putJournalSet {} op key.1 key.2 row.bytes).buffer =
        op.byte :: (keyBytes key ++ (varintBytes (UInt64.ofNat row.bytes.length) ++ row.bytes)) := by
    intro op key row
    simp [putJournalSet, ByteWriter.putU8, ByteWriter.putU16le, ByteWriter.putU32le, ByteWriter.putVarint,
      ByteWriter.putBytes, keyBytes]
  cases c with
  | begin => exact .begin
  | commit => exact .commit
  | rollback => exact .rollback
  | delete key => exact .delete key
  | insert key row =>
      rw [put, hset]
      exact .insert key (reads_readVarint _) (hlen row)
  | update key row =>
      rw [put, hset]
      exact .update key (reads_readVarint _) (hlen row)

end Change

/-! ### What a store holds -/

/-- The row under each key. -/
abbrev Rows := RecordKey → Option Row

/-- A mutation of the rows. -/
def Change.apply (rows : Rows) : Change → Rows
  | .insert key row | .update key row => Function.update rows key (some row)
  | .delete key => Function.update rows key none
  | .begin | .commit | .rollback => rows

/-- The changes of `cs` that take effect, in journal order; `before` is what comes before them. -/
def durableChanges (before : List Change) : List Change → List Change
  | [] => []
  | c :: cs =>
    (if fate (before.map Change.entry) (cs.map Change.entry) = .durable then [c] else []) ++
      durableChanges (before ++ [c]) cs

/-- The store has the bytes of the rows. -/
def Represents (store : Store) (rows : Rows) : Prop := ∀ key, store[key]? = (rows key).map Row.bytes

theorem Represents.apply {store : Store} {rows : Rows} (h : Represents store rows) (c : Change) :
    Represents (c.entry.op?.toList.foldl applyCommitted store) (c.apply rows) := by
  have hset : ∀ (key : RecordKey) (row : Row), Represents (store.insert key row.bytes)
      (Function.update rows key (some row)) := fun key row k => by
    rw [getElem?_insert_eq, Function.update_apply]
    by_cases hk : k = key
    · rw [if_pos hk, if_pos hk.symm, Option.map_some]
    · rw [if_neg hk, if_neg (Ne.symm hk), h]
  cases c with
  | begin => exact h
  | commit => exact h
  | rollback => exact h
  | insert key row => exact hset key row
  | update key row => exact hset key row
  | delete key =>
      intro k
      have herase : (store.erase key)[k]? = if key = k then none else store[k]? := by
        rw [Std.ExtTreeMap.getElem?_erase]
        simp only [Std.LawfulEqCmp.compare_eq_iff_eq]
      change (store.erase key)[k]? = ((Function.update rows key none) k).map Row.bytes
      rw [herase, Function.update_apply]
      by_cases hk : k = key
      · rw [if_pos hk, if_pos hk.symm, Option.map_none]
      · rw [if_neg hk, if_neg (Ne.symm hk), h]

/-- The durable mutations of a journal make of a store what its durable changes make of the rows. -/
theorem Represents.durable {store : Store} {rows : Rows} (h : Represents store rows) (before cs : List Change) :
    Represents ((opsWithFate .durable (before.map Change.entry) (cs.map Change.entry)).foldl applyCommitted store)
      ((durableChanges before cs).foldl Change.apply rows) := by
  induction cs generalizing store rows before with
  | nil => exact h
  | cons c cs ih =>
      have hmap : before.map Change.entry ++ [c.entry] = (before ++ [c]).map Change.entry := by simp
      rw [List.map_cons, opsWithFate, durableChanges, List.foldl_append, List.foldl_append, hmap]
      split
      · exact ih (h.apply c) _
      · exact ih h _

/-- A store of rows has records to decode. -/
theorem Represents.decodeRecords {store : Store} {rows : Rows} (h : Represents store rows)
    (table : List Bytes) : ∃ records, decodeRecords store table = .ok records ∧
      ∀ key, records[key]? = (rows key).map (Row.record table) := by
  have hbytes : ∀ e ∈ store.toList, ∃ row : Row, e.2 = row.bytes := by
    rintro ⟨key, bytes⟩ he
    rw [Std.ExtTreeMap.mem_toList_iff_getElem?_eq_some, h, Option.map_eq_some_iff] at he
    obtain ⟨row, -, hrow⟩ := he
    exact ⟨row, hrow.symm⟩
  have hfold : ∀ (l : List (RecordKey × Bytes)) (acc : Std.ExtTreeMap RecordKey Record),
      (∀ e ∈ l, ∃ row : Row, e.2 = row.bytes) → ∃ records,
        (l.foldlM (fun records kv => do
          return records.insertIfNew kv.1 (← decodeRecord kv.2 table)) acc : Outcome _) = .ok records := by
    intro l
    induction l with
    | nil => exact fun acc _ => ⟨acc, rfl⟩
    | cons e l ih =>
        intro acc hl
        obtain ⟨⟨row, hrow⟩, hl⟩ := List.forall_mem_cons.mp hl
        obtain ⟨records, hrecords⟩ := ih (acc.insertIfNew e.1 (row.record table)) hl
        refine ⟨records, ?_⟩
        rw [List.foldlM_cons, hrow, row.decode]
        exact hrecords
  obtain ⟨records, hrecords⟩ := hfold store.toList ∅ hbytes
  refine ⟨records, hrecords, fun key => ?_⟩
  rw [decodeRecords_getElem? hrecords, h]
  cases rows key with
  | none => rfl
  | some row =>
      rw [Option.map_some, Option.bind_some, row.decode]
      rfl

/-! ### Stores -/

/-- The stages behind the pages, put together again. -/
theorem replayJournal_of {hdr : FileHeader} {spans : List PageSpan} {db₀ : Database} {s : ReplayState}
    {records : Std.ExtTreeMap RecordKey Record}
    (hs : (if hdr.journalOffset ≠ 0 ∧ hdr.journalOffset.toNat < data.length then
      replay (seedFromPages data spans db₀.pages) (data.drop hdr.journalOffset.toNat)
    else .ok { committed := seedFromPages data spans db₀.pages }) = .ok s)
    (hrecords : decodeRecords s.committed db₀.stringTable = .ok records) :
    replayJournal data hdr spans db₀ = .ok { db₀ with
      hasJournal := db₀.hasJournal || hdr.journalOffset ≠ 0
      committedOps := s.committedOps
      rolledBackOps := s.rolledBackOps
      records } := by
  rw [replayJournal]
  dsimp only
  split at hs
  · next hjournal =>
    rw [if_pos hjournal, hs]
    change decodeRecords _ _ >>= _ = _
    rw [hrecords]
    rfl
  · next hnone =>
    rw [if_neg hnone, hs]
    change decodeRecords _ _ >>= _ = _
    rw [hrecords]
    rfl

/-- The stages of `openDb`, one after the other. -/
theorem openDb_of {opts : Options} {hdr : FileHeader} {r : ByteReader} {spans : List PageSpan} {pages : List Page}
    {stringTable : List Bytes} (hheader : parseHeader opts.strict { data } = .ok hdr r)
    (hpages : parsePages data hdr = .ok (spans, pages))
    (htable : parseStringTable data hdr spans pages = .ok stringTable) :
    openDb data opts = replayJournal data hdr spans {
      version := hdr.version
      pageSize := hdr.pageSize
      pageCount := hdr.pageCount
      rootPage := hdr.rootPage
      stringTablePage := hdr.stringTablePage
      journalOffset := hdr.journalOffset
      flags := hdr.flags
      checksumOk := hdr.checksumOk
      pages
      stringTable } := by
  rw [openDb, hheader]
  dsimp only
  rw [hpages]
  change parseStringTable _ _ _ _ >>= _ = _
  rw [htable]
  rfl

/-- A page to be written: a DATA page of rows, or the image of another page. -/
inductive PageSpec where
  | data (overflowNext : UInt16) (rows : List Row)
  | raw (image : Bytes)

namespace PageSpec

def rows : PageSpec → List Row
  | .data _ rows => rows
  | .raw _ => []

def image (pageSize : UInt16) : PageSpec → Bytes
  | .data overflowNext rows => makePage kData pageSize overflowNext (rows.map Row.bytes)
  | .raw image => image

/-- Rows have to fit into their page. -/
def Fits (pageSize : UInt16) : PageSpec → Prop
  | .data _ rows => Minidb.Fits pageSize (rows.map Row.bytes)
  | .raw image => image.length = pageSize.toNat ∧ image.head? ≠ some kData

variable {pageSize : UInt16}

theorem image_length {page : PageSpec} (h : page.Fits pageSize) :
    (page.image pageSize).length = pageSize.toNat := by
  cases page with
  | data overflowNext rows =>
      obtain ⟨header, padding, -, hlength, -⟩ := makePage_records h kData overflowNext
      exact hlength
  | raw image => exact h.1

/-- Pages of one size stand one behind the other. -/
theorem flatMap_image_drop {pages : List PageSpec} (h : ∀ page ∈ pages, page.Fits pageSize) (k : Nat) :
    (pages.flatMap (image pageSize)).drop (k * pageSize.toNat) =
      (pages.drop k).flatMap (image pageSize) := by
  induction k generalizing pages with
  | zero => rw [Nat.zero_mul, List.drop_zero, List.drop_zero]
  | succ k ih =>
      cases pages with
      | nil => simp
      | cons page pages =>
          obtain ⟨hpage, hpages⟩ := List.forall_mem_cons.mp h
          rw [List.flatMap_cons, Nat.succ_mul, Nat.add_comm, ← List.drop_drop,
            List.drop_left' (image_length hpage), ih hpages, List.drop_succ_cons]

theorem flatMap_image_length {pages : List PageSpec} (h : ∀ page ∈ pages, page.Fits pageSize) :
    (pages.flatMap (image pageSize)).length = pages.length * pageSize.toNat := by
  induction pages with
  | nil => simp
  | cons page pages ih =>
      obtain ⟨hpage, hpages⟩ := List.forall_mem_cons.mp h
      rw [List.flatMap_cons, List.length_append, image_length hpage, ih hpages, List.length_cons,
        Nat.succ_mul, Nat.add_comm]

/-- A page that was written seeds its rows. -/
theorem seedPage_rows {page : PageSpec} (h : page.Fits pageSize) (hsize : kPageHeaderSize < pageSize.toNat)
    {off : Nat} (himage : page.image pageSize <+: data.drop off) {spans : List PageSpan}
    {index : UInt32} (hspan : spans[index.toNat]? = some { fileOffset := off, length := pageSize.toNat })
    {parsed : Page} (hparse : parsePage data index pageSize.toNat off pageSize.toNat = .ok parsed)
    (store : Store) (t : UInt16) : (seedPage data spans store parsed)[(parsed.index, t)]? =
      ((page.rows.map Row.bytes)[t.toNat]?).or store[(parsed.index, t)]? := by
  have hslice := (List.prefix_iff_eq_take.mp himage).symm
  rw [image_length h] at hslice
  have hindex := (parsePage_at hparse).1
  cases page with
  | raw image =>
      cases image with
      | nil =>
          have hzero : 0 = pageSize.toNat := h.1
          omega
      | cons b bs =>
          have htype := parsePage_type hparse hsize.le hslice
          have hother : parsed.type ≠ kData := fun heq => h.2 (by rw [← heq, htype]; rfl)
          rw [seedPage, if_pos hother]
          rfl
  | data overflowNext rows =>
      obtain ⟨header, padding, -, -, hbytes⟩ := makePage_records h kData overflowNext
      have htype := parsePage_type hparse hsize.le (hslice.trans hbytes)
      obtain ⟨hlength, hslots⟩ := slots_of_makePage h himage hparse
      have hall : List.Forall₂ (Seeds data parsed { fileOffset := off, length := pageSize.toNat }) parsed.slots
          (rows.map Row.bytes) := by
        rw [List.forall₂_iff_get]
        refine ⟨hlength, fun s hs hs' => ?_⟩
        obtain ⟨slot, hslot, hin, hlen, hrecord⟩ := hslots s _ (List.getElem?_eq_getElem hs')
        obtain ⟨row, -, hrow⟩ := List.mem_map.mp (List.getElem_mem hs')
        obtain rfl : parsed.slots[s] = slot := Option.some.inj ((List.getElem?_eq_getElem hs).symm.trans hslot)
        exact seeds_of_slot (fun hnil => row.bytes_ne_nil (hrow.trans hnil)) hin hlen hrecord
      have hcount : 0 + parsed.slots.length ≤ 2 ^ 16 := by
        have hfits : Minidb.Fits pageSize (rows.map Row.bytes) := h
        have hbound := pageSize.toNat_lt
        rw [Minidb.Fits, kSlotEntrySize] at hfits
        omega
      rw [seedPage, if_neg (not_not.mpr htype), hindex, hspan, ← hindex]
      dsimp only
      rw [seedSlots_getElem? hall hcount, if_pos (Nat.zero_le _), Nat.sub_zero]
      rfl

end PageSpec

/-- A store before it is written. -/
structure StoreSpec where
  pageSize : UInt16
  rootPage : UInt32 := 0
  stringTablePage : UInt32 := kNoStringTable
  flags : UInt32 := 0
  pages : List PageSpec
  journal : Option (List Change) := none
  sized : kMinPageSize ≤ pageSize ∧ pageSize ≤ kMaxPageSize ∧ pageSize % kPageSizeAlign = 0
  fits : ∀ page ∈ pages, page.Fits pageSize
  /-- The journal starts where the header can say so. -/
  small : kHeaderSize + pages.length * pageSize.toNat < 2 ^ 32

namespace StoreSpec

/-- Where the journal begins, if there is one. -/
def journalStart (spec : StoreSpec) : Nat := kHeaderSize + spec.pages.length * spec.pageSize.toNat

def header (spec : StoreSpec) : Bytes :=
  makeHeader spec.pageSize (UInt32.ofNat spec.pages.length) spec.rootPage spec.stringTablePage
    (if spec.journal.isSome then UInt32.ofNat spec.journalStart else 0) spec.flags none

/-- The file: the header, the pages, and the journal. -/
def image (spec : StoreSpec) : Bytes :=
  spec.header ++ spec.pages.flatMap (PageSpec.image spec.pageSize) ++
    ((spec.journal.getD []).foldl Change.put {}).buffer

/-- The rows in the pages. -/
def resident (spec : StoreSpec) : Rows := fun key =>
  spec.pages[key.1.toNat]?.bind fun page => page.rows[key.2.toNat]?

/-- The rows in the pages, with what the journal makes durable applied to them. -/
def rows (spec : StoreSpec) : Rows :=
  (durableChanges [] (spec.journal.getD [])).foldl Change.apply spec.resident

variable (spec : StoreSpec)

theorem image_eq : spec.image = spec.header ++ (spec.pages.flatMap (PageSpec.image spec.pageSize) ++
    ((spec.journal.getD []).foldl Change.put {}).buffer) :=
  List.append_assoc ..

theorem header_length : spec.header.length = kHeaderSize := by
  rw [header, makeHeader_eq, List.length_append, headerFront_length, leBytes_length]
  rfl

theorem image_drop_page {k : Nat} {page : PageSpec} (h : spec.pages[k]? = some page) :
    page.image spec.pageSize <+: spec.image.drop (kHeaderSize + k * spec.pageSize.toNat) := by
  obtain ⟨hk, rfl⟩ := List.getElem?_eq_some_iff.mp h
  have hle : k * spec.pageSize.toNat ≤ (spec.pages.flatMap (PageSpec.image spec.pageSize)).length := by
    rw [PageSpec.flatMap_image_length spec.fits]
    exact Nat.mul_le_mul_right _ hk.le
  rw [image_eq, ← List.drop_drop, List.drop_left' spec.header_length, List.drop_append_of_le_length hle,
    PageSpec.flatMap_image_drop spec.fits, List.drop_eq_getElem_cons hk, List.flatMap_cons, List.append_assoc]
  exact List.prefix_append ..

theorem image_drop_journal :
    spec.image.drop spec.journalStart = ((spec.journal.getD []).foldl Change.put {}).buffer := by
  rw [image_eq, journalStart, ← List.drop_drop, List.drop_left' spec.header_length,
    List.drop_left' (PageSpec.flatMap_image_length spec.fits)]

theorem image_length : spec.image.length =
    spec.journalStart + ((spec.journal.getD []).foldl Change.put {}).buffer.length := by
  rw [image_eq, List.length_append, List.length_append, header_length,
    PageSpec.flatMap_image_length spec.fits, journalStart, Nat.add_assoc]

theorem pageSize_pos : kPageHeaderSize < spec.pageSize.toNat :=
  Nat.lt_of_lt_of_le (by decide) (UInt16.le_iff_toNat_le.mp spec.sized.1)

theorem pages_lt : spec.pages.length < 2 ^ 32 := by
  have hsmall := spec.small
  have hle : spec.pages.length * 1 ≤ spec.pages.length * spec.pageSize.toNat :=
    Nat.mul_le_mul_left _ (Nat.lt_of_le_of_lt (Nat.zero_le _) spec.pageSize_pos)
  omega

theorem image_room {k : Nat} (hk : k < spec.pages.length) :
    kHeaderSize + k * spec.pageSize.toNat + spec.pageSize.toNat ≤ spec.image.length := by
  have hle := Nat.mul_le_mul_right spec.pageSize.toNat (Nat.succ_le_of_lt hk)
  rw [Nat.succ_mul] at hle
  rw [image_length, journalStart]
  omega

theorem toNat_number {k : Nat} (hk : k < spec.pages.length) : (UInt32.ofNat k).toNat = k := by
  rw [UInt32.toNat_ofNat', Nat.mod_eq_of_lt (hk.trans spec.pages_lt)]

section

variable {spec} {spans : List PageSpan} {pages : List Page}
  (h : parsePagesFrom spec.image spec.pageSize.toNat spec.pages.length 0 = .ok (spans, pages))

include h

theorem length_pages : pages.length = spec.pages.length := by
  apply Nat.le_antisymm (parsePagesFrom_spans h).2.1
  by_contra hlt
  have hroom := spec.image_room (Nat.lt_of_not_le hlt)
  have hpos := spec.pageSize_pos
  exact Nat.lt_irrefl _ (lt_length_of_parsePagesFrom h (Nat.lt_of_not_le hlt) (by rw [Nat.zero_add]; omega))

/-- Every page is parsed off its own image. -/
theorem parsed_page {k : Nat} (hk : k < spec.pages.length) :
    spans[k]? = some { fileOffset := kHeaderSize + k * spec.pageSize.toNat, length := spec.pageSize.toNat } ∧
    ∃ page, pages[k]? = some page ∧ parsePage spec.image (UInt32.ofNat k) spec.pageSize.toNat
      (kHeaderSize + k * spec.pageSize.toNat) spec.pageSize.toNat = .ok page := by
  have hpos := spec.pageSize_pos
  have hroom := spec.image_room hk
  have hparsed := parsePagesFrom_getElem? h hk (by omega) (by rwa [Nat.zero_add])
  rwa [Nat.zero_add] at hparsed

/-- The rows of the pages are seeded. -/
theorem seed_of_image : Represents (seedFromPages spec.image spans pages) spec.resident := by
  intro key
  have hparsed : ∀ (k : Nat) (page : Page), pages[k]? = some page → ∃ hk : k < spec.pages.length,
      parsePage spec.image (UInt32.ofNat k) spec.pageSize.toNat
        (kHeaderSize + k * spec.pageSize.toNat) spec.pageSize.toNat = .ok page := by
    intro k page hpage
    have hk := (List.getElem?_eq_some_iff.mp hpage).1
    rw [length_pages h] at hk
    obtain ⟨-, page', hpage', hparse⟩ := parsed_page h hk
    obtain rfl : page = page' := Option.some.inj (hpage.symm.trans hpage')
    exact ⟨hk, hparse⟩
  have hindex : ∀ (k : Nat) (page : Page), pages[k]? = some page → page.index.toNat = 0 + k := by
    intro k page hpage
    obtain ⟨hk, hparse⟩ := hparsed k page hpage
    rw [(parsePage_at hparse).1, spec.toNat_number hk, Nat.zero_add]
  have hall : List.Forall₂ (fun page records => ∀ store (t : UInt16),
      (seedPage spec.image spans store page)[(page.index, t)]? =
        (records[t.toNat]?).or store[(page.index, t)]?)
      pages (spec.pages.map fun page => page.rows.map Row.bytes) := by
    rw [List.forall₂_iff_get]
    refine ⟨by rw [length_pages h, List.length_map], fun k hk hk' => ?_⟩
    obtain ⟨hk', hparse⟩ := hparsed k _ (List.getElem?_eq_getElem hk)
    have hspan := (parsed_page h hk').1
    intro store t
    have hseed := PageSpec.seedPage_rows (spec.fits _ (List.getElem_mem hk')) spec.pageSize_pos
      (spec.image_drop_page (List.getElem?_eq_getElem hk')) (by rw [spec.toNat_number hk']; exact hspan)
      hparse store t
    rw [List.get_eq_getElem, List.get_eq_getElem, List.getElem_map]
    exact hseed
  rw [seedFromPages, seedPages_getElem? hindex hall, if_pos (Nat.zero_le _), Nat.sub_zero, List.getElem?_map,
    Std.ExtTreeMap.getElem?_empty, Option.or_none, resident]
  cases spec.pages[key.1.toNat]? with
  | none => rfl
  | some page => simp

end

theorem headerOf_image : headerOf spec.image =
    { version := kSupportedVersion
      pageSize := spec.pageSize
      pageCount := UInt32.ofNat spec.pages.length
      rootPage := spec.rootPage
      stringTablePage := spec.stringTablePage
      journalOffset := if spec.journal.isSome then UInt32.ofNat spec.journalStart else 0
      flags := spec.flags
      headerCrc32 := (headerOf spec.image).headerCrc32
      checksumOk := true } := by
  rw [image_eq, header, headerOf_makeHeader]

/-- What the replay makes of the rows in the pages. -/
theorem replay_of_image {seed : Store} (h : Represents seed spec.resident) :
    ∃ s, (if (headerOf spec.image).journalOffset ≠ 0 ∧
        (headerOf spec.image).journalOffset.toNat < spec.image.length then
      replay seed (spec.image.drop (headerOf spec.image).journalOffset.toNat)
    else .ok { committed := seed }) = .ok s ∧ Represents s.committed spec.rows := by
  have hrows : spec.rows = (durableChanges [] (spec.journal.getD [])).foldl Change.apply spec.resident := rfl
  have hlength := spec.image_length
  have hdrop := spec.image_drop_journal
  rw [headerOf_image]
  dsimp only
  cases hjournal : spec.journal with
  | none =>
      rw [hjournal] at hrows
      rw [hrows]
      exact ⟨{ committed := seed }, rfl, h⟩
  | some cs =>
      rw [hjournal] at hrows hlength hdrop
      rw [Option.getD_some] at hrows hlength hdrop
      rw [Change.foldl_put_buffer] at hdrop hlength
      have hencodes : List.Forall₂ Encodes (cs.map Change.entry) (cs.map fun c => (c.put {}).buffer) := by
        rw [List.forall₂_map_left_iff, List.forall₂_map_right_iff, List.forall₂_same]
        exact fun c _ => c.encodes
      have hsmall : spec.journalStart < 2 ^ 32 := spec.small
      have hstart : (UInt32.ofNat spec.journalStart).toNat = spec.journalStart := by
        rw [UInt32.toNat_ofNat', Nat.mod_eq_of_lt hsmall]
      have hnonzero : UInt32.ofNat spec.journalStart ≠ 0 := fun hzero => by
        rw [hzero] at hstart
        have hpos : kHeaderSize ≤ spec.journalStart := Nat.le_add_right ..
        rw [← hstart] at hpos
        exact absurd hpos (by decide)
      have hrun := replay_entries seed hencodes stops_nil
      have hcommitted := (ReplayState.run_accounts (s := { committed := seed }) [] rfl (cs.map Change.entry)).1
      rw [List.append_nil] at hrun
      rw [ReplayState.account_outside _ _ rfl] at hcommitted
      rw [hrows, if_pos Option.isSome_some, hstart]
      by_cases hlt : spec.journalStart < spec.image.length
      · rw [if_pos ⟨hnonzero, hlt⟩, hdrop]
        refine ⟨_, hrun, ?_⟩
        rw [hcommitted]
        exact h.durable [] cs
      · -- no entry was put behind the pages
        have hnone := length_le_flatten hencodes
        rw [List.nil_append] at hlength
        rw [List.length_map] at hnone
        obtain rfl : cs = [] := List.length_eq_zero_iff.mp (by omega)
        rw [if_neg fun hjournal => hlt hjournal.2]
        exact ⟨{ committed := seed }, rfl, h⟩

/-- A store that is written and opened again has exactly its rows. -/
theorem openDb_rows (opts : Options) : ∃ db, openDb spec.image opts = .ok db ∧ db.checksumOk = true ∧
    db.pages.length = spec.pages.length ∧
    ∀ key, db.records[key]? = (spec.rows key).map (Row.record db.stringTable) := by
  have hheaderOf := spec.headerOf_image
  have hsize : u16At spec.image 6 = spec.pageSize := congrArg FileHeader.pageSize hheaderOf
  have hmagic : ∃ rest, spec.image = kMagic ++ rest := by
    rw [image_eq, header, makeHeader_eq, headerFront]
    simp only [List.append_assoc]
    exact ⟨_, rfl⟩
  have hlength := spec.image_length
  obtain ⟨rest, hmagic⟩ := hmagic
  obtain ⟨r, hheader⟩ := parseHeader_ok opts.strict (by rw [hlength, journalStart]; omega) hmagic
    (congrArg FileHeader.version hheaderOf) (by rw [hsize]; exact spec.sized)
    (beq_iff_eq.mp (congrArg FileHeader.checksumOk hheaderOf))
  obtain ⟨spans, pages, hpages⟩ := parsePagesFrom_ok spec.image spec.pageSize.toNat spec.pages.length 0
  obtain ⟨table, htable⟩ := parseStringTable_ok spec.image (headerOf spec.image) spans pages
  obtain ⟨s, hjournal, hrows⟩ := spec.replay_of_image (seed_of_image hpages)
  obtain ⟨records, hrecords, hfound⟩ := hrows.decodeRecords table
  have hparsed : parsePages spec.image (headerOf spec.image) = .ok (spans, pages) := by
    rw [parsePages, hheaderOf]
    dsimp only
    rw [UInt32.toNat_ofNat', Nat.mod_eq_of_lt spec.pages_lt, hpages]
  have hchecksum := congrArg FileHeader.checksumOk hheaderOf
  have hcount := length_pages hpages
  generalize headerOf spec.image = hdr at *
  generalize spec.image = data at *
  exact ⟨_, (openDb_of hheader hparsed htable).trans (replayJournal_of hjournal hrecords), hchecksum, hcount, hfound⟩

end StoreSpec

end Bytewright.Minidb
