import Bytewright.Model.Common.ByteWriter
import Bytewright.Model.Minidb.Btree
import Bytewright.Model.Minidb.Catalog

/-! The builders of the tests: the file header, pages, records and journal entries. -/

namespace Bytewright.Minidb

open Bytewright.Common Bytewright.Library

/-- One round of `make_page`'s layout loop: the directory so far, and where the next record goes. -/
def layRecord (st : Bytes × Nat) (record : Bytes) : Bytes × Nat :=
  (st.1 ++ leBytes 2 st.2 ++ leBytes 2 record.length, st.2 + record.length)

/-- `make_page`: the page header, the slot directory, the records behind it, and zeros up to the page
size. The records have to fit. -/
def makePage (type : PageType) (pageSize overflowNext : UInt16) (records : List Bytes) : Bytes :=
  let slotCount := UInt16.ofNat records.length
  let (directory, freeStart) :=
    records.foldl layRecord ([], kPageHeaderSize + slotCount.toNat * kSlotEntrySize)
  let used := [type, 0] ++ leBytes 2 slotCount.toNat ++ leBytes 2 freeStart ++
    leBytes 2 overflowNext.toNat ++ directory ++ records.flatten
  used ++ List.replicate (pageSize.toNat - used.length) 0

/-- `make_header`: 28 bytes and their CRC, unless another one is given. -/
def makeHeader (pageSize : UInt16) (pageCount rootPage stringTablePage journalOffset flags : UInt32)
    (overrideCrc : Option UInt32) : Bytes :=
  let w := (({} : ByteWriter).putU8 77).putU8 68
  let w := (w.putU8 66).putU8 49
  let w := w.putU16le 1
  let w := w.putU16le pageSize
  let w := w.putU32le pageCount
  let w := w.putU32le rootPage
  let w := w.putU32le stringTablePage
  let w := w.putU32le journalOffset
  let w := w.putU32le flags
  let crc := overrideCrc.getD (crc32 (w.buffer.take 28))
  (w.putU32le crc).buffer

/-- `make_record`: the number of fields and the bytes they were put into. -/
def makeRecord (fieldCount : UInt64) (fields : Bytes) : Bytes :=
  ((({} : ByteWriter).putVarint fieldCount).putBytes fields).buffer

/-- One round of `make_strings_record`. -/
def putStringEntry (w : ByteWriter) (entry : Bytes) : ByteWriter :=
  (w.putVarint (UInt64.ofNat entry.length)).putString entry

/-- `make_strings_record`: the number of strings, and then each behind its length. -/
def makeStringsRecord (entries : List Bytes) : Bytes :=
  (entries.foldl putStringEntry (({} : ByteWriter).putVarint (UInt64.ofNat entries.length))).buffer

/-- A page of `page_size` bytes with no slots: the header, and as much of its body as there is room for. -/
def makeBodyPage (type : PageType) (pageSize overflowNext : UInt16) (body : Bytes) : Bytes :=
  let freeStart := UInt16.ofNat (kPageHeaderSize + body.length)
  let used := [type, 0, 0, 0] ++ leBytes 2 freeStart.toNat ++ leBytes 2 overflowNext.toNat ++
    body.take (pageSize.toNat - kPageHeaderSize)
  used ++ List.replicate (pageSize.toNat - used.length) 0

/-- `make_overflow_page` -/
def makeOverflowPage (pageSize overflowNext : UInt16) (payload : Bytes) : Bytes :=
  makeBodyPage kOverflow pageSize overflowNext payload

/-- One round of the loop of `make_index_page`. -/
def putIndexEntry (w : ByteWriter) (e : IndexEntry) : ByteWriter :=
  let w := (w.putVarint (UInt64.ofNat e.key.length)).putString e.key
  (w.putU32le e.page).putU16le e.slot

/-- `make_index_page`: the number of entries, and each with its key behind the length of the key. -/
def makeIndexPage (pageSize overflowNext : UInt16) (entries : List IndexEntry) : Bytes :=
  let body := entries.foldl putIndexEntry (({} : ByteWriter).putVarint (UInt64.ofNat entries.length))
  makeBodyPage kIndex pageSize overflowNext body.buffer

/-- `put_journal_set`, for an INSERT or an UPDATE. -/
def putJournalSet (w : ByteWriter) (op : JournalOp) (page : UInt32) (slot : UInt16) (record : Bytes) :
    ByteWriter :=
  let w := ((w.putU8 op.byte).putU32le page).putU16le slot
  (w.putVarint (UInt64.ofNat record.length)).putBytes record

/-- `put_journal_delete` -/
def putJournalDelete (w : ByteWriter) (page : UInt32) (slot : UInt16) : ByteWriter :=
  ((w.putU8 JournalOp.kDelete.byte).putU32le page).putU16le slot

/-- `put_journal_op`, for BEGIN, COMMIT and ROLLBACK. -/
def putJournalOp (w : ByteWriter) (op : JournalOp) : ByteWriter := w.putU8 op.byte

end Bytewright.Minidb
