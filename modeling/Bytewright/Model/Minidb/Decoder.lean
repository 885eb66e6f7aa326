import Bytewright.Model.Common.ByteReader
import Bytewright.Model.Common.Checksum
import Bytewright.Model.Minidb.Model

/-! The first three stages of `open`: the header, the pages and the string table; and the record
decoder the fourth one ends with. -/

namespace Bytewright.Minidb

open Bytewright.Common

/-! ### The file header -/

def kMagic : Bytes := ascii "MDB1"
def kSupportedVersion : UInt16 := 1
def kHeaderSize : Nat := 32
def kHeaderCrcCovered : Nat := 28
def kMinPageSize : UInt16 := 64
def kMaxPageSize : UInt16 := 8192
def kPageSizeAlign : UInt16 := 16
def kNoStringTable : UInt32 := 0xFFFFFFFF

structure FileHeader where
  version : UInt16 := 0
  pageSize : UInt16 := 0
  pageCount : UInt32 := 0
  rootPage : UInt32 := 0
  stringTablePage : UInt32 := kNoStringTable
  journalOffset : UInt32 := 0
  flags : UInt32 := 0
  headerCrc32 : UInt32 := 0
  checksumOk : Bool := true
  deriving DecidableEq, Repr

def parseHeader (strict : Bool) : Reader FileHeader := do
  require kHeaderSize
  let headerOff := (← get).pos
  if !(← matchBytes kMagic) then
    raise .kBadMagic headerOff "expected MDB1 magic"
  skip kMagic.length
  let version ← readU16le
  if version ≠ kSupportedVersion then
    raise .kBadVersion (headerOff + 4) "unsupported MDB1 version"
  let pageSize ← readU16le
  if pageSize < kMinPageSize ∨ pageSize > kMaxPageSize ∨ pageSize % kPageSizeAlign ≠ 0 then
    raise .kBadLength (headerOff + 6) "page_size out of range or misaligned"
  let pageCount ← readU32le
  let rootPage ← readU32le
  let stringTablePage ← readU32le
  let journalOffset ← readU32le
  let flags ← readU32le
  let headerCrc32 ← readU32le
  let covered ← bytesAt headerOff kHeaderCrcCovered
  let checksumOk := crc32 covered == headerCrc32
  if !checksumOk && strict then
    raise .kBadChecksum (headerOff + 28) "header CRC mismatch"
  return { version, pageSize, pageCount, rootPage, stringTablePage, journalOffset, flags,
           headerCrc32, checksumOk }

/-! ### Pages -/

def kPageHeaderSize : Nat := 8
def kSlotEntrySize : Nat := 4

structure PageSpan where
  fileOffset : Nat := 0
  length : Nat := 0
  deriving DecidableEq, Repr

/-- One slot directory entry, checked against the declared page. -/
def parseSlot (pageSize : Nat) : Reader Slot := do
  let recOffset ← readU16le
  let recLength ← readU16le
  let stop := recOffset.toNat + recLength.toNat
  return { recOffset, recLength
           inBounds := kPageHeaderSize ≤ recOffset.toNat && stop ≤ pageSize && recOffset.toNat ≤ stop }

def parseSlots (pageSize : Nat) : (count : Nat) → Reader (List Slot)
  | 0 => return []
  | count + 1 => do
    let slot ← parseSlot pageSize
    return slot :: (← parseSlots pageSize count)

/-- A page whose header is there, read off the `pageLen` bytes that are available of it. -/
def parsePageBody (index : UInt32) (pageSize pageLen : Nat) : Reader Page := do
  let type ← readU8
  let flags ← readU8
  let slotCount ← readU16le
  let freeStart ← readU16le
  let overflowNext ← readU16le
  let clamped := decide (kPageHeaderSize + slotCount.toNat * kSlotEntrySize > pageLen)
  let room := if pageLen > kPageHeaderSize then pageLen - kPageHeaderSize else 0
  let slots ← parseSlots pageSize (if clamped then room / kSlotEntrySize else slotCount.toNat)
  return { index, type, flags, slotCount, freeStart, overflowNext, slots
           truncated := decide (pageLen < pageSize) || clamped }

def parsePage (data : Bytes) (index : UInt32) (pageSize pageOff pageLen : Nat) : Outcome Page :=
  if pageLen < kPageHeaderSize then .ok { index, truncated := true }
  else match parsePageBody index pageSize pageLen { data := (data.drop pageOff).take pageLen } with
    | .ok page _ => .ok page
    | .error e _ => .error e

/-- The page walk over the last `left` pages of the header's count, up to the end of the buffer. -/
def parsePagesFrom (data : Bytes) (pageSize : Nat) :
    (left i : Nat) → Outcome (List PageSpan × List Page)
  | 0, _ => .ok ([], [])
  | left + 1, i =>
    let pageOff := kHeaderSize + i * pageSize
    if pageOff ≥ data.length then .ok ([], [])
    else do
      let avail := data.length - pageOff
      let pageLen := if avail < pageSize then avail else pageSize
      let page ← parsePage data (UInt32.ofNat i) pageSize pageOff pageLen
      let (spans, pages) ← parsePagesFrom data pageSize left (i + 1)
      return ({ fileOffset := pageOff, length := pageLen } :: spans, page :: pages)

def parsePages (data : Bytes) (hdr : FileHeader) : Outcome (List PageSpan × List Page) :=
  parsePagesFrom data hdr.pageSize.toNat hdr.pageCount.toNat 0

/-! ### The string table -/

def readStringEntry : Reader Bytes := do
  let len ← readVarint
  require len.toNat
  readString len.toNat

/-- The entries that decode cleanly: an exception ends the table, and is caught. -/
def stringEntries : (count : Nat) → ByteReader → Outcome (List Bytes)
  | 0, _ => .ok []
  | count + 1, r =>
    match readStringEntry r with
    | .ok s r => do return s :: (← stringEntries count r)
    | .error (.thrown _) _ => .ok []
    | .error e _ => .error e

def stringTableBody (r : ByteReader) : Outcome (List Bytes) :=
  match readVarint r with
  | .ok entryCount r => stringEntries entryCount.toNat r
  | .error (.thrown _) _ => .ok []
  | .error e _ => .error e

def parseStringTable (data : Bytes) (hdr : FileHeader) (spans : List PageSpan) (pages : List Page) :
    Outcome (List Bytes) :=
  if hdr.stringTablePage = kNoStringTable then .ok []
  else match spans[hdr.stringTablePage.toNat]?, pages[hdr.stringTablePage.toNat]? with
    | some span, some page =>
      if page.type ≠ kStrings then .ok []
      else if span.length ≤ kPageHeaderSize then .ok []
      else stringTableBody
        { data := (data.drop (span.fileOffset + kPageHeaderSize)).take (span.length - kPageHeaderSize) }
    | _, _ => .ok []

/-! ### Records -/

def readLenprefixed : Reader Bytes := do
  let len ← readVarint
  require len.toNat
  readBytes len.toNat

def decodeField (stringTable : List Bytes) : Reader Field := do
  let fieldOff := (← get).pos
  let tag ← readU8
  match FieldType.ofByte? tag with
  | some .kNull => return { type := .kNull }
  | some .kBool => return { type := .kBool, b := (← readU8) ≠ 0 }
  | some .kInt => return { type := .kInt, i64 := ← readSvarint }
  | some .kUint => return { type := .kUint, u64 := ← readVarint }
  | some .kFloat => return { type := .kFloat, f64 := ← readU64le }
  | some .kStringRef =>
    let refId ← readVarint
    match stringTable[refId.toNat]? with
    | some str => return { type := .kStringRef, refId, str, refResolved := true }
    | none => return { type := .kStringRef, refId, refResolved := false }
  | some .kInlineString => return { type := .kInlineString, str := ← readLenprefixed }
  | some .kBlob => return { type := .kBlob, blob := ← readLenprefixed }
  | none => raise .kBadType fieldOff "unknown minidb field type"

def decodeFields (stringTable : List Bytes) : (count : Nat) → Reader (List Field)
  | 0 => return []
  | count + 1 => do
    let field ← decodeField stringTable
    return field :: (← decodeFields stringTable count)

def decodeRecord (record : Bytes) (stringTable : List Bytes) : Outcome Record :=
  let body : Reader Record := do
    let fieldCount ← readVarint
    return { fields := ← decodeFields stringTable fieldCount.toNat }
  match body { data := record } with
  | .ok r _ => .ok r
  | .error e _ => .error e

end Bytewright.Minidb
