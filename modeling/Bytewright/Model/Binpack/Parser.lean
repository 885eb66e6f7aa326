import Bytewright.Model.Binpack.RecordParser
import Bytewright.Model.Common.Checksum

/-! The container parser: header, section table, bodies and trailer. -/

namespace Bytewright.Binpack

open Bytewright.Common

structure Options where
  strict : Bool := false
  maxDepth : Nat := 32
  deriving DecidableEq, Repr

def kMagic : Bytes := ascii "BPK1"
/-- The bytes the header CRC covers. -/
def kHeaderBytes : Nat := 12
/-- The header with its CRC. -/
def kHeaderTotal : Nat := 16
def kSectionEntryBytes : Nat := 24
def kTrailerBytes : Nat := 4

/-- Whether a stored CRC is the computed one; in strict mode a mismatch is an error. -/
def verifyCrc {σ : Type} (computed stored : UInt32) (strict : Bool) (offset : Nat)
    (what : String) : Action σ Bool := do
  if computed = stored then return true
  if strict then
    raise .kBadChecksum offset what
  return false

def readHeader (strict : Bool) : Reader Container := do
  let data := (← get).data
  let magic ← readRaw 4
  if magic ≠ kMagic then
    raise .kBadMagic 0 "not a BPK1 container"
  let version ← readU16le
  if version ≠ 1 then
    raise .kBadVersion 4 "unsupported binpack version"
  let flags ← readU16le
  let sectionCount ← readU16le
  let _reserved ← readU16le
  let headerCrcStored ← readU32le
  let headerChecksumOk ←
    verifyCrc (crc32 (data.take kHeaderBytes)) headerCrcStored strict 0 "header crc mismatch"
  return {
    version, flags, sectionCount, headerChecksumOk
    hasMetadata := flags &&& 0x01 ≠ 0
    hasTrailerCrc := flags &&& 0x02 ≠ 0 }

/-- One entry of the section table. -/
structure Entry where
  type : SectionType
  id : UInt16
  flags : UInt16
  offset : UInt32
  length : UInt32
  itemCount : UInt32
  crc32Stored : UInt32
  deriving DecidableEq, Repr

def readEntry : Reader Entry := do
  let rawType ← readU16le
  let some type := SectionType.ofRaw? rawType
    | do raise .kBadType ((← get).pos - 2) "unknown section type"
  let id ← readU16le
  let flags ← readU16le
  let _reserved ← readU16le
  let offset ← readU32le
  let length ← readU32le
  let itemCount ← readU32le
  let crc32Stored ← readU32le
  return { type, id, flags, offset, length, itemCount, crc32Stored }

/-- The whole declared table has to fit in the file before its entries are read. -/
def readTable (sectionCount : UInt16) : Reader (List Entry) := do
  if kHeaderTotal + sectionCount.toNat * kSectionEntryBytes > (← get).size then
    raise .kBadLength kHeaderTotal "section table exceeds file size"
  readTimes readEntry sectionCount.toNat

/-- Check and decode the body an entry points at. -/
def parseSection (opts : Options) (e : Entry) : Reader Section := do
  let r ← get
  let begin_ := e.offset.toNat
  let end_ := e.offset.toNat + e.length.toNat
  if begin_ > r.size ∨ end_ > r.size ∨ end_ < begin_ then
    raise .kBadLength e.offset.toNat "section body out of range"
  let body := (r.data.drop e.offset.toNat).take e.length.toNat
  let bodyChecksumOk ←
    verifyCrc (crc32 body) e.crc32Stored opts.strict e.offset.toNat "section crc mismatch"
  let records ←
    if e.type = .kFree then pure []
    else readWithin body (parseStream opts.maxDepth e.offset.toNat 0)
  return { e with bodyChecksumOk, records }

/-- The key and value of a KEYVAL record. -/
def Record.keyval? (rec : Record) : Option (Bytes × Record) :=
  if rec.tag = .kKeyval then rec.children.head?.map (rec.key, ·) else none

/-- What a METADATA section adds to the metadata view. -/
def Section.metadata (s : Section) : List (Bytes × Record) :=
  if s.type = .kMetadata then s.records.filterMap Record.keyval? else []

def Container.addSection (c : Container) (s : Section) : Container :=
  { c with sections := c.sections ++ [s], metadata := c.metadata ++ s.metadata }

/-- One round of the section loop. -/
def sectionRound (opts : Options) (c : Container) (e : Entry) : Reader Container := do
  return c.addSection (← parseSection opts e)

def checkTrailer (strict : Bool) : Reader Bool := do
  let r ← get
  if r.size < kHeaderTotal + kTrailerBytes then
    raise .kTruncated r.size "trailer crc flagged but file too small"
  let trailerOff := r.size - kTrailerBytes
  let trailerStored ← readWithin (r.data.drop trailerOff) readU32le
  verifyCrc (crc32 (r.data.take trailerOff)) trailerStored strict trailerOff "trailer crc mismatch"

/-- The trailer is there only if the header flags it. -/
def parseTrailer (c : Container) (strict : Bool) : Reader Bool :=
  if c.hasTrailerCrc then checkTrailer strict else return true

def parseContainer (opts : Options) : Reader Container := do
  let c ← readHeader opts.strict
  let entries ← readTable c.sectionCount
  let c ← entries.foldlM (sectionRound opts) c
  let trailerChecksumOk ← parseTrailer c opts.strict
  return { c with
    trailerChecksumOk
    checksumOk := c.headerChecksumOk && trailerChecksumOk && c.sections.all (·.bodyChecksumOk) }

/-- `parse` of a buffer that is there: its guard against a null pointer has no counterpart. -/
def parse (data : Bytes) (opts : Options) : Outcome Container :=
  match parseContainer opts { data } with
  | .ok c _ => .ok c
  | .error e _ => .error e

end Bytewright.Binpack
