import Bytewright.Model.Binpack.Model
import Bytewright.Model.Common.ByteWriter
import Bytewright.Model.Common.Checksum

/-! The container builder: sections and record specs into the bytes of a file. -/

namespace Bytewright.Binpack

open Bytewright.Common

/-- A record to be encoded: `tag` selects which of the other members count. -/
structure RecordSpec where
  tag : RecordTag
  group : Bool := false
  i64 : Int64 := 0
  u64 : UInt64 := 0
  f64 : UInt64 := 0
  str : Bytes := []
  blob : Bytes := []
  key : Bytes := []
  children : List RecordSpec := []
  deriving Repr

/-- A record's header, then the payload encoded for it. -/
def putRecord (w : ByteWriter) (tag : RecordTag) (group : Bool) (payload : Bytes) : ByteWriter :=
  w |>.putU8 tag.byte
    |>.putU8 (if group then 0x01 else 0x00)
    |>.putVarint (UInt64.ofNat payload.length)
    |>.putBytes payload

mutual

def encodePayloadInto (w : ByteWriter) : RecordSpec → ByteWriter
  | ⟨tag, _, i64, u64, f64, str, blob, key, children⟩ =>
    match tag with
    | .kInt => w.putSvarint i64
    | .kUint => w.putVarint u64
    | .kFloat => w.putU64le f64
    | .kString => w.putString str
    | .kBlob => w.putBytes blob
    | .kArray => encodeRecordsInto (w.putVarint (UInt64.ofNat children.length)) children
    | .kGroup => encodeRecordsInto w children
    | .kKeyval => encodeFrontInto ((w.putVarint (UInt64.ofNat key.length)).putString key) children

/-- The loop over the children of a container, or over the records of a section. -/
def encodeRecordsInto (w : ByteWriter) : List RecordSpec → ByteWriter
  | [] => w
  | child :: children =>
    encodeRecordsInto
      (putRecord w child.tag child.group (encodePayloadInto {} child).buffer) children

/-- The value of a KEYVAL: its first child, if it has one. -/
def encodeFrontInto (w : ByteWriter) : List RecordSpec → ByteWriter
  | [] => w
  | value :: _ => putRecord w value.tag value.group (encodePayloadInto {} value).buffer

end

def encodeRecordPayload (rec : RecordSpec) : Bytes := (encodePayloadInto {} rec).buffer

def encodeRecord (rec : RecordSpec) : Bytes :=
  (putRecord {} rec.tag rec.group (encodeRecordPayload rec)).buffer

structure SectionSpec where
  type : SectionType := .kData
  id : UInt16 := 0
  flags : UInt16 := 0
  itemCount : UInt32 := 0
  records : List RecordSpec := []
  deriving Repr

structure Builder where
  version : UInt16 := 1
  hasMetadata : Bool := false
  hasTrailerCrc : Bool := false
  sections : List SectionSpec := []
  /-- Which sections had an explicit `set_item_count`. -/
  itemCountExplicit : List Bool := []
  parallel : itemCountExplicit.length = sections.length := by rfl
  deriving Repr

/-- The body bytes of a section; FREE sections have none. -/
def SectionSpec.body (s : SectionSpec) : Bytes :=
  if s.type = .kFree then [] else (encodeRecordsInto {} s.records).buffer

/-- The item count written: the explicit one, or else the number of top-level records. -/
def SectionSpec.declaredCount (s : SectionSpec) (explicit : Bool) : UInt32 :=
  if explicit then s.itemCount else UInt32.ofNat s.records.length

namespace Builder

/-- A change to the last section, of which `add_section` returns a reference. -/
def updateBack (b : Builder) (f : SectionSpec → SectionSpec) : Builder :=
  { b with
    sections := b.sections.modify (b.sections.length - 1) f
    parallel := by rw [List.length_modify, b.parallel] }

def addSection (b : Builder) (type : SectionType) (id : UInt16 := 0) (flags : UInt16 := 0) :
    Builder :=
  { b with
    sections := b.sections ++ [{ type, id, flags }]
    itemCountExplicit := b.itemCountExplicit ++ [false]
    parallel := by rw [List.length_append, List.length_append, b.parallel]; rfl }

/-- Does nothing when there is no section. -/
def addRecord (b : Builder) (rec : RecordSpec) : Builder :=
  b.updateBack fun s => { s with records := s.records ++ [rec] }

def setItemCount (b : Builder) (n : UInt32) : Builder :=
  let b := b.updateBack fun s => { s with itemCount := n }
  { b with
    itemCountExplicit := b.itemCountExplicit.set (b.sections.length - 1) true
    parallel := by rw [List.length_set, b.parallel] }

def flags (b : Builder) : UInt16 :=
  let flags : UInt16 := if b.hasMetadata then 0 ||| 0x01 else 0
  if b.hasTrailerCrc then flags ||| 0x02 else flags

/-- The file header and its CRC. -/
def putHeader (b : Builder) (w : ByteWriter) : ByteWriter :=
  let w := w
    |>.putBytes (ascii "BPK1")
    |>.putU16le b.version
    |>.putU16le b.flags
    |>.putU16le (UInt16.ofNat b.sections.length)
    |>.putU16le 0
  w.putU32le (crc32 (w.buffer.take 12))

end Builder

/-- One round of the table loop; the new slot, where the body's offset goes, joins `slots`. -/
def putTableEntry (st : List Nat × ByteWriter) (s : SectionSpec × Bool) : List Nat × ByteWriter :=
  let body := s.1.body
  let w := st.2
    |>.putU16le s.1.type.raw
    |>.putU16le s.1.id
    |>.putU16le s.1.flags
    |>.putU16le 0
  let (slot, w) := w.reserveU32le
  let w := w
    |>.putU32le (UInt32.ofNat body.length)
    |>.putU32le (s.1.declaredCount s.2)
    |>.putU32le (crc32 body)
  (st.1 ++ [slot], w)

/-- One round of the body loop: patch the offset, then append the body. -/
def putBody (w : ByteWriter) (slot : Nat × Bytes) : ByteWriter :=
  (w.patchU32le slot.1 (UInt32.ofNat w.size)).putBytes slot.2

def Builder.build (b : Builder) : Bytes :=
  let w := b.putHeader {}
  let (offsetSlots, w) := (b.sections.zip b.itemCountExplicit).foldl putTableEntry ([], w)
  let w := (offsetSlots.zip (b.sections.map SectionSpec.body)).foldl putBody w
  let w := if b.hasTrailerCrc then w.putU32le (crc32 w.buffer) else w
  w.buffer

end Bytewright.Binpack
