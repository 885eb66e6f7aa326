import Bytewright.Model.Binpack.Model
import Bytewright.Model.Common.ByteReader

/-! `RecordParser`: one record, or a stream of them, out of a bounded reader. -/

namespace Bytewright.Binpack

open Bytewright.Common

/-- The record loop of `parse_stream`, for at most `fuel` rounds. -/
def streamLoop {α : Type} (record : Reader α) : (fuel : Nat) → Reader (List α)
  | 0 => throw .diverged
  | fuel + 1 => do
    if (← get).eof then return []
    let rec ← record
    return rec :: (← streamLoop record fuel)

/-- `parse_stream`: records back to back until the reader is empty. Every record takes a byte,
so one round more than there are bytes is enough. -/
def streamOf {α : Type} (record : Reader α) : Reader (List α) := do
  streamLoop record ((← get).remaining + 1)

/-- A counted loop of reads. -/
def readTimes {α : Type} (item : Reader α) : (count : Nat) → Reader (List α)
  | 0 => return []
  | count + 1 => return (← item) :: (← readTimes item count)

/-- `parse_payload` on a reader over exactly the payload, which starts at the file offset `base`.
`nested` reads a child. -/
def parsePayload (base : Nat) (nested : Reader Record) (rec : Record) : Reader Record :=
  match rec.tag with
  | .kInt => return { rec with i64 := ← readSvarint }
  | .kUint => return { rec with u64 := ← readVarint }
  | .kFloat => return { rec with f64 := ← readU64le }
  | .kString => do
    let str ← readString (← get).remaining
    return { rec with str }
  | .kBlob => do
    let blob ← readBytes (← get).remaining
    return { rec with blob }
  | .kArray => do
    let count ← readVarint
    let children ← readTimes nested count.toNat
    return { rec with children }
  | .kGroup => do
    let children ← streamOf nested
    return { rec with children }
  | .kKeyval => do
    let keyLen ← readVarint
    let key ← readString keyLen.toNat
    let value ← nested
    let r ← get
    if !r.eof then
      raise .kBadLength (base + r.pos) "trailing bytes after keyval value"
    return { rec with key, children := [value] }

/-- `parse_record` with `room` levels of nesting left: `room` is `max_depth + 1 - depth`, so it
is zero when `depth > max_depth`. `base` is `base_offset_`. -/
def parseRecordIn : (room : Nat) → (base : Nat) → Reader Record
  | 0, base => do
    let r ← get
    raise .kDepthExceeded (base + r.pos) "record nesting exceeded max depth"
  | room + 1, base => do
    let recOff := (← get).pos
    let tagByte ← readU8
    let flags ← readU8
    let some tag := RecordTag.ofByte? tagByte
      | raise .kBadType (base + recOff) "unknown record tag"
    let length ← readVarint
    let payloadOff := (← get).pos
    let payload ← readRaw length.toNat
    let inner := base + payloadOff
    readWithin payload
      (parsePayload inner (parseRecordIn room inner) { tag, group := flags &&& 0x01 ≠ 0 })

def parseRecord (maxDepth base depth : Nat) : Reader Record :=
  parseRecordIn (maxDepth + 1 - depth) base

def parseStream (maxDepth base depth : Nat) : Reader (List Record) :=
  streamOf (parseRecord maxDepth base depth)

end Bytewright.Binpack
