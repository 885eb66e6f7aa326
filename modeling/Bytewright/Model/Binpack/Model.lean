import Bytewright.Model.Common.Status

/-! The decoded BPK1 container: tags, records, sections. -/

namespace Bytewright.Binpack

open Bytewright.Common

inductive RecordTag where
  | kInt
  | kUint
  | kFloat
  | kString
  | kBlob
  | kArray
  | kGroup
  | kKeyval
  deriving DecidableEq, Repr

/-- `tag_byte`: the wire value of a record tag. -/
def RecordTag.byte : RecordTag → UInt8
  | .kInt => 0x01
  | .kUint => 0x02
  | .kFloat => 0x03
  | .kString => 0x04
  | .kBlob => 0x05
  | .kArray => 0x06
  | .kGroup => 0x07
  | .kKeyval => 0x08

/-- The record tag a byte names. -/
def RecordTag.ofByte? (b : UInt8) : Option RecordTag :=
  if b = 0x01 then some .kInt
  else if b = 0x02 then some .kUint
  else if b = 0x03 then some .kFloat
  else if b = 0x04 then some .kString
  else if b = 0x05 then some .kBlob
  else if b = 0x06 then some .kArray
  else if b = 0x07 then some .kGroup
  else if b = 0x08 then some .kKeyval
  else none

inductive SectionType where
  | kFree
  | kData
  | kMetadata
  | kIndex
  | kStrings
  deriving DecidableEq, Repr

/-- The wire value of a section type. -/
def SectionType.raw : SectionType → UInt16
  | .kFree => 0
  | .kData => 1
  | .kMetadata => 2
  | .kIndex => 3
  | .kStrings => 4

/-- The section type a table entry names. -/
def SectionType.ofRaw? (v : UInt16) : Option SectionType :=
  if v = 0 then some .kFree
  else if v = 1 then some .kData
  else if v = 2 then some .kMetadata
  else if v = 3 then some .kIndex
  else if v = 4 then some .kStrings
  else none

/-- A decoded record node. `tag` selects the active members, the others keep their defaults.
`f64` is the bit pattern of the double. -/
structure Record where
  tag : RecordTag
  group : Bool := false
  i64 : Int64 := 0
  u64 : UInt64 := 0
  f64 : UInt64 := 0
  str : Bytes := []
  blob : Bytes := []
  children : List Record := []
  key : Bytes := []
  deriving Repr

/-- One section table entry with its decoded body. -/
structure Section where
  type : SectionType
  id : UInt16 := 0
  flags : UInt16 := 0
  offset : UInt32 := 0
  length : UInt32 := 0
  itemCount : UInt32 := 0
  crc32Stored : UInt32 := 0
  bodyChecksumOk : Bool := true
  records : List Record := []
  deriving Repr

structure Container where
  version : UInt16 := 0
  flags : UInt16 := 0
  sectionCount : UInt16 := 0
  hasMetadata : Bool := false
  hasTrailerCrc : Bool := false
  headerChecksumOk : Bool := true
  trailerChecksumOk : Bool := true
  checksumOk : Bool := true
  sections : List Section := []
  metadata : List (Bytes × Record) := []
  deriving Repr

end Bytewright.Binpack
