import Bytewright.Model.Common.Status
import Std.Data.ExtTreeMap

/-! The decoded form of an MDB1 store. -/

namespace Bytewright.Minidb

open Bytewright.Common

/-- On-wire page type. The source casts any byte to it. -/
abbrev PageType := UInt8

def kData : PageType := 1
def kStrings : PageType := 2

inductive FieldType where
  | kNull
  | kBool
  | kInt
  | kUint
  | kFloat
  | kStringRef
  | kInlineString
  | kBlob
  deriving DecidableEq, Repr

/-- The field type a tag byte names. -/
def FieldType.ofByte? (b : UInt8) : Option FieldType :=
  if b = 0 then some .kNull
  else if b = 1 then some .kBool
  else if b = 2 then some .kInt
  else if b = 3 then some .kUint
  else if b = 4 then some .kFloat
  else if b = 5 then some .kStringRef
  else if b = 6 then some .kInlineString
  else if b = 7 then some .kBlob
  else none

inductive JournalOp where
  | kBegin
  | kInsert
  | kUpdate
  | kDelete
  | kCommit
  | kRollback
  deriving DecidableEq, Repr

def JournalOp.byte : JournalOp → UInt8
  | .kBegin => 1
  | .kInsert => 2
  | .kUpdate => 3
  | .kDelete => 4
  | .kCommit => 5
  | .kRollback => 6

/-- The op an entry's first byte names. -/
def JournalOp.ofByte? (b : UInt8) : Option JournalOp :=
  if b = 1 then some .kBegin
  else if b = 2 then some .kInsert
  else if b = 3 then some .kUpdate
  else if b = 4 then some .kDelete
  else if b = 5 then some .kCommit
  else if b = 6 then some .kRollback
  else none

/-- A decoded field: `type` selects the active member. A float is its bit pattern. -/
structure Field where
  type : FieldType := .kNull
  b : Bool := false
  i64 : Int64 := 0
  u64 : UInt64 := 0
  f64 : UInt64 := 0
  str : Bytes := []
  refId : UInt64 := 0
  refResolved : Bool := false
  blob : Bytes := []
  deriving DecidableEq, Repr

structure Record where
  fields : List Field := []
  deriving DecidableEq, Repr

structure Slot where
  recOffset : UInt16 := 0
  recLength : UInt16 := 0
  inBounds : Bool := true
  deriving DecidableEq, Repr

structure Page where
  index : UInt32 := 0
  type : PageType := 0
  flags : UInt8 := 0
  slotCount : UInt16 := 0
  freeStart : UInt16 := 0
  overflowNext : UInt16 := 0xFFFF
  truncated : Bool := false
  slots : List Slot := []
  deriving DecidableEq, Repr

/-- `(page, slot)`. -/
abbrev RecordKey := UInt32 × UInt16

instance : Ord RecordKey := lexOrd

structure Database where
  version : UInt16 := 0
  pageSize : UInt16 := 0
  pageCount : UInt32 := 0
  rootPage : UInt32 := 0
  stringTablePage : UInt32 := 0xFFFFFFFF
  journalOffset : UInt32 := 0
  flags : UInt32 := 0
  checksumOk : Bool := true
  hasJournal : Bool := false
  stringTable : List Bytes := []
  pages : List Page := []
  committedOps : UInt32 := 0
  rolledBackOps : UInt32 := 0
  records : Std.ExtTreeMap RecordKey Record := ∅

end Bytewright.Minidb
