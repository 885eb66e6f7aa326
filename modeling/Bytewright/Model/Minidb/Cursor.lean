import Bytewright.Model.Minidb.Model

/-! The record cursor: a scan over the committed records in the order of their keys. -/

namespace Bytewright.Minidb

/-- `std::map::lower_bound`: the first key that is not below this one. -/
def lowerBound (records : Std.ExtTreeMap RecordKey Record) (key : RecordKey) : Option RecordKey :=
  records.keys.find? fun k => (compare key k).isLE

/-- `++it`: the first key above this one. -/
def successor (records : Std.ExtTreeMap RecordKey Record) (key : RecordKey) : Option RecordKey :=
  records.keys.find? fun k => (compare key k).isLT

/-- `begin()` -/
def firstKey (records : Std.ExtTreeMap RecordKey Record) : Option RecordKey := records.keys.head?

/-- An iterator is the key it points at; `end()` is none. -/
structure Cursor where
  db : Database
  it : Option RecordKey := none
  started : Bool := false

namespace Cursor

def next (c : Cursor) : Bool × Cursor :=
  if !c.started then
    let it := firstKey c.db.records
    (it.isSome, { c with it, started := true })
  else match c.it with
    | none => (false, c)
    | some key =>
      let it := successor c.db.records key
      (it.isSome, { c with it })

def valid (c : Cursor) : Bool := c.started && c.it.isSome

def seek (c : Cursor) (page : UInt32) (slot : UInt16) : Bool × Cursor :=
  let it := lowerBound c.db.records (page, slot)
  (it.isSome, { c with it, started := true })

/-- `key()`, where the cursor is valid. -/
def key? (c : Cursor) : Option RecordKey := if c.valid then c.it else none

/-- `record()`, where the cursor is valid. -/
def record? (c : Cursor) : Option Record := c.key?.bind fun key => c.db.records[key]?

def field (c : Cursor) (index : Nat) : Option Field := c.record?.bind fun record => record.fields[index]?

end Cursor

end Bytewright.Minidb
