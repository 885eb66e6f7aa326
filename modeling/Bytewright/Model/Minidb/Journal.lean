import Bytewright.Model.Minidb.Decoder

/-! The last stage of `open`: journal replay over the page-resident records. -/

namespace Bytewright.Minidb

open Bytewright.Common

/-- `std::map<RecordKey, std::vector<std::uint8_t>>`: the raw bytes of each record. -/
abbrev Store := Std.ExtTreeMap RecordKey Bytes

/-- A mutation, staged or settled. -/
structure StagedOp where
  key : RecordKey
  tombstone : Bool := false
  bytes : Bytes := []
  deriving DecidableEq, Repr

def readKey : Reader RecordKey := do
  let page ← readU32le
  let slot ← readU16le
  return (page, slot)

/-! ### The seed -/

def seedSlot (data : Bytes) (page : Page) (span : PageSpan) (store : Store) (s : UInt16)
    (slot : Slot) : Store :=
  if !slot.inBounds || slot.recLength = 0 then store
  else
    let start := span.fileOffset + slot.recOffset.toNat
    let stop := start + slot.recLength.toNat
    if start ≥ data.length || stop > data.length || stop < start then store
    else store.insert (page.index, s) ((data.drop start).take (stop - start))

def seedPage (data : Bytes) (spans : List PageSpan) (store : Store) (page : Page) : Store :=
  if page.type ≠ kData then store
  else match spans[page.index.toNat]? with
    | none => store
    | some span =>
      page.slots.zipIdx.foldl (fun store (slot, s) => seedSlot data page span store (UInt16.ofNat s) slot)
        store

/-- The records physically resident in the slots of DATA pages. -/
def seedFromPages (data : Bytes) (spans : List PageSpan) (pages : List Page) : Store :=
  pages.foldl (seedPage data spans) ∅

/-! ### The replay -/

structure ReplayState where
  committed : Store
  inTxn : Bool := false
  staged : List StagedOp := []
  committedOps : UInt32 := 0
  rolledBackOps : UInt32 := 0

def applyCommitted (committed : Store) (op : StagedOp) : Store :=
  if op.tombstone then committed.erase op.key else committed.insert op.key op.bytes

namespace ReplayState

/-- Apply an op to the committed store and count it. -/
def commitOp (s : ReplayState) (op : StagedOp) : ReplayState :=
  { s with committed := applyCommitted s.committed op, committedOps := s.committedOps + 1 }

/-- Stage an op inside a transaction, apply it outside. -/
def route (s : ReplayState) (op : StagedOp) : ReplayState :=
  if s.inTxn then { s with staged := s.staged ++ [op] } else s.commitOp op

/-- A BEGIN inside an open transaction discards what that one staged. -/
def beginTxn (s : ReplayState) : ReplayState := { s with staged := [], inTxn := true }

def commitTxn (s : ReplayState) : ReplayState :=
  if s.inTxn then { s.staged.foldl commitOp s with staged := [], inTxn := false } else s

def rollbackTxn (s : ReplayState) : ReplayState :=
  if s.inTxn then
    { s with
      rolledBackOps := s.rolledBackOps + UInt32.ofNat s.staged.length
      staged := []
      inTxn := false }
  else s

/-- The end of the journal: a transaction still open is rolled back. -/
def finish (s : ReplayState) : ReplayState :=
  if s.inTxn then
    { s with rolledBackOps := s.rolledBackOps + UInt32.ofNat s.staged.length, staged := [] }
  else s

end ReplayState

/-- One entry, behind its op byte. -/
def replayEntry (s : ReplayState) : JournalOp → Reader ReplayState
  | .kBegin => return s.beginTxn
  | .kInsert | .kUpdate => do
    let key ← readKey
    let recLen ← readVarint
    require recLen.toNat
    let bytes ← readBytes recLen.toNat
    return s.route { key, bytes, tombstone := false }
  | .kDelete => do
    let key ← readKey
    return s.route { key, tombstone := true }
  | .kCommit => return s.commitTxn
  | .kRollback => return s.rollbackTxn

/-- The replay loop. An unknown op stops it. Every round takes a byte off the buffer. -/
def replayLoop : (fuel : Nat) → ReplayState → Reader ReplayState
  | 0, _ => throw .diverged
  | fuel + 1, s => do
    if (← get).eof then return s
    let opByte ← readU8
    match JournalOp.ofByte? opByte with
    | none => return s
    | some op => do
      let s ← replayEntry s op
      replayLoop fuel s

/-- Replay a journal over a seeded store. -/
def replay (seed : Store) (journal : Bytes) : Outcome ReplayState :=
  match replayLoop (journal.length + 1) { committed := seed } { data := journal } with
  | .ok s _ => .ok s.finish
  | .error e _ => .error e

/-- Decode every committed record, in the order of the keys. -/
def decodeRecords (committed : Store) (stringTable : List Bytes) :
    Outcome (Std.ExtTreeMap RecordKey Record) :=
  committed.toList.foldlM (fun records kv => do
    return records.insertIfNew kv.1 (← decodeRecord kv.2 stringTable)) ∅

def replayJournal (data : Bytes) (hdr : FileHeader) (spans : List PageSpan) (db : Database) :
    Outcome Database := do
  let seed := seedFromPages data spans db.pages
  let jo := hdr.journalOffset.toNat
  let haveJournal := hdr.journalOffset ≠ 0 ∧ jo < data.length
  let hasJournal := db.hasJournal || hdr.journalOffset ≠ 0
  let s ← if haveJournal then replay seed (data.drop jo) else .ok { committed := seed }
  let records ← decodeRecords s.committed db.stringTable
  return { db with
    hasJournal
    committedOps := s.committedOps
    rolledBackOps := s.rolledBackOps
    records }

/-! ### The facade -/

structure Options where
  strict : Bool := false
  deriving DecidableEq, Repr

/-- `minidb::open`. -/
def openDb (data : Bytes) (opts : Options) : Outcome Database := do
  match parseHeader opts.strict { data } with
  | .error e _ => .error e
  | .ok hdr _ =>
    let (spans, pages) ← parsePages data hdr
    let stringTable ← parseStringTable data hdr spans pages
    replayJournal data hdr spans {
      version := hdr.version
      pageSize := hdr.pageSize
      pageCount := hdr.pageCount
      rootPage := hdr.rootPage
      stringTablePage := hdr.stringTablePage
      journalOffset := hdr.journalOffset
      flags := hdr.flags
      checksumOk := hdr.checksumOk
      pages
      stringTable }

end Bytewright.Minidb
