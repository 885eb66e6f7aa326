import Bytewright.Model.Minidb.Decoder

/-! INDEX pages: decoding, ordered lookup and range scans. -/

namespace Bytewright.Minidb

open Bytewright.Common

def kIndex : PageType := 3

/-- Unsigned lexicographic comparison, with the sign of `memcmp`: the common bytes, then the lengths. -/
def keyCompare : Bytes → Bytes → Int
  | ca :: a, cb :: b => if ca ≠ cb then (if ca < cb then -1 else 1) else keyCompare a b
  | a, b => if a.length = b.length then 0 else if a.length < b.length then -1 else 1

def keyLess (a b : Bytes) : Bool := decide (keyCompare a b < 0)

structure IndexEntry where
  key : Bytes := []
  page : UInt32 := 0
  slot : UInt16 := 0
  deriving DecidableEq, Repr

/-- A decoded INDEX page, its entries in the order of their keys. -/
structure IndexPage where
  pageIndex : UInt32 := 0
  truncated : Bool := false
  entries : List IndexEntry := []
  deriving DecidableEq, Repr

/-! ### Lookup -/

/-- The loop of the binary search, over the window `[lo, hi)`. -/
def lookupFrom (entries : List IndexEntry) (key : Bytes) (lo hi : Nat) (hhi : hi ≤ entries.length) :
    Nat :=
  if h : lo < hi then
    let mid := lo + (hi - lo) / 2
    have hmid : mid < entries.length := by omega
    if keyCompare entries[mid].key key < 0 then lookupFrom entries key (mid + 1) hi hhi
    else lookupFrom entries key lo mid (by omega)
  else lo
termination_by hi - lo

namespace IndexPage

/-- The entry the source returns a pointer to, if any. -/
def lookup (out : IndexPage) (key : Bytes) : Option IndexEntry :=
  let lo := lookupFrom out.entries key 0 out.entries.length (Nat.le_refl _)
  match out.entries[lo]? with
  | some e => if keyCompare e.key key = 0 then some e else none
  | none => none

/-- The scan over the entries, up to the first one past the window. -/
def scan (lo hi : Bytes) : List IndexEntry → List IndexEntry
  | [] => []
  | e :: entries =>
    if keyCompare e.key lo < 0 then scan lo hi entries
    else if keyCompare e.key hi > 0 then []
    else e :: scan lo hi entries

def range (out : IndexPage) (lo hi : Bytes) : List IndexEntry :=
  if keyCompare lo hi > 0 then [] else scan lo hi out.entries

end IndexPage

/-! ### Decoding -/

def readIndexEntry : Reader IndexEntry := do
  let keyLen ← readVarint
  require keyLen.toNat
  let key ← readString keyLen.toNat
  let page ← readU32le
  let slot ← readU16le
  return { key, page, slot }

/-- The entries that decode cleanly, and whether an exception ended them. -/
def indexEntries : (count : Nat) → ByteReader → Outcome (List IndexEntry × Bool)
  | 0, _ => .ok ([], false)
  | count + 1, r =>
    match readIndexEntry r with
    | .ok e r => do
      let (entries, truncated) ← indexEntries count r
      return (e :: entries, truncated)
    | .error (.thrown _) _ => .ok ([], true)
    | .error e _ => .error e

/-- The body of an INDEX page, in the order of the page. -/
def indexBody (r : ByteReader) : Outcome (List IndexEntry × Bool) :=
  match readVarint r with
  | .ok entryCount r => indexEntries entryCount.toNat r
  | .error (.thrown _) _ => .ok ([], true)
  | .error e _ => .error e

/-- `std::stable_sort` by `key_less`. -/
def sortEntries (entries : List IndexEntry) : List IndexEntry :=
  entries.mergeSort fun a b => !keyLess b.key a.key

def decodeIndexPage (pageBytes : Bytes) (pageIndex : UInt32) : Outcome IndexPage :=
  if pageBytes.length < kPageHeaderSize then .ok { pageIndex, truncated := true }
  else if pageBytes[0]? ≠ some kIndex then .ok { pageIndex }
  else do
    let (entries, truncated) ← indexBody { data := pageBytes.drop kPageHeaderSize }
    return { pageIndex, truncated, entries := sortEntries entries }

end Bytewright.Minidb
