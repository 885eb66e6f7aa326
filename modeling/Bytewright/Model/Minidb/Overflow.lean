import Bytewright.Model.Minidb.Decoder

/-! Reconstruction of an overflow chain: a bounded walk along the `overflow_next` links. -/

namespace Bytewright.Minidb

open Bytewright.Common

def kNoOverflow : UInt16 := 0xFFFF

/-- Why an overflow walk stopped. -/
inductive OverflowStatus where
  | kComplete
  | kCycle
  | kPageLimit
  | kLengthLimit
  | kDanglingPage
  | kBadStart
  deriving DecidableEq, Repr

structure OverflowResult where
  status : OverflowStatus := .kComplete
  bytes : Bytes := []
  visited : List UInt32 := []
  deriving DecidableEq, Repr

structure OverflowLimits where
  maxPages : Nat := 1024
  maxBytes : Nat := 16 * 1024 * 1024
  deriving DecidableEq, Repr

/-- Where the payload of a page, `[kPageHeaderSize, free_start)` clamped to the bytes that exist for
it, lies in a buffer of `size` bytes. The sums are those of `std::size_t`. -/
def payloadRange (size : Nat) (page : Page) (span : PageSpan) : Option (Nat × Nat) :=
  let payloadEnd := if page.freeStart.toNat > span.length then span.length else page.freeStart.toNat
  if payloadEnd > kPageHeaderSize ∧ span.length > kPageHeaderSize then
    let absStart := (span.fileOffset + kPageHeaderSize) % 2 ^ 64
    let absEnd := (span.fileOffset + payloadEnd) % 2 ^ 64
    if absStart < size ∧ absEnd ≤ size ∧ absEnd ≥ absStart then some (absStart, absEnd) else none
  else none

/-- The bytes with the payload of one more page, unless it would take them past the limit. -/
def appendPayload (data : Bytes) (limits : OverflowLimits) (page : Page) (span : PageSpan)
    (bytes : Bytes) : Option Bytes :=
  match payloadRange data.length page span with
  | none => some bytes
  | some (absStart, absEnd) =>
    let add := absEnd - absStart
    if bytes.length + add > limits.maxBytes then none
    else some (bytes ++ (data.drop absStart).take add)

/-- The walk from page `current` on. The set of the pages seen holds what `visited` lists. -/
def followChain (data : Bytes) (spans : List PageSpan) (db : Database) (limits : OverflowLimits) :
    (fuel : Nat) → (current : UInt32) → (visited : List UInt32) → (bytes : Bytes) →
      Outcome OverflowResult
  | 0, _, _, _ => .error .diverged
  | fuel + 1, current, visited, bytes =>
    if current ∈ visited then .ok { status := .kCycle, bytes, visited }
    else if visited.length ≥ limits.maxPages then .ok { status := .kPageLimit, bytes, visited }
    else
      let visited := visited ++ [current]
      match db.pages[current.toNat]?, spans[current.toNat]? with
      | some page, some span =>
        match appendPayload data limits page span bytes with
        | none => .ok { status := .kLengthLimit, bytes, visited }
        | some bytes =>
          let nxt := page.overflowNext
          if nxt = kNoOverflow then .ok { status := .kComplete, bytes, visited }
          else
            let nextPage := nxt.toUInt32
            if nextPage.toNat ≥ db.pages.length ∨ nextPage.toNat ≥ spans.length then
              .ok { status := .kDanglingPage, bytes, visited }
            else followChain data spans db limits fuel nextPage visited bytes
      | _, _ => .error .undefined

/-- Every round but the last visits another page. -/
def reconstructOverflow (data : Bytes) (spans : List PageSpan) (db : Database) (startPage : UInt32)
    (limits : OverflowLimits := {}) : Outcome OverflowResult :=
  if startPage.toNat ≥ db.pages.length ∨ startPage.toNat ≥ spans.length then
    .ok { status := .kBadStart }
  else followChain data spans db limits (db.pages.length + 1) startPage [] []

def deriveSpans (size : Nat) (db : Database) : List PageSpan :=
  (List.range db.pages.length).map fun i =>
    let off := (kHeaderSize + i * db.pageSize.toNat) % 2 ^ 64
    if off ≥ size ∨ db.pageSize = 0 then { fileOffset := off, length := 0 }
    else
      let avail := size - off
      { fileOffset := off
        length := if avail < db.pageSize.toNat then avail else db.pageSize.toNat }

/-- The overload that takes the spans off the database. -/
def reconstructOverflowOf (data : Bytes) (db : Database) (startPage : UInt32)
    (limits : OverflowLimits := {}) : Outcome OverflowResult :=
  reconstructOverflow data (deriveSpans data.length db) db startPage limits

end Bytewright.Minidb
