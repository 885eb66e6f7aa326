import Bytewright.Model.Minidb.Model

/-! The catalog: a roll-up of a decoded store. -/

namespace Bytewright.Minidb

open Bytewright.Common

def kFree : PageType := 0
def kOverflow : PageType := 4

/-- The slot utilisation of a page. -/
structure PageStats where
  index : UInt32 := 0
  type : PageType := kFree
  totalSlots : Nat := 0
  usedSlots : Nat := 0
  deadSlots : Nat := 0
  truncated : Bool := false
  deriving DecidableEq, Repr

structure StringStats where
  count : Nat := 0
  totalBytes : Nat := 0
  maxBytes : Nat := 0
  emptyCount : Nat := 0
  deriving DecidableEq, Repr

structure Catalog where
  pageTypeCounts : List Nat := []
  totalPages : Nat := 0
  totalLiveRecords : Nat := 0
  totalUsedSlots : Nat := 0
  totalDeadSlots : Nat := 0
  strings : StringStats := {}
  pages : List PageStats := []
  deriving DecidableEq, Repr

/-- The histogram spans every defined page type. -/
def kPageTypeSlots : Nat := kOverflow.toNat + 1

def countSlot (ps : PageStats) (s : Slot) : PageStats :=
  if s.inBounds && decide (s.recLength > 0) then { ps with usedSlots := ps.usedSlots + 1 }
  else { ps with deadSlots := ps.deadSlots + 1 }

def pageStats (p : Page) : PageStats :=
  p.slots.foldl countSlot
    { index := p.index, type := p.type, totalSlots := p.slots.length, truncated := p.truncated }

/-- One page: the histogram, which leaves unknown types out, and the slot utilisation. -/
def addPage (cat : Catalog) (p : Page) : Catalog :=
  let ps := pageStats p
  { cat with
    pageTypeCounts := cat.pageTypeCounts.modify p.type.toNat (· + 1)
    totalUsedSlots := cat.totalUsedSlots + ps.usedSlots
    totalDeadSlots := cat.totalDeadSlots + ps.deadSlots
    pages := cat.pages ++ [ps] }

def addString (stats : StringStats) (s : Bytes) : StringStats :=
  { stats with
    totalBytes := stats.totalBytes + s.length
    maxBytes := if s.length > stats.maxBytes then s.length else stats.maxBytes
    emptyCount := if s.isEmpty then stats.emptyCount + 1 else stats.emptyCount }

def buildCatalog (db : Database) : Catalog :=
  let cat := db.pages.foldl addPage
    { pageTypeCounts := List.replicate kPageTypeSlots 0
      totalPages := db.pages.length
      totalLiveRecords := db.records.size }
  { cat with strings := db.stringTable.foldl addString { count := db.stringTable.length } }

end Bytewright.Minidb
