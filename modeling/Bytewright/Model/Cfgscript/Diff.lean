import Bytewright.Model.Cfgscript.Flatten

/-! The differences between two flattened documents. -/

namespace Bytewright.Cfgscript

open Bytewright.Common

inductive DiffKind where
  | kAdded
  | kRemoved
  | kChanged
  deriving DecidableEq, Repr

structure DiffEntry where
  kind : DiffKind
  path : Bytes
  oldValue : Bytes := []
  newValue : Bytes := []
  deriving DecidableEq, Repr

/-- A map from paths to values. The latest binding of a path stands first. -/
abbrev PathIndex := List (Bytes × Bytes)

/-- The index of a flattened document: of a path that repeats, the last occurrence wins. -/
def indexEntries (entries : List FlatEntry) : PathIndex :=
  entries.foldl (fun index e => (e.path, e.value) :: index) []

/-- The loop for the removed keys, in `a`'s order. -/
def removedKeys (aIndex bIndex : PathIndex) : (seen : List Bytes) → List FlatEntry → List DiffEntry
  | _, [] => []
  | seen, e :: entries =>
    if e.path ∈ seen then removedKeys aIndex bIndex seen entries
    else
      let out := removedKeys aIndex bIndex (e.path :: seen) entries
      match bIndex.lookup e.path with
      | none => { kind := .kRemoved, path := e.path, oldValue := (aIndex.lookup e.path).getD [] } :: out
      | some _ => out

/-- The loop for the added and the changed keys, in `b`'s order. -/
def changedKeys (aIndex bIndex : PathIndex) : (seen : List Bytes) → List FlatEntry → List DiffEntry
  | _, [] => []
  | seen, e :: entries =>
    if e.path ∈ seen then changedKeys aIndex bIndex seen entries
    else
      let out := changedKeys aIndex bIndex (e.path :: seen) entries
      let newValue := (bIndex.lookup e.path).getD []
      match aIndex.lookup e.path with
      | none => { kind := .kAdded, path := e.path, newValue } :: out
      | some oldValue =>
        if oldValue ≠ newValue then { kind := .kChanged, path := e.path, oldValue, newValue } :: out
        else out

/-- `diff` of flattened views. -/
def diffEntries (a b : List FlatEntry) : List DiffEntry :=
  let aIndex := indexEntries a
  let bIndex := indexEntries b
  removedKeys aIndex bIndex [] a ++ changedKeys aIndex bIndex [] b

def diff (a b : Document) : List DiffEntry := diffEntries (flatten a) (flatten b)

end Bytewright.Cfgscript
