import Bytewright.Model.Binpack.Visitor

/-! `collect_records`: the records of a tag, by reference. -/

namespace Bytewright.Binpack

mutual

/-- One round of `collect_into`, for the record at `path`. -/
def collectRecord (tag : RecordTag) (recursive : Bool) (path : List Nat) (out : List RecordRef) :
    Record → List RecordRef
  | ⟨tag', group, i64, u64, f64, str, blob, children, key⟩ =>
    let out :=
      if tag' = tag then out ++ [⟨path, ⟨tag', group, i64, u64, f64, str, blob, children, key⟩⟩]
      else out
    if recursive && !children.isEmpty then collectInto tag recursive path 0 out children else out

/-- `collect_into` on the records below `path`, from the index `i` on. -/
def collectInto (tag : RecordTag) (recursive : Bool) (path : List Nat) (i : Nat)
    (out : List RecordRef) : List Record → List RecordRef
  | [] => out
  | rec :: recs =>
    collectInto tag recursive path (i + 1) (collectRecord tag recursive (path ++ [i]) out rec) recs

end

/-- Every record carrying `tag`, in traversal order; without `recursive` only the top-level ones. -/
def collectRecords (c : Container) (tag : RecordTag) (recursive : Bool := true) : List RecordRef :=
  c.sections.zipIdx.foldl
    (fun out entry => collectInto tag recursive [entry.2] 0 out entry.1.records) []

end Bytewright.Binpack
