import Bytewright.Model.Binpack.Model

/-! `walk`: a depth-tracked traversal of a container, by callbacks. -/

namespace Bytewright.Binpack

/-- A reference to a record of a container. `path` says where the record lies: the index of its section,
and then the indices that lead down to it. -/
structure RecordRef where
  path : List Nat
  record : Record
  deriving Repr

/-- The callbacks, as what each does to the visitor's own state. By default they do nothing. -/
structure RecordVisitor (σ : Type) where
  enterSection (s : Section) (index : Nat) : σ → σ := id
  leaveSection (s : Section) (index : Nat) : σ → σ := id
  visitScalar (rec : RecordRef) (depth index : Nat) : σ → σ := id
  enterArray (rec : RecordRef) (depth index : Nat) : σ → σ := id
  leaveArray (rec : RecordRef) (depth index : Nat) : σ → σ := id
  enterGroup (rec : RecordRef) (depth index : Nat) : σ → σ := id
  leaveGroup (rec : RecordRef) (depth index : Nat) : σ → σ := id
  enterKeyval (rec : RecordRef) (depth index : Nat) : σ → σ := id
  leaveKeyval (rec : RecordRef) (depth index : Nat) : σ → σ := id

namespace RecordVisitor

variable {σ : Type}

mutual

/-- `walk_record` on the record at `path`. -/
def walkRecord (visitor : RecordVisitor σ) (path : List Nat) (depth index : Nat) (st : σ) : Record → σ
  | ⟨tag, group, i64, u64, f64, str, blob, children, key⟩ =>
    let ref : RecordRef := ⟨path, ⟨tag, group, i64, u64, f64, str, blob, children, key⟩⟩
    match tag with
    | .kInt | .kUint | .kFloat | .kString | .kBlob => visitor.visitScalar ref depth index st
    | .kArray =>
      let st := visitor.enterArray ref depth index st
      let st := walkRecords visitor path (depth + 1) 0 st children
      visitor.leaveArray ref depth index st
    | .kGroup =>
      let st := visitor.enterGroup ref depth index st
      let st := walkRecords visitor path (depth + 1) 0 st children
      visitor.leaveGroup ref depth index st
    | .kKeyval =>
      let st := visitor.enterKeyval ref depth index st
      let st := walkRecords visitor path (depth + 1) 0 st children
      visitor.leaveKeyval ref depth index st

/-- The loop over the records below `path`, from the index `i` on. -/
def walkRecords (visitor : RecordVisitor σ) (path : List Nat) (depth i : Nat) (st : σ) : List Record → σ
  | [] => st
  | rec :: recs =>
    walkRecords visitor path depth (i + 1) (walkRecord visitor (path ++ [i]) depth i st rec) recs

end

/-- One round of the section loop. -/
def walkSection (visitor : RecordVisitor σ) (st : σ) (entry : Section × Nat) : σ :=
  let (s, si) := entry
  let st := visitor.enterSection s si st
  let st := visitor.walkRecords [si] 0 0 st s.records
  visitor.leaveSection s si st

def walk (visitor : RecordVisitor σ) (c : Container) (st : σ) : σ :=
  c.sections.zipIdx.foldl visitor.walkSection st

end RecordVisitor

end Bytewright.Binpack
