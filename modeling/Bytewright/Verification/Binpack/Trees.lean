import Mathlib.Algebra.GroupWithZero.Nat
import Bytewright.Model.Binpack.Model

/-! # Trees of records -/

namespace Bytewright.Binpack

open Bytewright.Common

namespace Record

mutual

/-- The nodes of the tree, each in front of those below it. -/
def nodes : Record → List Record
  | ⟨tag, group, i64, u64, f64, str, blob, children, key⟩ =>
    ⟨tag, group, i64, u64, f64, str, blob, children, key⟩ :: nodesOf children

def nodesOf : List Record → List Record
  | [] => []
  | child :: children => child.nodes ++ nodesOf children

end

theorem nodes_eq (rec : Record) : rec.nodes = rec :: nodesOf rec.children := by
  cases rec
  rw [nodes]

theorem nodesOf_append (recs recs' : List Record) : nodesOf (recs ++ recs') = nodesOf recs ++ nodesOf recs' := by
  induction recs with
  | nil => rfl
  | cons rec recs ih => rw [List.cons_append, nodesOf, nodesOf, ih, List.append_assoc]

/-- The bytes of the node's own string, blob and key. -/
def contentLength (rec : Record) : Nat := rec.str.length + rec.blob.length + rec.key.length

end Record

/-- How many nodes these trees have. -/
def nodeCount (recs : List Record) : Nat := (Record.nodesOf recs).length

/-- The bytes of all strings, blobs and keys in these trees. -/
def contentBytes (recs : List Record) : Nat := ((Record.nodesOf recs).map Record.contentLength).sum

end Bytewright.Binpack
