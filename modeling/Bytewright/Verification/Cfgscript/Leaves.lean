import Bytewright.Model.Cfgscript.Flatten
import Bytewright.Verification.Cfgscript.Spelling

/-! # The leaves of a document

A leaf is a scalar or an empty aggregate, by where it stands in the tree, or an include statement.
Flattening lists the leaves in order and writes where each stands as text. -/

namespace Bytewright.Cfgscript

open Bytewright.Common Bytewright.Library

/-- A step from an aggregate to one of its parts. -/
inductive Part where
  | element (index : Nat)
  | member (key : Bytes)
  deriving DecidableEq, Repr

/-- What stands at a leaf. -/
inductive Payload where
  | scalar (v : Value)
  | file (path : Bytes)

/-- The blocks around a leaf, outermost first, the path of its assignment, where it stands in the
value, and what it is. An include has neither a path nor a position. -/
structure DocumentLeaf where
  blocks : List (Bytes × Option Bytes)
  path : List Bytes
  position : List Part
  payload : Payload

mutual

/-- The leaves of a value that stands at `position`. -/
def Value.leaves (position : List Part) : Value → List (List Part × Value)
  | .array [] => [(position, .array [])]
  | .array (v :: vs) => elementLeaves position 0 (v :: vs)
  | .object [] => [(position, .object [])]
  | .object (field :: fields) => fieldLeaves position (field :: fields)
  | v => [(position, v)]

def elementLeaves (position : List Part) (index : Nat) : List Value → List (List Part × Value)
  | [] => []
  | v :: vs =>
    v.leaves (position ++ [.element index]) ++ elementLeaves position (index + 1) vs

def fieldLeaves (position : List Part) : List (Bytes × Value) → List (List Part × Value)
  | [] => []
  | (key, v) :: fields => v.leaves (position ++ [.member key]) ++ fieldLeaves position fields

end

mutual

def Node.leaves (blocks : List (Bytes × Option Bytes)) : Node → List DocumentLeaf
  | .assignment path v => (v.leaves []).map fun (position, w) => ⟨blocks, path, position, .scalar w⟩
  | .block name label children => nodesLeaves (blocks ++ [(name, label)]) children
  | .include file => [⟨blocks, [], [], .file file⟩]

def nodesLeaves (blocks : List (Bytes × Option Bytes)) : List Node → List DocumentLeaf
  | [] => []
  | node :: nodes => node.leaves blocks ++ nodesLeaves blocks nodes

end

def Document.leaves (doc : Document) : List DocumentLeaf := nodesLeaves [] doc.nodes

/-! ### Texts -/

/-- The path of the nodes in a chain of blocks. -/
def blocksText (blocks : List (Bytes × Option Bytes)) : Bytes :=
  blocks.foldl (fun path block => blockPrefix path block.1 block.2) []

def partText (path : Bytes) : Part → Bytes
  | .element index => joinIndex path index
  | .member key => joinPath path key

/-- The flattened path of a leaf. -/
def DocumentLeaf.text (l : DocumentLeaf) : Bytes :=
  match l.payload with
  | .scalar _ => l.position.foldl partText (l.path.foldl joinPath (blocksText l.blocks))
  | .file _ => joinPath (blocksText l.blocks) (ascii "include")

def Payload.text : Payload → Bytes
  | .scalar v => renderScalar v
  | .file path => path

def DocumentLeaf.entry (l : DocumentLeaf) : FlatEntry := ⟨l.text, l.payload.text⟩

mutual

theorem flattenValue_eq (path : Bytes) (position : List Part) :
    ∀ v : Value, flattenValue (position.foldl partText path) v =
      (v.leaves position).map fun leaf => ⟨leaf.1.foldl partText path, renderScalar leaf.2⟩
  | .array [] => rfl
  | .array (v :: vs) => flattenElements_eq path position 0 (v :: vs)
  | .object [] => rfl
  | .object (field :: fields) => flattenFields_eq path position (field :: fields)
  | .null | .bool _ | .int _ | .float _ | .str _ => rfl

theorem flattenElements_eq (path : Bytes) (position : List Part) (index : Nat) :
    ∀ vs : List Value, flattenElements (position.foldl partText path) index vs =
      (elementLeaves position index vs).map
        fun leaf => ⟨leaf.1.foldl partText path, renderScalar leaf.2⟩
  | [] => rfl
  | v :: vs => by
      have hv := flattenValue_eq path (position ++ [.element index]) v
      rw [List.foldl_append] at hv
      rw [flattenElements, elementLeaves, List.map_append, ← hv,
        ← flattenElements_eq path position (index + 1) vs]
      rfl

theorem flattenFields_eq (path : Bytes) (position : List Part) :
    ∀ fields : List (Bytes × Value), flattenFields (position.foldl partText path) fields =
      (fieldLeaves position fields).map fun leaf => ⟨leaf.1.foldl partText path, renderScalar leaf.2⟩
  | [] => rfl
  | (key, v) :: fields => by
      have hv := flattenValue_eq path (position ++ [.member key]) v
      rw [List.foldl_append] at hv
      rw [flattenFields, fieldLeaves, List.map_append, ← hv, ← flattenFields_eq path position fields]
      rfl

end

mutual

theorem flattenNode_eq (blocks : List (Bytes × Option Bytes)) :
    ∀ node : Node, flattenNode (blocksText blocks) node = (node.leaves blocks).map DocumentLeaf.entry
  | .assignment path v => by
      rw [flattenNode, Node.leaves, List.map_map]
      exact flattenValue_eq (path.foldl joinPath (blocksText blocks)) [] v
  | .block name label children => by
      have hnodes := flattenNodes_eq (blocks ++ [(name, label)]) children
      rw [blocksText, List.foldl_append] at hnodes
      exact hnodes
  | .include file => rfl

theorem flattenNodes_eq (blocks : List (Bytes × Option Bytes)) :
    ∀ nodes : List Node, flattenNodes (blocksText blocks) nodes =
      (nodesLeaves blocks nodes).map DocumentLeaf.entry
  | [] => rfl
  | node :: nodes => by
      rw [flattenNodes, nodesLeaves, List.map_append, flattenNode_eq blocks node,
        flattenNodes_eq blocks nodes]

end

/-- Flattening lists the leaves. -/
theorem flatten_eq (doc : Document) : flatten doc = doc.leaves.map DocumentLeaf.entry :=
  flattenNodes_eq [] doc.nodes

/-! ### What stands at a leaf -/

def Value.isLeaf : Value → Bool
  | .array (_ :: _) | .object (_ :: _) => false
  | _ => true

section All

variable {p : Value → Prop} {k : Bytes → Prop}

mutual

/-- What holds of the scalars and the keys of a value holds of its leaves. -/
theorem leaves_all :
    ∀ (v : Value) {position : List Part}, v.All p k → (∀ key, .member key ∈ position → k key) →
      ∀ leaf ∈ v.leaves position,
        (leaf.2.isLeaf = true ∧ leaf.2.All p k) ∧ ∀ key, .member key ∈ leaf.1 → k key
  | .null, _, hall, hkeys, _, hleaf | .bool _, _, hall, hkeys, _, hleaf
  | .int _, _, hall, hkeys, _, hleaf | .float _, _, hall, hkeys, _, hleaf
  | .str _, _, hall, hkeys, _, hleaf | .array [], _, hall, hkeys, _, hleaf
  | .object [], _, hall, hkeys, _, hleaf => by
      cases List.mem_singleton.mp hleaf
      exact ⟨⟨rfl, hall⟩, hkeys⟩
  | .array (v :: vs), _, hall, hkeys, _, hleaf => elementLeaves_all (v :: vs) 0 hall hkeys _ hleaf
  | .object (field :: fields), _, hall, hkeys, _, hleaf =>
      fieldLeaves_all (field :: fields) hall hkeys _ hleaf

theorem elementLeaves_all :
    ∀ (vs : List Value) {position : List Part} (index : Nat), AllElements p k vs →
      (∀ key, .member key ∈ position → k key) → ∀ leaf ∈ elementLeaves position index vs,
        (leaf.2.isLeaf = true ∧ leaf.2.All p k) ∧ ∀ key, .member key ∈ leaf.1 → k key
  | v :: vs, position, index, hall, hkeys, leaf, hleaf => by
      have hkeys' : ∀ key, .member key ∈ position ++ [.element index] → k key := by simpa using hkeys
      obtain hv | hvs := List.mem_append.mp hleaf
      · exact leaves_all v hall.1 hkeys' leaf hv
      · exact elementLeaves_all vs (index + 1) hall.2 hkeys leaf hvs

theorem fieldLeaves_all :
    ∀ (fields : List (Bytes × Value)) {position : List Part}, AllFields p k fields →
      (∀ key, .member key ∈ position → k key) → ∀ leaf ∈ fieldLeaves position fields,
        (leaf.2.isLeaf = true ∧ leaf.2.All p k) ∧ ∀ key, .member key ∈ leaf.1 → k key
  | (key, v) :: fields, position, hall, hkeys, leaf, hleaf => by
      have hkeys' : ∀ name, .member name ∈ position ++ [.member key] → k name := by
        intro name hname
        obtain hname | hname := List.mem_append.mp hname
        · exact hkeys name hname
        · cases List.mem_singleton.mp hname
          exact hall.1
      obtain hv | hfields := List.mem_append.mp hleaf
      · exact leaves_all v hall.2.1 hkeys' leaf hv
      · exact fieldLeaves_all fields hall.2.2 hkeys leaf hfields

end

end All

/-- The names around a leaf are names. -/
structure DocumentLeaf.Named (l : DocumentLeaf) : Prop where
  blocks : ∀ block ∈ l.blocks, IsName block.1
  path : ∀ name ∈ l.path, IsName name
  keys : ∀ key, .member key ∈ l.position → IsName key
  scalar : ∀ v, l.payload = .scalar v → v.isLeaf = true ∧ l.path ≠ []

mutual

theorem nodeLeaves_named :
    ∀ {room : Nat} (node : Node) {blocks : List (Bytes × Option Bytes)}, node.WellFormed room →
      (∀ block ∈ blocks, IsName block.1) → ∀ l ∈ node.leaves blocks, l.Named
  | _, .assignment path v, blocks, hwf, hblocks, l, hl => by
      obtain ⟨leaf, hleaf, rfl⟩ := List.mem_map.mp hl
      obtain ⟨hvalue, hkeys⟩ := leaves_all v hwf.2.2.2 (by simp) leaf hleaf
      refine ⟨hblocks, hwf.2.2.1, hkeys, fun w hw => ?_⟩
      cases hw
      exact ⟨hvalue.1, hwf.2.1⟩
  | _, .block name label children, blocks, hwf, hblocks, l, hl => by
      refine nodesLeaves_named children hwf.2.2 (fun block hblock => ?_) l hl
      obtain hblock | hblock := List.mem_append.mp hblock
      · exact hblocks block hblock
      · cases List.mem_singleton.mp hblock
        exact hwf.2.1
  | _, .include file, blocks, _, hblocks, l, hl => by
      cases List.mem_singleton.mp hl
      exact ⟨hblocks, nofun, by simp, nofun⟩

theorem nodesLeaves_named :
    ∀ {room : Nat} (nodes : List Node) {blocks : List (Bytes × Option Bytes)},
      NodesWellFormed room nodes → (∀ block ∈ blocks, IsName block.1) →
      ∀ l ∈ nodesLeaves blocks nodes, l.Named
  | _, node :: nodes, blocks, hwf, hblocks, l, hl => by
      obtain hnode | hnodes := List.mem_append.mp hl
      · exact nodeLeaves_named node hwf.1 hblocks l hnode
      · exact nodesLeaves_named nodes hwf.2 hblocks l hnodes

end

mutual

theorem nodeLeaves_floatFree :
    ∀ (node : Node) {blocks : List (Bytes × Option Bytes)}, node.AllValues Value.FloatFree →
      ∀ l ∈ node.leaves blocks, ∀ v, l.payload = .scalar v → v.FloatFree
  | .assignment path v, blocks, hfloat, l, hl, w, hw => by
      obtain ⟨leaf, hleaf, rfl⟩ := List.mem_map.mp hl
      cases hw
      exact (leaves_all v hfloat (fun _ _ => trivial) leaf hleaf).1.2
  | .block name label children, blocks, hfloat, l, hl, w, hw =>
      nodesLeaves_floatFree children hfloat l hl w hw
  | .include file, blocks, _, l, hl, w, hw => by
      cases List.mem_singleton.mp hl
      cases hw

theorem nodesLeaves_floatFree :
    ∀ (nodes : List Node) {blocks : List (Bytes × Option Bytes)}, AllNodes Value.FloatFree nodes →
      ∀ l ∈ nodesLeaves blocks nodes, ∀ v, l.payload = .scalar v → v.FloatFree
  | node :: nodes, blocks, hfloat, l, hl, w, hw => by
      obtain hnode | hnodes := List.mem_append.mp hl
      · exact nodeLeaves_floatFree node hfloat.1 l hnode w hw
      · exact nodesLeaves_floatFree nodes hfloat.2 l hnodes w hw

end

end Bytewright.Cfgscript
