import Bytewright.Model.Cfgscript.Serializer

/-! Flattening a document into dotted paths with their scalars. -/

namespace Bytewright.Cfgscript

open Bytewright.Common Bytewright.Library

structure FlatEntry where
  path : Bytes
  value : Bytes
  deriving DecidableEq, Repr

/-- The stable text of a leaf. -/
def renderScalar : Value → Bytes
  | .null => ascii "null"
  | .bool b => ascii (if b then "true" else "false")
  | .int i => intBytes i
  | .float f => f.toBytes
  | .str s => quoted s
  | .array _ => ascii "[]"
  | .object _ => ascii "\x7b\x7d"

def joinPath (path leaf : Bytes) : Bytes :=
  if path.isEmpty then leaf else path ++ ascii "." ++ leaf

def joinIndex (path : Bytes) (index : Nat) : Bytes :=
  path ++ ascii "[" ++ decimal index ++ ascii "]"

mutual

/-- `flatten_into`. An empty aggregate is a leaf. -/
def flattenValue (path : Bytes) : Value → List FlatEntry
  | .array [] => [⟨path, ascii "[]"⟩]
  | .array (v :: vs) => flattenElements path 0 (v :: vs)
  | .object [] => [⟨path, ascii "\x7b\x7d"⟩]
  | .object (field :: fields) => flattenFields path (field :: fields)
  | v => [⟨path, renderScalar v⟩]

def flattenElements (path : Bytes) (index : Nat) : List Value → List FlatEntry
  | [] => []
  | v :: vs => flattenValue (joinIndex path index) v ++ flattenElements path (index + 1) vs

def flattenFields (path : Bytes) : List (Bytes × Value) → List FlatEntry
  | [] => []
  | (key, v) :: fields => flattenValue (joinPath path key) v ++ flattenFields path fields

end

/-- The component a block adds to the paths in it. -/
def blockPrefix (path name : Bytes) (label : Option Bytes) : Bytes :=
  joinPath path (match label with
    | none => name
    | some label => name ++ ascii "[" ++ label ++ ascii "]")

mutual

def flattenNode (path : Bytes) : Node → List FlatEntry
  | .assignment parts value => flattenValue (parts.foldl joinPath path) value
  | .block name label children => flattenNodes (blockPrefix path name label) children
  | .include file => [⟨joinPath path (ascii "include"), file⟩]

def flattenNodes (path : Bytes) : List Node → List FlatEntry
  | [] => []
  | node :: nodes => flattenNode path node ++ flattenNodes path nodes

end

def flatten (doc : Document) : List FlatEntry := flattenNodes [] doc.nodes

end Bytewright.Cfgscript
