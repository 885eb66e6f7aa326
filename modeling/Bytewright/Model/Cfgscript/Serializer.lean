import Bytewright.Model.Cfgscript.Document

/-! The canonical serializer: a document back into source text. -/

namespace Bytewright.Cfgscript

open Bytewright.Common

structure SerializeOptions where
  /-- Spaces per indentation level; below zero there are none. -/
  indentWidth : Int := 2
  /-- The most elements an aggregate on one line has. -/
  inlineThreshold : Nat := 4
  deriving DecidableEq, Repr

/-- The lower-case hex digit of a number below 16. -/
def hexDigit (d : Nat) : UInt8 := UInt8.ofNat (if d < 10 then 48 + d else 87 + d)

/-- How a byte of a string is spelled between quotes. -/
def escapeByte (c : UInt8) : Bytes :=
  if c = ch '\\' then [ch '\\', ch '\\']
  else if c = ch '\"' then [ch '\\', ch '\"']
  else if c = 0x0A then [ch '\\', ch 'n']
  else if c = 0x0D then [ch '\\', ch 'r']
  else if c = 0x09 then [ch '\\', ch 't']
  else if c < 0x20 ∨ c ≥ 0x7F then
    [ch '\\', ch 'x', hexDigit (c.toNat / 16), hexDigit (c.toNat % 16)]
  else [c]

def escapeString (s : Bytes) : Bytes := s.flatMap escapeByte

def quoted (s : Bytes) : Bytes := ascii "\"" ++ escapeString s ++ ascii "\""

def indent (depth : Nat) (opts : SerializeOptions) : Bytes :=
  List.replicate (depth * opts.indentWidth.toNat) (ch ' ')

mutual

def renderValue (opts : SerializeOptions) (depth : Nat) : Value → Bytes
  | .null => ascii "null"
  | .bool b => ascii (if b then "true" else "false")
  | .int i => intBytes i
  | .float f => f.toBytes
  | .str s => quoted s
  | .array [] => ascii "[]"
  | .array (v :: vs) =>
    if (v :: vs).length ≤ opts.inlineThreshold then
      ascii "[" ++ (renderValue opts depth v ++ renderElements opts depth vs) ++ ascii "]"
    else ascii "[\n" ++ renderElementLines opts (depth + 1) (v :: vs) ++ indent depth opts ++ ascii "]"
  | .object [] => ascii "\x7b\x7d"
  | .object ((key, v) :: fields) =>
    if ((key, v) :: fields).length ≤ opts.inlineThreshold then
      ascii "\x7b " ++ (key ++ ascii " = " ++ renderValue opts depth v ++ ascii ";" ++
        renderFields opts depth fields) ++ ascii " \x7d"
    else
      ascii "\x7b\n" ++ renderFieldLines opts (depth + 1) ((key, v) :: fields) ++
        indent depth opts ++ ascii "\x7d"

/-- The elements of an array on one line, behind its first. -/
def renderElements (opts : SerializeOptions) (depth : Nat) : List Value → Bytes
  | [] => []
  | v :: vs => ascii ", " ++ renderValue opts depth v ++ renderElements opts depth vs

/-- Elements with a line each. -/
def renderElementLines (opts : SerializeOptions) (depth : Nat) : List Value → Bytes
  | [] => []
  | v :: vs =>
    indent depth opts ++ renderValue opts depth v ++ ascii ",\n" ++ renderElementLines opts depth vs

/-- The members of an object on one line, behind its first. -/
def renderFields (opts : SerializeOptions) (depth : Nat) : List (Bytes × Value) → Bytes
  | [] => []
  | (key, v) :: fields =>
    ascii " " ++ (key ++ ascii " = " ++ renderValue opts depth v ++ ascii ";") ++
      renderFields opts depth fields

/-- Members with a line each. -/
def renderFieldLines (opts : SerializeOptions) (depth : Nat) : List (Bytes × Value) → Bytes
  | [] => []
  | (key, v) :: fields =>
    indent depth opts ++ (key ++ ascii " = " ++ renderValue opts depth v ++ ascii ";\n") ++
      renderFieldLines opts depth fields

end

/-- `render_path`: the components with dots between them. -/
def renderPath : List Bytes → Bytes
  | [] => []
  | name :: path => name ++ path.flatMap fun part => ascii "." ++ part

def renderLabel : Option Bytes → Bytes
  | none => []
  | some label => ascii " " ++ quoted label

mutual

def renderNode (opts : SerializeOptions) (depth : Nat) : Node → Bytes
  | .assignment path value =>
    indent depth opts ++ renderPath path ++ ascii " = " ++ renderValue opts depth value ++ ascii ";\n"
  | .block name label children =>
    indent depth opts ++ name ++ renderLabel label ++
      (if children.isEmpty then ascii " \x7b\x7d\n"
      else ascii " \x7b\n" ++ renderNodes opts (depth + 1) children ++ indent depth opts ++
        ascii "\x7d\n")
  | .include path => indent depth opts ++ ascii "include " ++ quoted path ++ ascii ";\n"

def renderNodes (opts : SerializeOptions) (depth : Nat) : List Node → Bytes
  | [] => []
  | node :: nodes => renderNode opts depth node ++ renderNodes opts depth nodes

end

def serializeValue (value : Value) (opts : SerializeOptions) : Bytes := renderValue opts 0 value

def serialize (doc : Document) (opts : SerializeOptions) : Bytes := renderNodes opts 0 doc.nodes

end Bytewright.Cfgscript
