import Bytewright.Model.Cfgscript.Query

/-! Schemas: rules for the paths of a document, and what of a document breaks them. -/

namespace Bytewright.Cfgscript

open Bytewright.Common

inductive ValueType where
  | kNull
  | kBool
  | kInt
  | kFloat
  | kStr
  | kArray
  | kObject
  deriving DecidableEq, Repr

def valueTypeName : ValueType → Bytes
  | .kNull => ascii "null"
  | .kBool => ascii "bool"
  | .kInt => ascii "int"
  | .kFloat => ascii "float"
  | .kStr => ascii "string"
  | .kArray => ascii "array"
  | .kObject => ascii "object"

/-- The member `type`. -/
def Value.type : Value → ValueType
  | null => .kNull
  | bool _ => .kBool
  | int _ => .kInt
  | float _ => .kFloat
  | str _ => .kStr
  | array _ => .kArray
  | object _ => .kObject

/-! ### Rules -/

structure FieldRule where
  path : Bytes := []
  type : ValueType := .kStr
  required : Bool := true
  hasMin : Bool := false
  minValue : Double := {}
  hasMax : Bool := false
  maxValue : Double := {}
  /-- If not empty, the strings that are allowed. -/
  allowed : List Bytes := []
  deriving DecidableEq, Repr

structure Schema where
  rules : List FieldRule := []
  deriving DecidableEq, Repr

namespace Schema

def require (schema : Schema) (path : Bytes) (type : ValueType) : Schema :=
  { rules := schema.rules ++ [{ path, type, required := true }] }

def optional (schema : Schema) (path : Bytes) (type : ValueType) : Schema :=
  { rules := schema.rules ++ [{ path, type, required := false }] }

/-- The bounds are those of the rule added last, if there is one. -/
def range (schema : Schema) (minValue maxValue : Double) : Schema :=
  { rules := schema.rules.modifyLast fun rule =>
      { rule with hasMin := true, minValue, hasMax := true, maxValue } }

def enumValues (schema : Schema) (values : List Bytes) : Schema :=
  { rules := schema.rules.modifyLast fun rule => { rule with allowed := values } }

end Schema

/-! ### Validation -/

inductive ViolationKind where
  | kMissingRequired
  | kTypeMismatch
  | kBelowMinimum
  | kAboveMaximum
  | kNotAllowed
  deriving DecidableEq, Repr

structure Violation where
  kind : ViolationKind
  path : Bytes
  message : Bytes
  deriving DecidableEq, Repr

/-- An integer may stand where a float is asked for. -/
def typeMatches (value : Value) (expected : ValueType) : Bool :=
  if value.type = expected then true else expected = .kFloat && value.type = .kInt

def checkRange (rule : FieldRule) (value : Value) (out : List Violation) : List Violation :=
  if !value.isNumber then out
  else
    let n := value.asDouble
    let out :=
      if rule.hasMin && n.lt rule.minValue then
        out ++ [{
          kind := .kBelowMinimum
          path := rule.path
          message := ascii "value " ++ n.toBytes ++ ascii " is below minimum " ++ rule.minValue.toBytes }]
      else out
    if rule.hasMax && rule.maxValue.lt n then
      out ++ [{
        kind := .kAboveMaximum
        path := rule.path
        message := ascii "value " ++ n.toBytes ++ ascii " is above maximum " ++ rule.maxValue.toBytes }]
    else out

def checkAllowed (rule : FieldRule) (value : Value) (out : List Violation) : List Violation :=
  match value with
  | .str s =>
    if rule.allowed.isEmpty || rule.allowed.contains s then out
    else
      out ++ [{
        kind := .kNotAllowed
        path := rule.path
        message := ascii "value \"" ++ s ++ ascii "\" is not an allowed option" }]
  | _ => out

/-- One round of `validate`. Behind a mismatch of the types nothing else is checked. -/
def validateRule (doc : Document) (out : List Violation) (rule : FieldRule) : List Violation :=
  match query doc rule.path with
  | none =>
    if rule.required then
      out ++ [{
        kind := .kMissingRequired
        path := rule.path
        message := ascii "required path is absent" }]
    else out
  | some value =>
    if typeMatches value rule.type then checkAllowed rule value (checkRange rule value out)
    else
      out ++ [{
        kind := .kTypeMismatch
        path := rule.path
        message := ascii "expected " ++ valueTypeName rule.type ++ ascii " but found " ++
          valueTypeName value.type }]

def validate (doc : Document) (schema : Schema) : List Violation :=
  schema.rules.foldl (validateRule doc) []

end Bytewright.Cfgscript
