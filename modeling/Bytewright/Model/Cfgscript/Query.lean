import Bytewright.Model.Cfgscript.Document

/-! Path queries: a dotted path into steps, and the steps through a document. -/

namespace Bytewright.Cfgscript

open Bytewright.Common

inductive Step where
  | name (name : Bytes)
  | index (index : UInt64)
  deriving DecidableEq, Repr

/-! ### Tokenizing a path -/

/-- The number the digits of an index spell, in the arithmetic of `std::size_t`. -/
def indexValue (digits : Bytes) : UInt64 :=
  digits.foldl (fun value c => value * 10 + UInt64.ofNat (c.toNat - (ch '0').toNat)) 0

/-- One round of `tokenize` from a `[` on: the index step and what is behind its `]`. -/
def tokenizeIndex (path : Bytes) : Option (Step × Bytes) :=
  let digits := path.takeWhile isDigit
  match path.dropWhile isDigit with
  | [] => none
  | c :: rest => if digits = [] ∨ c ≠ ch ']' then none else some (.index (indexValue digits), rest)

/-- The bytes of a name. -/
def isNameByte (c : UInt8) : Bool := c ≠ ch '.' && c ≠ ch '['

/-- One round of `tokenize` on what is left of the path. `first` says that there is no step yet. -/
def tokenizeStep (first : Bool) (path : Bytes) : Option (Step × Bytes) :=
  let dotted := path.head? = some (ch '.')
  let path := if dotted then path.tail else path
  -- a dot separates two steps and stands neither first nor last
  if dotted ∧ (first ∨ path = []) then none
  else if path.head? = some (ch '[') then if first then none else tokenizeIndex path.tail
  else
    let name := path.takeWhile isNameByte
    if name = [] then none else some (.name name, path.dropWhile isNameByte)

/-- The loop of `tokenize`. Every round takes a byte. -/
def tokenizeLoop : (fuel : Nat) → (first : Bool) → (path : Bytes) → Option (List Step)
  | 0, _, _ => none
  | fuel + 1, first, path =>
    if path = [] then some []
    else do
      let (step, rest) ← tokenizeStep first path
      return step :: (← tokenizeLoop fuel false rest)

def tokenize (path : Bytes) : Option (List Step) := tokenizeLoop (path.length + 1) true path

/-! ### Walking -/

/-- The member of an object: the first of its name. -/
def member? (fields : List (Bytes × Value)) (name : Bytes) : Option Value := fields.lookup name

def walkValue (v : Value) : List Step → Option Value
  | [] => some v
  | .index i :: steps =>
    match v with
    | .array elements =>
      match elements[i.toNat]? with
      | some v => walkValue v steps
      | none => none
    | _ => none
  | .name name :: steps =>
    match v with
    | .object fields =>
      match member? fields name with
      | some v => walkValue v steps
      | none => none
    | _ => none

/-- The steps behind an assignment path that they begin with. -/
def matchAssignmentPath : (path : List Bytes) → (steps : List Step) → Option (List Step)
  | [], steps => some steps
  | part :: path, .name name :: steps => if name = part then matchAssignmentPath path steps else none
  | _ :: _, _ => none

/-- The first assignment whose path the steps begin with. Its value settles the walk. -/
def walkAssignments (steps : List Step) : List Node → Option Value
  | [] => none
  | .assignment path value :: nodes =>
    if path = [] then walkAssignments steps nodes
    else
      match matchAssignmentPath path steps with
      | some steps => walkValue value steps
      | none => walkAssignments steps nodes
  | _ :: nodes => walkAssignments steps nodes

mutual

/-- The first block of that name in which the walk finds something. -/
def walkBlocks (name : Bytes) (steps : List Step) : List Node → Option Value
  | [] => none
  | node :: nodes =>
    match walkBlock name steps node with
    | some v => some v
    | none => walkBlocks name steps nodes

def walkBlock (name : Bytes) (steps : List Step) : Node → Option Value
  | .block blockName _ children =>
    if blockName = name then
      match steps with
      | .name name' :: steps' =>
        match walkBlocks name' steps' children with
        | some v => some v
        | none => walkAssignments (.name name' :: steps') children
      | _ => none
    else none
  | _ => none

end

/-- `walk_nodes`: blocks are preferred over assignments. -/
def walkNodes (steps : List Step) (nodes : List Node) : Option Value :=
  match steps with
  | .name name :: steps' =>
    match walkBlocks name steps' nodes with
    | some v => some v
    | none => walkAssignments (.name name :: steps') nodes
  | _ => none

/-- `query`. With no steps at all there is nothing to find. -/
def query (doc : Document) (path : Bytes) : Option Value :=
  match tokenize path with
  | some steps => walkNodes steps doc.nodes
  | none => none

end Bytewright.Cfgscript
