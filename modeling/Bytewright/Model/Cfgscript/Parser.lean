import Bytewright.Model.Cfgscript.Lexer

/-! The recursive-descent parser: statements, and expressions by precedence climbing. -/

namespace Bytewright.Cfgscript

open Bytewright.Common

/-! ### Syntax trees -/

/-- An expression node; `offset` is the byte it is reported at. -/
inductive Expr where
  | null (offset : Nat)
  | bool (offset : Nat) (value : Bool)
  | int (offset : Nat) (value : Int64)
  | float (offset : Nat) (value : Double)
  | str (offset : Nat) (value : Bytes)
  | ident (offset : Nat) (name : Bytes)
  | array (offset : Nat) (elements : List Expr)
  | object (offset : Nat) (fields : List (Bytes × Expr))
  | unary (offset : Nat) (op : TokenKind) (operand : Expr)
  | binary (offset : Nat) (op : TokenKind) (lhs rhs : Expr)
  | ternary (offset : Nat) (cond then_ else_ : Expr)
  deriving Repr

/-- A statement before evaluation. -/
inductive ParsedStatement where
  | assignment (offset : Nat) (path : List Bytes) (expr : Expr)
  | block (offset : Nat) (name : Bytes) (label : Option Bytes) (children : List ParsedStatement)
  | include (offset : Nat) (path : Bytes)
  deriving Repr

/-- The recursion limit that parser and evaluator share. -/
def kMaxDepth : Nat := 64

/-- The binding strength of a binary operator; `-1` for other tokens. -/
def binaryPrecedence : TokenKind → Int
  | .kStar | .kSlash | .kPercent => 11
  | .kPlus | .kMinus => 10
  | .kShl | .kShr => 9
  | .kLt | .kLe | .kGt | .kGe => 8
  | .kEq | .kNe => 7
  | .kAmp => 6
  | .kCaret => 5
  | .kPipe => 4
  | .kAndAnd => 3
  | .kOrOr => 2
  | _ => -1

/-! ### The token stream -/

/-- Where tokens come from: the scanner, for the parser of the source. `left` bounds how many are
to come before the end of the input. -/
class TokenSource (σ : Type) where
  next : Action σ Token
  left : σ → Nat

instance : TokenSource Lexer where
  next := nextToken
  left l := l.rest.length

/-- Tokens already scanned. -/
instance : TokenSource (List Token) where
  next := fun ts => .ok (ts.headD {}) ts.tail
  left ts := ts.length

/-- The parser: its token source and one token of lookahead. -/
structure Parser (σ : Type) where
  lexer : σ
  cur : Token
  deriving Repr

abbrev Parse (σ : Type) := Action (Parser σ)

/-- Rounds enough for any loop that takes a token in every round. -/
def Parser.fuel {σ : Type} [TokenSource σ] (p : Parser σ) : Nat := TokenSource.left p.lexer + 2

section Productions

variable {σ : Type} [TokenSource σ]

/-- Return the token of lookahead and read the next. -/
def take : Parse σ Token := fun p =>
  match TokenSource.next p.lexer with
  | .ok t l => .ok p.cur { lexer := l, cur := t }
  | .error e l => .error e { p with lexer := l }

def check (kind : TokenKind) : Parse σ Bool := return (← get).cur.kind = kind

def accept (kind : TokenKind) : Parse σ Bool := do
  if (← get).cur.kind = kind then
    let _ ← take
    return true
  return false

def expect (kind : TokenKind) (what : String) : Parse σ Token := do
  let cur := (← get).cur
  if cur.kind ≠ kind then
    raise .kBadType cur.offset ("expected " ++ what ++ ", found " ++ tokenKindName cur.kind)
  take

/-- What `check_depth` throws for a production entered too deep. -/
def tooDeep {α : Type} : Parse σ α := do
  raise .kDepthExceeded (← get).cur.offset "nesting too deep"

/-! ### Expressions

A production called at depth `d` calls others at the same depth or at `d + 1`. The productions at
one depth are defined from those one level deeper. -/

/-- The productions that a production calls one level deeper. -/
structure Deeper (σ : Type) where
  expr : Parse σ Expr
  unary : Parse σ Expr
  binary : (minPrec : Int) → Parse σ Expr

/-- The element loop of `parse_array`. -/
def parseElements (expr : Parse σ Expr) : (fuel : Nat) → Parse σ (List Expr)
  | 0 => throw .diverged
  | fuel + 1 => do
    let e ← expr
    if ← accept .kComma then
      -- a trailing comma is allowed before the closing bracket
      if ← check .kRBracket then return [e]
      return e :: (← parseElements expr fuel)
    return [e]

/-- The elements of an array, if there are any. -/
def parseElementList (expr : Parse σ Expr) : Parse σ (List Expr) := do
  if ← check .kRBracket then return []
  parseElements expr (← get).fuel

def parseArray (below : Deeper σ) (offset : Nat) : Parse σ Expr := do
  let _ ← expect .kLBracket "'['"
  let elements ← parseElementList below.expr
  let _ ← expect .kRBracket "']' to close array literal"
  return .array offset elements

/-- The member loop of `parse_object`. -/
def parseFields (expr : Parse σ Expr) (offset : Nat) : (fuel : Nat) → Parse σ (List (Bytes × Expr))
  | 0 => throw .diverged
  | fuel + 1 => do
    if ← check .kRBrace then return []
    if ← check .kEof then
      raise .kBadType offset "unterminated object literal (missing '\x7d')"
    if ← accept .kSemicolon then parseFields expr offset fuel
    else
      let key ← expect .kIdent "key identifier in object literal"
      let _ ← expect .kAssign "'=' after object key"
      let value ← expr
      let _ ← expect .kSemicolon "';' after object field"
      return (key.text, value) :: (← parseFields expr offset fuel)

def parseObject (below : Deeper σ) (offset : Nat) : Parse σ Expr := do
  let _ ← expect .kLBrace "'\x7b'"
  let fields ← parseFields below.expr offset (← get).fuel
  let _ ← expect .kRBrace "'\x7d' to close object literal"
  return .object offset fields

/-- A primary that is its token. -/
def leaf? (t : Token) : Option Expr :=
  match t.kind with
  | .kInt => some (.int t.offset t.intValue)
  | .kFloat => some (.float t.offset t.floatValue)
  | .kString => some (.str t.offset t.text)
  | .kTrue => some (.bool t.offset true)
  | .kFalse => some (.bool t.offset false)
  | .kNull => some (.null t.offset)
  | .kIdent => some (.ident t.offset t.text)
  | _ => none

def parsePrimary (below : Deeper σ) : Parse σ Expr := do
  let t := (← get).cur
  match leaf? t with
  | some node =>
    let _ ← take
    return node
  | none =>
    if t.kind = .kLParen then
      let _ ← take
      let inner ← below.expr
      let _ ← expect .kRParen "')' to close parenthesized expression"
      return inner
    else if t.kind = .kLBracket then parseArray below t.offset
    else if t.kind = .kLBrace then parseObject below t.offset
    else raise .kBadType t.offset ("expected an expression, found " ++ tokenKindName t.kind)

def isUnaryOp (kind : TokenKind) : Bool := kind = .kMinus || kind = .kBang || kind = .kTilde

def parseUnary (below : Deeper σ) : Parse σ Expr := do
  if isUnaryOp (← get).cur.kind then
    let op ← take
    let operand ← below.unary
    return .unary op.offset op.kind operand
  else parsePrimary below

/-- The operator loop of `parse_binary`. -/
def binaryLoop (below : Deeper σ) (minPrec : Int) : (fuel : Nat) → (lhs : Expr) → Parse σ Expr
  | 0, _ => throw .diverged
  | fuel + 1, lhs => do
    let prec := binaryPrecedence (← get).cur.kind
    if prec < minPrec then return lhs
    let op ← take
    -- every binary operator is left-associative
    let rhs ← below.binary (prec + 1)
    binaryLoop below minPrec fuel (.binary op.offset op.kind lhs rhs)

def parseBinary (below : Deeper σ) (minPrec : Int) : Parse σ Expr := do
  let lhs ← below.unary
  binaryLoop below minPrec (← get).fuel lhs

def parseTernary (below : Deeper σ) : Parse σ Expr := do
  let cond ← parseBinary below 1
  if ← check .kQuestion then
    let question ← take
    let then_ ← below.expr
    let _ ← expect .kColon "':' in ternary expression"
    let else_ ← below.expr
    return .ternary question.offset cond then_ else_
  return cond

/-- The productions at depth `kMaxDepth + 1 - room`. -/
def productions : (room : Nat) → Deeper σ
  | 0 => { expr := tooDeep, unary := tooDeep, binary := fun _ => tooDeep }
  | room + 1 =>
    let below := productions room
    { expr := parseTernary below, unary := parseUnary below, binary := parseBinary below }

def parseExpr (depth : Nat) : Parse σ Expr := (productions (kMaxDepth + 1 - depth)).expr

/-! ### Statements -/

/-- The statement loop of a block. -/
def parseChildren (statement : Parse σ ParsedStatement) (offset : Nat) :
    (fuel : Nat) → Parse σ (List ParsedStatement)
  | 0 => throw .diverged
  | fuel + 1 => do
    if ← check .kRBrace then return []
    if ← check .kEof then
      raise .kBadType offset "unterminated block (missing '\x7d')"
    if ← accept .kSemicolon then parseChildren statement offset fuel
    else return (← statement) :: (← parseChildren statement offset fuel)

/-- `parse_block`, up to the label that its caller adds. -/
def parseBlock (statement : Parse σ ParsedStatement) (offset : Nat) :
    Parse σ (List ParsedStatement) := do
  let _ ← expect .kLBrace "'\x7b' to open block"
  let children ← parseChildren statement offset (← get).fuel
  let _ ← expect .kRBrace "'\x7d' to close block"
  return children

def parseAssignment (path : List Bytes) (offset : Nat) : Parse σ ParsedStatement := do
  let _ ← expect .kAssign "'=' in assignment"
  let expr ← parseExpr 1
  let _ ← expect .kSemicolon "';' after assignment"
  return .assignment offset path expr

/-- The components of a dotted path behind its first. -/
def parsePath : (fuel : Nat) → Parse σ (List Bytes)
  | 0 => throw .diverged
  | fuel + 1 => do
    if ← accept .kDot then
      let part ← expect .kIdent "identifier after '.'"
      return part.text :: (← parsePath fuel)
    return []

/-- `parse_statement`; `nested` parses a statement of a block. -/
def parseStatementWith (nested : Parse σ ParsedStatement) : Parse σ ParsedStatement := do
  let offset := (← get).cur.offset
  if ← check .kInclude then
    let _ ← take
    let path ← expect .kString "string path after 'include'"
    let _ ← expect .kSemicolon "';' after include path"
    return .include offset path.text
  let first ← expect .kIdent "identifier at start of statement"
  if ← check .kString then
    let label ← take
    let cur := (← get).cur
    if cur.kind ≠ .kLBrace then
      raise .kBadType cur.offset "expected '\x7b' after block label"
    return .block offset first.text (some label.text) (← parseBlock nested offset)
  if ← check .kLBrace then
    return .block offset first.text none (← parseBlock nested offset)
  let path ← parsePath (← get).fuel
  parseAssignment (first.text :: path) offset

/-- `parse_statement` at depth `kMaxDepth + 1 - room`. -/
def parseStatementIn : (room : Nat) → Parse σ ParsedStatement
  | 0 => tooDeep
  | room + 1 => parseStatementWith (parseStatementIn room)

def parseStatement (depth : Nat) : Parse σ ParsedStatement :=
  parseStatementIn (kMaxDepth + 1 - depth)

/-- The loop of `parse_document`. -/
def parseStatements : (fuel : Nat) → Parse σ (List ParsedStatement)
  | 0 => throw .diverged
  | fuel + 1 => do
    if ← check .kEof then return []
    if ← accept .kSemicolon then parseStatements fuel
    else return (← parseStatement 1) :: (← parseStatements fuel)

def parseDocument : Parse σ (List ParsedStatement) := do
  parseStatements (← get).fuel

/-- A parser on a token source, its first token read. -/
def Parser.start (s : σ) : Outcome (Parser σ) :=
  match TokenSource.next s with
  | .ok t l => .ok { lexer := l, cur := t }
  | .error e _ => .error e

end Productions

/-- `Parser(data, size).parse_document()`. -/
def parseSource (data : Bytes) : Outcome (List ParsedStatement) := do
  let p ← Parser.start ({ rest := data } : Lexer)
  match parseDocument p with
  | .ok stmts _ => return stmts
  | .error e _ => throw e

end Bytewright.Cfgscript
