import Bytewright.Model.Cfgscript.Parser

/-! Values, scopes, and the evaluation of an expression tree. -/

namespace Bytewright.Cfgscript

open Bytewright.Common Bytewright.Library

/-! ### Values -/

inductive Value where
  | null
  | bool (b : Bool)
  | int (i : Int64)
  | float (f : Double)
  | str (s : Bytes)
  | array (elements : List Value)
  | object (fields : List (Bytes × Value))
  deriving Repr

/-- `std::to_string` of an integer. -/
def intBytes (i : Int64) : Bytes :=
  if i < 0 then ascii "-" ++ decimal i.toInt.natAbs else decimal i.toInt.toNat

/-- The characters of a byte string, for a message. -/
def messageText (bs : Bytes) : String := String.ofList (bs.map fun b => Char.ofNat b.toNat)

namespace Value

def isNumber : Value → Bool
  | int _ | float _ => true
  | _ => false

def isFloat : Value → Bool
  | float _ => true
  | _ => false

def isStr : Value → Bool
  | str _ => true
  | _ => false

/-- `as_double`; the member `i` of a value that is no number is 0. -/
def asDouble : Value → Double
  | float f => f
  | int i => Double.ofInt64 i
  | _ => Double.ofInt64 0

/-- The member `i`, which is 0 unless the value is an integer. -/
def asInt : Value → Int64
  | int i => i
  | _ => 0

def truthy : Value → Bool
  | null => false
  | bool b => b
  | int i => i ≠ 0
  | float f => !f.eq {}
  | str s => !s.isEmpty
  | array elements => !elements.isEmpty
  | object fields => !fields.isEmpty

end Value

/-- Three-way comparison of numbers; two integers compare exactly. -/
def compareNumbers : Value → Value → Int
  | .int a, .int b => if a < b then -1 else if b < a then 1 else 0
  | a, b => if a.asDouble.lt b.asDouble then -1 else if b.asDouble.lt a.asDouble then 1 else 0

mutual

def valuesEqual : Value → Value → Bool
  | .null, .null => true
  | .bool a, .bool b => a == b
  | .str a, .str b => a == b
  | .array as, .array bs => elementsEqual as bs
  | .object as, .object bs => fieldsEqual as bs
  | .int a, .int b => compareNumbers (.int a) (.int b) = 0
  | .int a, .float b => compareNumbers (.int a) (.float b) = 0
  | .float a, .int b => compareNumbers (.float a) (.int b) = 0
  | .float a, .float b => compareNumbers (.float a) (.float b) = 0
  | _, _ => false

def elementsEqual : List Value → List Value → Bool
  | [], [] => true
  | a :: as, b :: bs => valuesEqual a b && elementsEqual as bs
  | _, _ => false

def fieldsEqual : List (Bytes × Value) → List (Bytes × Value) → Bool
  | [], [] => true
  | (j, a) :: as, (k, b) :: bs => j == k && valuesEqual a b && fieldsEqual as bs
  | _, _ => false

end

/-- `std::string::compare`, by its sign. -/
def compareBytes : Bytes → Bytes → Int
  | [], [] => 0
  | [], _ :: _ => -1
  | _ :: _, [] => 1
  | a :: as, b :: bs => if a < b then -1 else if b < a then 1 else compareBytes as bs

def toConcatString : Value → Bytes
  | .str s => s
  | .int i => intBytes i
  | .float f => f.toBytes
  | .bool b => ascii (if b then "true" else "false")
  | .null => ascii "null"
  | _ => []

/-! ### Scopes -/

/-- A chain of scopes, the innermost first. In a scope the latest binding of a name stands first. -/
abbrev Environment := List (List (Bytes × Value))

namespace Environment

/-- Bind, or rebind, a name in the innermost scope. -/
def define (env : Environment) (name : Bytes) (value : Value) : Environment :=
  match env with
  | [] => [[(name, value)]]
  | scope :: outer => ((name, value) :: scope) :: outer

/-- Resolve a name, walking outward. -/
def lookup (env : Environment) (name : Bytes) : Option Value :=
  env.findSome? (List.lookup name)

end Environment

/-! ### Operators -/

def evalError {α : Type} (code : ErrorCode) (at_ : Nat) (msg : String) : Outcome α :=
  throw (.thrown ⟨code, at_, msg⟩)

def requireInt (v : Value) (at_ : Nat) (op : String) : Outcome Int64 :=
  match v with
  | .int i => return i
  | _ => evalError .kBadType at_ ("operator '" ++ op ++ "' requires integer operands")

/-- `+`, `-` and `*`. On integers they wrap around. -/
def evalArith (op : TokenKind) (l r : Value) (at_ : Nat) : Outcome Value :=
  if op = .kPlus ∧ (l.isStr ∨ r.isStr) then return .str (toConcatString l ++ toConcatString r)
  else if !l.isNumber || !r.isNumber then
    evalError .kBadType at_ "arithmetic requires numeric operands"
  else if l.isFloat || r.isFloat then
    match op with
    | .kPlus => return .float (l.asDouble.add r.asDouble)
    | .kMinus => return .float (l.asDouble.sub r.asDouble)
    | .kStar => return .float (l.asDouble.mul r.asDouble)
    | _ => evalError .kBadType at_ "unsupported arithmetic operator"
  else
    match op with
    | .kPlus => return .int (l.asInt + r.asInt)
    | .kMinus => return .int (l.asInt - r.asInt)
    | .kStar => return .int (l.asInt * r.asInt)
    | _ => evalError .kBadType at_ "unsupported arithmetic operator"

/-- The least `std::int64_t`. -/
def kInt64Min : Int64 := -9223372036854775808

/-- `/` and `%`. Integer division truncates. -/
def evalDivMod (op : TokenKind) (l r : Value) (at_ : Nat) : Outcome Value :=
  if !l.isNumber || !r.isNumber then
    evalError .kBadType at_ "division requires numeric operands"
  else if l.isFloat || r.isFloat then
    if r.asDouble.eq {} then evalError .kStateViolation at_ "division by zero"
    else if op = .kSlash then return .float (l.asDouble.div r.asDouble)
    else evalError .kBadType at_ "'%' requires integer operands"
  else if r.asInt = 0 then
    evalError .kStateViolation at_ (if op = .kSlash then "division by zero" else "modulo by zero")
  else if r.asInt = -1 ∧ l.asInt = kInt64Min then
    return .int (if op = .kSlash then kInt64Min else 0)
  else if op = .kSlash then return .int (l.asInt / r.asInt)
  else return .int (l.asInt % r.asInt)

/-- `<<` and `>>`. The right shift keeps the sign. -/
def evalShift (op : TokenKind) (l r : Value) (at_ : Nat) : Outcome Value := do
  let a ← requireInt l at_ "shift"
  let b ← requireInt r at_ "shift"
  if b < 0 ∨ b > 63 then
    evalError .kStateViolation at_ "shift amount out of range"
  else if op = .kShl then return .int (a.toUInt64 <<< b.toUInt64).toInt64
  else return .int (a >>> b)

/-- `<`, `<=`, `>` and `>=`. -/
def evalCompare (op : TokenKind) (l r : Value) (at_ : Nat) : Outcome Value := do
  let cmp ← match l, r with
    | .str a, .str b => pure (compareBytes a b)
    | l, r =>
      if l.isNumber && r.isNumber then pure (compareNumbers l r)
      else evalError .kBadType at_ "comparison requires two numbers or two strings"
  match op with
  | .kLt => return .bool (cmp < 0)
  | .kLe => return .bool (cmp ≤ 0)
  | .kGt => return .bool (cmp > 0)
  | .kGe => return .bool (cmp ≥ 0)
  | _ => evalError .kBadType at_ "bad comparison"

/-- The operators that evaluate both operands. -/
def evalBinary (op : TokenKind) (l r : Value) (at_ : Nat) : Outcome Value :=
  match op with
  | .kPlus | .kMinus | .kStar => evalArith op l r at_
  | .kSlash | .kPercent => evalDivMod op l r at_
  | .kShl | .kShr => evalShift op l r at_
  | .kAmp => return .int ((← requireInt l at_ "&") &&& (← requireInt r at_ "&"))
  | .kCaret => return .int ((← requireInt l at_ "^") ^^^ (← requireInt r at_ "^"))
  | .kPipe => return .int ((← requireInt l at_ "|") ||| (← requireInt r at_ "|"))
  | .kEq => return .bool (valuesEqual l r)
  | .kNe => return .bool (!valuesEqual l r)
  | .kLt | .kLe | .kGt | .kGe => evalCompare op l r at_
  | _ => evalError .kBadType at_ "unsupported binary operator"

def evalUnary (op : TokenKind) (v : Value) (at_ : Nat) : Outcome Value :=
  match op with
  | .kMinus =>
    match v with
    | .int i => return .int (-i)
    | .float f => return .float f.neg
    | _ => evalError .kBadType at_ "unary '-' requires a number"
  | .kBang => return .bool (!v.truthy)
  | .kTilde => return .int (~~~(← requireInt v at_ "~"))
  | _ => evalError .kBadType at_ "unsupported unary operator"

/-! ### Expressions -/

def requireDepth (depth : Nat) (at_ : Nat) : Outcome Unit :=
  if depth > kMaxDepth then evalError .kDepthExceeded at_ "expression nested too deep" else return ()

mutual

def evaluate (env : Environment) (depth : Nat) : Expr → Outcome Value
  | .null offset => do
    requireDepth depth offset
    return .null
  | .bool offset value => do
    requireDepth depth offset
    return .bool value
  | .int offset value => do
    requireDepth depth offset
    return .int value
  | .float offset value => do
    requireDepth depth offset
    return .float value
  | .str offset value => do
    requireDepth depth offset
    return .str value
  | .ident offset name => do
    requireDepth depth offset
    match env.lookup name with
    | some value => return value
    | none =>
      evalError .kStateViolation offset ("unknown identifier '" ++ messageText name ++ "'")
  | .array offset elements => do
    requireDepth depth offset
    return .array (← evaluateElements env (depth + 1) elements)
  | .object offset fields => do
    requireDepth depth offset
    return .object (← evaluateFields env (depth + 1) fields)
  | .unary offset op operand => do
    requireDepth depth offset
    evalUnary op (← evaluate env (depth + 1) operand) offset
  | .ternary offset cond then_ else_ => do
    requireDepth depth offset
    if (← evaluate env (depth + 1) cond).truthy then evaluate env (depth + 1) then_
    else evaluate env (depth + 1) else_
  | .binary offset op lhs rhs => do
    requireDepth depth offset
    let l ← evaluate env (depth + 1) lhs
    -- the logical operators leave the right operand alone when the left one decides
    if op = .kAndAnd ∧ l.truthy = false then return .bool false
    else if op = .kOrOr ∧ l.truthy = true then return .bool true
    else
      let r ← evaluate env (depth + 1) rhs
      if op = .kAndAnd ∨ op = .kOrOr then return .bool r.truthy
      else evalBinary op l r offset

def evaluateElements (env : Environment) (depth : Nat) : List Expr → Outcome (List Value)
  | [] => return []
  | e :: es => return (← evaluate env depth e) :: (← evaluateElements env depth es)

def evaluateFields (env : Environment) (depth : Nat) :
    List (Bytes × Expr) → Outcome (List (Bytes × Value))
  | [] => return []
  | (key, e) :: fields =>
    return (key, ← evaluate env depth e) :: (← evaluateFields env depth fields)

end

end Bytewright.Cfgscript
