import Bytewright.Model.Cfgscript.Token

/-! The hand-written scanner over a byte buffer. -/

namespace Bytewright.Cfgscript

open Bytewright.Common Bytewright.Library

/-- The byte of an ASCII character of the source. -/
abbrev ch (c : Char) : UInt8 := c.toUInt8

/-- The scanner's cursor. `rest` holds the bytes from `pos_` to the end of the buffer. -/
structure Lexer where
  rest : Bytes
  pos : Nat := 0
  line : Nat := 1
  column : Nat := 1
  deriving DecidableEq, Repr

abbrev Scan := Action Lexer

/-! ### Character classes -/

def isDigit (c : UInt8) : Bool := ch '0' ≤ c && c ≤ ch '9'

def isIdentStart (c : UInt8) : Bool :=
  (ch 'A' ≤ c && c ≤ ch 'Z') || (ch 'a' ≤ c && c ≤ ch 'z') || c == ch '_'

def isIdentPart (c : UInt8) : Bool := isIdentStart c || isDigit c

def isHexDigit (c : UInt8) : Bool :=
  isDigit c || (ch 'a' ≤ c && c ≤ ch 'f') || (ch 'A' ≤ c && c ≤ ch 'F')

/-- The value of a hex digit. -/
def hexValue (c : UInt8) : Nat :=
  if isDigit c then c.toNat - (ch '0').toNat
  else if ch 'a' ≤ c && c ≤ ch 'f' then c.toNat - (ch 'a').toNat + 10
  else c.toNat - (ch 'A').toNat + 10

def isSpace (c : UInt8) : Bool :=
  c == ch ' ' || c == ch '\t' || c == ch '\r' || c == ch '\n' || c == 0x0C || c == 0x0B

/-! ### The cursor -/

namespace Lexer

def peek (l : Lexer) (ahead : Nat := 0) : UInt8 := l.rest.getD ahead 0

def atEnd (l : Lexer) : Bool := l.rest.isEmpty

/-- The cursor behind `c`, the first byte of what was left. -/
def forward (l : Lexer) (c : UInt8) (rest : Bytes) : Lexer :=
  if c = ch '\n' then { rest, pos := l.pos + 1, line := l.line + 1, column := 1 }
  else { rest, pos := l.pos + 1, line := l.line, column := l.column + 1 }

/-- The bytes of `rest` up to the first that is not in `p`, and the cursor behind them. -/
def scanWhile (p : UInt8 → Bool) : Bytes → Lexer → Bytes × Lexer
  | [], l => ([], l)
  | c :: rest, l =>
    if p c then
      let (bs, l) := scanWhile p rest (l.forward c rest)
      (c :: bs, l)
    else ([], l)

/-- The body of a block comment: whether it is closed, and the cursor behind it. -/
def scanComment : Bytes → Lexer → Bool × Lexer
  | [], l => (false, l)
  | [c], l => (false, l.forward c [])
  | c :: d :: rest, l =>
    if c = ch '*' ∧ d = ch '/' then (true, (l.forward c (d :: rest)).forward d rest)
    else scanComment (d :: rest) (l.forward c (d :: rest))

end Lexer

/-- Consume one byte. Nothing stops a call at the end of the buffer. -/
def advance : Scan UInt8 := do
  let l ← get
  match l.rest with
  | [] => throw .undefined
  | c :: rest =>
    set (l.forward c rest)
    return c

/-- A loop that advances over the bytes in `p`: the bytes it went over. -/
def advanceWhile (p : UInt8 → Bool) : Scan Bytes := do
  let l ← get
  let (bs, l) := l.scanWhile p l.rest
  set l
  return bs

/-- `Lexer::error`: the message names the line and column the cursor is at. -/
def lexError {α : Type} (at_ : Nat) (msg : String) : Scan α := do
  let l ← get
  raise .kBadType at_
    (msg ++ " (line " ++ toString l.line ++ ", column " ++ toString l.column ++ ")")

/-! ### Trivia -/

/-- The loop of `skip_trivia`, for at most `fuel` rounds. -/
def skipTriviaLoop : (fuel : Nat) → Scan Unit
  | 0 => throw .diverged
  | fuel + 1 => do
    let l ← get
    if l.atEnd then return ()
    let c := l.peek
    if isSpace c then
      let _ ← advance
      skipTriviaLoop fuel
    else if c = ch '#' then
      let _ ← advanceWhile (· ≠ ch '\n')
      skipTriviaLoop fuel
    else if c = ch '/' ∧ l.peek 1 = ch '/' then
      let _ ← advance
      let _ ← advance
      let _ ← advanceWhile (· ≠ ch '\n')
      skipTriviaLoop fuel
    else if c = ch '/' ∧ l.peek 1 = ch '*' then
      let start := l.pos
      let _ ← advance
      let _ ← advance
      let l ← get
      let (closed, l) := Lexer.scanComment l.rest l
      set l
      if !closed then lexError start "unterminated block comment"
      skipTriviaLoop fuel
    else return ()

/-- Every round but the last consumes a byte. -/
def skipTrivia : Scan Unit := do
  skipTriviaLoop ((← get).rest.length + 1)

/-! ### Names and numbers -/

def keyword? (word : Bytes) : Option TokenKind :=
  if word = ascii "true" then some .kTrue
  else if word = ascii "false" then some .kFalse
  else if word = ascii "null" then some .kNull
  else if word = ascii "include" then some .kInclude
  else none

def lexIdentOrKeyword : Scan Token := do
  let offset := (← get).pos
  let word ← advanceWhile isIdentPart
  return { kind := (keyword? word).getD .kIdent, offset, text := word }

/-- The number a string of hex digits spells, modulo `2 ^ 64`. -/
def hexAccumulate (digits : Bytes) : UInt64 :=
  digits.foldl (fun acc c => acc * 16 + UInt64.ofNat (hexValue c)) 0

def lexHex : Scan Token := do
  let start := (← get).pos
  let _ ← advance
  let _ ← advance
  let digits ← advanceWhile isHexDigit
  if digits = [] then lexError start "hex literal has no digits"
  return { kind := .kInt, offset := start, intValue := (hexAccumulate digits).toInt64 }

/-- The fractional digits, if a `.` with a digit behind it is next. -/
def lexFraction : Scan (Option Bytes) := do
  let l ← get
  if !l.atEnd && l.peek == ch '.' && isDigit (l.peek 1) then
    let _ ← advance
    return some (← advanceWhile isDigit)
  else return none

/-- The exponent, if an `e`, a sign or none, and a digit are next. -/
def lexExponent : Scan (Option Int) := do
  let l ← get
  if !l.atEnd && (l.peek == ch 'e' || l.peek == ch 'E') then
    let look := if l.peek 1 == ch '+' || l.peek 1 == ch '-' then 2 else 1
    if isDigit (l.peek look) then
      let _ ← advance
      let sign := (← get).peek
      if sign == ch '+' || sign == ch '-' then
        let _ ← advance
      let digits ← advanceWhile isDigit
      let magnitude : Int := decimalValue digits
      return some (if sign == ch '-' then -magnitude else magnitude)
    else return none
  else return none

def kNumberRange : String := "numeric literal out of range"

/-- A decimal literal, by its integer digits, fraction and exponent: `std::stoll` or `std::stod`. -/
def decimalToken (start : Nat) (digits : Bytes) (fraction : Option Bytes) (exponent : Option Int) :
    Scan Token := do
  if fraction = none ∧ exponent = none then
    if decimalValue digits ≥ 2 ^ 63 then raise .kBadLength start kNumberRange
    return { kind := .kInt, offset := start, intValue := Int64.ofNat (decimalValue digits) }
  else
    let fractionDigits := fraction.getD []
    let some value := Double.ofDecimal? (decimalValue (digits ++ fractionDigits))
        (exponent.getD 0 - fractionDigits.length)
      | raise .kBadLength start kNumberRange
    return { kind := .kFloat, offset := start, floatValue := value }

def lexNumber : Scan Token := do
  let l ← get
  if l.peek = ch '0' ∧ (l.peek 1 = ch 'x' ∨ l.peek 1 = ch 'X') then lexHex
  else
    let start := l.pos
    let digits ← advanceWhile isDigit
    let fraction ← lexFraction
    let exponent ← lexExponent
    decimalToken start digits fraction exponent

/-! ### Strings -/

/-- `append_utf8`: the UTF-8 encoding of a code point. -/
def utf8Bytes (cp : UInt32) (errOffset : Nat) : Scan Bytes := do
  if cp > 0x10FFFF ∨ (cp ≥ 0xD800 ∧ cp ≤ 0xDFFF) then
    lexError errOffset "invalid Unicode code point"
  let low (shift : UInt32) : UInt8 := ((0x80 : UInt32) ||| ((cp >>> shift) &&& 0x3F)).toUInt8
  if cp ≤ 0x7F then return [cp.toUInt8]
  else if cp ≤ 0x7FF then return [((0xC0 : UInt32) ||| (cp >>> 6)).toUInt8, low 0]
  else if cp ≤ 0xFFFF then return [((0xE0 : UInt32) ||| (cp >>> 12)).toUInt8, low 6, low 0]
  else return [((0xF0 : UInt32) ||| (cp >>> 18)).toUInt8, low 12, low 6, low 0]

/-- `\xHH`: exactly two hex digits make one raw byte. -/
def lexHexEscape (esc : Nat) : Scan Bytes := do
  let l ← get
  if !isHexDigit l.peek || !isHexDigit (l.peek 1) then
    lexError esc "\\x escape needs two hex digits"
  let hi ← advance
  let lo ← advance
  return [UInt8.ofNat (16 * hexValue hi + hexValue lo)]

/-- The digit loop of a `\u` escape. The seventh digit is one too many, so `left` of seven rounds
are enough. -/
def unicodeLoop (esc : Nat) : (left : Nat) → (cp : UInt32) → (count : Nat) → Scan (UInt32 × Nat)
  | 0, _, _ => throw .diverged
  | left + 1, cp, count => do
    let l ← get
    if !l.atEnd && isHexDigit l.peek then
      let c ← advance
      let cp := cp * 16 + UInt32.ofNat (hexValue c)
      if count + 1 > 6 then lexError esc "\\u escape has too many digits"
      unicodeLoop esc left cp (count + 1)
    else return (cp, count)

def lexUnicodeEscape (esc : Nat) : Scan Bytes := do
  if (← get).peek ≠ ch '{' then lexError esc "\\u escape needs '\x7b'"
  let _ ← advance
  let (cp, count) ← unicodeLoop esc 7 0 0
  if count = 0 then lexError esc "\\u escape needs at least one hex digit"
  let l ← get
  if l.atEnd || l.peek ≠ ch '}' then lexError esc "\\u escape needs '\x7d'"
  let _ ← advance
  utf8Bytes cp esc

/-- The byte a one-letter escape stands for. -/
def simpleEscape? (e : UInt8) : Option UInt8 :=
  if e = ch 'n' then some 0x0A
  else if e = ch 't' then some 0x09
  else if e = ch 'r' then some 0x0D
  else if e = ch '0' then some 0x00
  else if e = ch '\\' then some (ch '\\')
  else if e = ch '\"' then some (ch '\"')
  else none

/-- An escape sequence, from its backslash on. -/
def lexEscape : Scan Bytes := do
  let esc := (← get).pos
  let _ ← advance
  if (← get).atEnd then lexError esc "unterminated escape sequence"
  let e ← advance
  match simpleEscape? e with
  | some b => return [b]
  | none =>
    if e = ch 'x' then lexHexEscape esc
    else if e = ch 'u' then lexUnicodeEscape esc
    else lexError esc "unknown escape sequence"

/-- The loop of `lex_string` behind the quote at `opening`, for at most `fuel` rounds: what is
appended to the payload. -/
def lexStringLoop (opening : Nat) : (fuel : Nat) → Scan Bytes
  | 0 => throw .diverged
  | fuel + 1 => do
    let l ← get
    if l.atEnd then lexError opening "unterminated string literal"
    let c := l.peek
    if c = ch '\"' then
      let _ ← advance
      return []
    else if c = ch '\n' then
      lexError l.pos "unterminated string literal (newline in string)"
    else if c ≠ ch '\\' then
      let _ ← advance
      return c :: (← lexStringLoop opening fuel)
    else
      let bs ← lexEscape
      return bs ++ (← lexStringLoop opening fuel)

def lexString : Scan Token := do
  let opening := (← get).pos
  let _ ← advance
  let text ← lexStringLoop opening ((← get).rest.length + 1)
  return { kind := .kString, offset := opening, text }

/-! ### The next token -/

/-- The punctuator or operator that begins with `c`, when `d` is next, and whether `d` belongs
to it. -/
def punctuator? (c d : UInt8) : Option (TokenKind × Bool) :=
  if c = ch '{' then some (.kLBrace, false)
  else if c = ch '}' then some (.kRBrace, false)
  else if c = ch '[' then some (.kLBracket, false)
  else if c = ch ']' then some (.kRBracket, false)
  else if c = ch '(' then some (.kLParen, false)
  else if c = ch ')' then some (.kRParen, false)
  else if c = ch ';' then some (.kSemicolon, false)
  else if c = ch ',' then some (.kComma, false)
  else if c = ch '.' then some (.kDot, false)
  else if c = ch '?' then some (.kQuestion, false)
  else if c = ch ':' then some (.kColon, false)
  else if c = ch '+' then some (.kPlus, false)
  else if c = ch '-' then some (.kMinus, false)
  else if c = ch '*' then some (.kStar, false)
  else if c = ch '/' then some (.kSlash, false)
  else if c = ch '%' then some (.kPercent, false)
  else if c = ch '^' then some (.kCaret, false)
  else if c = ch '~' then some (.kTilde, false)
  else if c = ch '=' then some (if d = ch '=' then (.kEq, true) else (.kAssign, false))
  else if c = ch '!' then some (if d = ch '=' then (.kNe, true) else (.kBang, false))
  else if c = ch '<' then
    some (if d = ch '<' then (.kShl, true) else if d = ch '=' then (.kLe, true) else (.kLt, false))
  else if c = ch '>' then
    some (if d = ch '>' then (.kShr, true) else if d = ch '=' then (.kGe, true) else (.kGt, false))
  else if c = ch '&' then some (if d = ch '&' then (.kAndAnd, true) else (.kAmp, false))
  else if c = ch '|' then some (if d = ch '|' then (.kOrOr, true) else (.kPipe, false))
  else none

def lexPunctuator : Scan Token := do
  let start := (← get).pos
  let c ← advance
  match punctuator? c (← get).peek with
  | some (kind, two) =>
    if two then
      let _ ← advance
    return { kind, offset := start }
  | none => lexError start "unexpected character"

/-- What `Lexer::next` does behind the trivia. -/
def lexToken : Scan Token := do
  let l ← get
  if l.atEnd then return { kind := .kEof, offset := l.pos }
  let c := l.peek
  if isIdentStart c then lexIdentOrKeyword
  else if isDigit c then lexNumber
  else if c = ch '\"' then lexString
  else lexPunctuator

/-- `Lexer::next`. -/
def nextToken : Scan Token := do
  skipTrivia
  lexToken

end Bytewright.Cfgscript
