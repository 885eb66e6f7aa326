import Bytewright.Model.Common.Double

/-! The token model. -/

namespace Bytewright.Cfgscript

open Bytewright.Common

inductive TokenKind where
  | kEof
  -- literals and names
  | kIdent
  | kInt
  | kFloat
  | kString
  -- keywords
  | kTrue
  | kFalse
  | kNull
  | kInclude
  -- punctuation
  | kLBrace
  | kRBrace
  | kLBracket
  | kRBracket
  | kLParen
  | kRParen
  | kSemicolon
  | kComma
  | kAssign
  | kDot
  | kQuestion
  | kColon
  -- operators
  | kPlus
  | kMinus
  | kStar
  | kSlash
  | kPercent
  | kShl
  | kShr
  | kLt
  | kLe
  | kGt
  | kGe
  | kEq
  | kNe
  | kAmp
  | kCaret
  | kPipe
  | kAndAnd
  | kOrOr
  | kBang
  | kTilde
  deriving DecidableEq, Repr

def tokenKindName : TokenKind → String
  | .kEof => "end of input"
  | .kIdent => "identifier"
  | .kInt => "integer"
  | .kFloat => "float"
  | .kString => "string"
  | .kTrue => "'true'"
  | .kFalse => "'false'"
  | .kNull => "'null'"
  | .kInclude => "'include'"
  | .kLBrace => "'\x7b'"
  | .kRBrace => "'\x7d'"
  | .kLBracket => "'['"
  | .kRBracket => "']'"
  | .kLParen => "'('"
  | .kRParen => "')'"
  | .kSemicolon => "';'"
  | .kComma => "','"
  | .kAssign => "'='"
  | .kDot => "'.'"
  | .kQuestion => "'?'"
  | .kColon => "':'"
  | .kPlus => "'+'"
  | .kMinus => "'-'"
  | .kStar => "'*'"
  | .kSlash => "'/'"
  | .kPercent => "'%'"
  | .kShl => "'<<'"
  | .kShr => "'>>'"
  | .kLt => "'<'"
  | .kLe => "'<='"
  | .kGt => "'>'"
  | .kGe => "'>='"
  | .kEq => "'=='"
  | .kNe => "'!='"
  | .kAmp => "'&'"
  | .kCaret => "'^'"
  | .kPipe => "'|'"
  | .kAndAnd => "'&&'"
  | .kOrOr => "'||'"
  | .kBang => "'!'"
  | .kTilde => "'~'"

/-- A token: its kind, where it began, and the payload of its kind. -/
structure Token where
  kind : TokenKind := .kEof
  offset : Nat := 0
  text : Bytes := []
  intValue : Int64 := 0
  floatValue : Double := {}
  deriving DecidableEq, Repr

end Bytewright.Cfgscript
