/-! The error model shared by every decoder: `ParseError` and what a call can end in. -/

namespace Bytewright.Common

/-- A byte buffer. `std::string` is the same thing: its contents are raw bytes. -/
abbrev Bytes := List UInt8

/-- The bytes of an ASCII literal of the source. -/
def ascii (s : String) : Bytes := s.toList.map (fun c => UInt8.ofNat c.toNat)

inductive ErrorCode where
  | kOk
  | kShortRead
  | kBadMagic
  | kBadVersion
  | kBadChecksum
  | kBadLength
  | kBadType
  | kDepthExceeded
  | kStateViolation
  | kUnsupported
  | kTruncated
  deriving DecidableEq, Repr

def describe : ErrorCode → String
  | .kOk => "ok"
  | .kShortRead => "read past end of buffer"
  | .kBadMagic => "magic mismatch"
  | .kBadVersion => "unsupported version"
  | .kBadChecksum => "checksum mismatch"
  | .kBadLength => "inconsistent length or offset"
  | .kBadType => "unknown type tag"
  | .kDepthExceeded => "nesting depth exceeded"
  | .kStateViolation => "operation invalid in current state"
  | .kUnsupported => "unsupported feature"
  | .kTruncated => "structure truncated"

structure ParseError where
  code : ErrorCode
  offset : Nat
  what : String
  deriving DecidableEq, Repr

/-- How a call can fail to return. Only `thrown` is an exception of the source:
`undefined` is an access outside an object (undefined behaviour in C++), and
`diverged` marks a loop that used up the iterations its definition here allows. -/
inductive Fault where
  | thrown (error : ParseError)
  | undefined
  | diverged
  deriving DecidableEq, Repr

/-- The result of a call that owns no mutable object. -/
abbrev Outcome := Except Fault

/-- A call that mutates an object of type `σ`, whose state survives an exception. -/
abbrev Action := EStateM Fault

def raise {σ α : Type} (code : ErrorCode) (offset : Nat) (what : String) : Action σ α :=
  throw (.thrown ⟨code, offset, what⟩)

end Bytewright.Common
