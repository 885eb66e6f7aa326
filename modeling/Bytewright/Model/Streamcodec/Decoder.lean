import Bytewright.Model.Streamcodec.Reassembler
import Bytewright.Model.Streamcodec.StreamState

/-! `decode`: pull frames off a buffer and dispatch on their type. -/

namespace Bytewright.Streamcodec

open Bytewright.Common

structure ControlRecord where
  streamId : UInt16 := 0
  refMsgId : UInt32 := 0
  window : UInt32 := 0
  deriving DecidableEq, Repr

structure AckRecord where
  streamId : UInt16 := 0
  msgId : UInt32 := 0
  deriving DecidableEq, Repr

structure DecodeResult where
  messages : List Message := []
  stats : List StreamStats := []
  controls : List ControlRecord := []
  acks : List AckRecord := []
  framesSeen : UInt64 := 0
  controlFrames : UInt64 := 0
  ackFrames : UInt64 := 0
  resetFrames : UInt64 := 0
  headerCrcOk : UInt64 := 0
  headerCrcBad : UInt64 := 0
  deriving DecidableEq, Repr

/-- The window update of a CONTROL payload. Missing fields stay zero. -/
def controlFields (streamId : UInt16) : Reader ControlRecord := do
  let mut c : ControlRecord := { streamId }
  if (← get).remaining ≥ 4 then
    c := { c with refMsgId := ← readU32be }
  if (← get).remaining ≥ 4 then
    c := { c with window := ← readU32be }
  return c

def parseControl (f : Frame) : Outcome ControlRecord :=
  match controlFields f.streamId { data := f.payload } with
  | .ok c _ => .ok c
  | .error e _ => .error e

/-- The variables of the frame loop besides the cursor. -/
structure DecodeState where
  reassembler : Reassembler := {}
  streams : StreamTable := ∅
  result : DecodeResult := {}

namespace DecodeState

/-- Count a frame and the outcome of its header CRC, if it carried one. -/
def tally (result : DecodeResult) (f : Frame) : DecodeResult :=
  let result := { result with framesSeen := result.framesSeen + 1 }
  if f.hasCrc then
    if f.crcOk then { result with headerCrcOk := result.headerCrcOk + 1 }
    else { result with headerCrcBad := result.headerCrcBad + 1 }
  else result

/-- The body of the frame loop behind `frames.next`. -/
def dispatch (s : DecodeState) (f : Frame) : Outcome DecodeState := do
  let streams := StreamTable.observe s.streams f.streamId f.seq
  let result := tally s.result f
  match f.type with
  | .kData =>
    let (out, reassembler) ← s.reassembler.acceptData f
    return { reassembler, streams, result := { result with messages := result.messages ++ out.toList } }
  | .kControl =>
    let c ← parseControl f
    return { s with streams, result := { result with
      controlFrames := result.controlFrames + 1
      controls := result.controls ++ [c] } }
  | .kAck =>
    return { s with streams, result := { result with
      ackFrames := result.ackFrames + 1
      acks := result.acks ++ [{ streamId := f.streamId, msgId := f.msgId }] } }
  | .kReset =>
    let (_, reassembler) := s.reassembler.resetStream f.streamId
    return { reassembler
             streams := StreamTable.noteReset streams f.streamId
             result := { result with resetFrames := result.resetFrames + 1 } }

/-- The frame loop over frames that are already framed. -/
def run (s : DecodeState) (fs : List Frame) : Outcome DecodeState := fs.foldlM dispatch s

/-- What `decode` returns from this state: the result with the stats filled in. -/
def finish (s : DecodeState) : DecodeResult := { s.result with stats := s.streams.snapshot }

end DecodeState

/-- The frame loop. Every frame takes bytes off the buffer, so `size + 1` rounds are enough. -/
def decodeLoop : (fuel : Nat) → (first : Bool) → DecodeState → Reader DecodeState
  | 0, _, _ => throw .diverged
  | fuel + 1, first, s => do
    if (← get).eof then return s
    let f ← nextFrame first
    match s.dispatch f with
    | .ok s => decodeLoop fuel false s
    | .error e => throw e

def decode (data : Bytes) : Outcome DecodeResult :=
  if data.length = 0 then .ok {}
  else match decodeLoop (data.length + 1) true {} { data } with
    | .ok s _ => .ok s.finish
    | .error e _ => .error e

end Bytewright.Streamcodec
