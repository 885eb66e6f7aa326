import Std.Data.ExtTreeMap

/-! The flow controller: one sliding window over a byte counter for each stream. -/

namespace Bytewright.Streamcodec

/-- At byte `ackPoint` the receiver allows `window` further bytes. -/
structure WindowUpdate where
  streamId : UInt16 := 0
  ackPoint : UInt64 := 0
  window : UInt64 := 0
  deriving DecidableEq, Repr

/-- The receiver confirms `ackedBytes` cumulative bytes. -/
structure WindowAck where
  streamId : UInt16 := 0
  ackedBytes : UInt64 := 0
  deriving DecidableEq, Repr

def kUint64Max : UInt64 := 0xFFFFFFFFFFFFFFFF

/-- The ceiling an update advertises, guarded against overflow. -/
def WindowUpdate.ceiling (u : WindowUpdate) : UInt64 :=
  if u.window > kUint64Max - u.ackPoint then kUint64Max else u.ackPoint + u.window

structure FlowState where
  advertised : UInt64 := 0
  sent : UInt64 := 0
  acked : UInt64 := 0
  blocked : Bool := false
  deriving DecidableEq, Repr

namespace FlowState

def available (s : FlowState) : UInt64 :=
  if s.advertised ≥ s.sent then s.advertised - s.sent else 0

def refresh (s : FlowState) : FlowState := { s with blocked := s.sent ≥ s.advertised }

/-- `on_window_update`, on the entry of its stream. -/
def windowUpdate (s : FlowState) (u : WindowUpdate) : FlowState :=
  refresh { s with advertised := max s.advertised u.ceiling }

/-- `on_ack`, on the entry of its stream. -/
def ack (s : FlowState) (a : WindowAck) : FlowState :=
  refresh { s with acked := min (max s.acked a.ackedBytes) s.sent }

/-- What `try_send` admits of `n` bytes. -/
def admitted (s : FlowState) (n : UInt64) : UInt64 := min n s.available

/-- `try_send`, on the entry of its stream. -/
def send (s : FlowState) (n : UInt64) : FlowState :=
  refresh { s with sent := s.sent + s.admitted n }

end FlowState

/-- `std::map<std::uint16_t, FlowState>`. -/
abbrev FlowController := Std.ExtTreeMap UInt16 FlowState

namespace FlowController

/-- The entry of a stream, made if it is not there. -/
def slot (fc : FlowController) (streamId : UInt16) : FlowState := fc.getD streamId {}

def onWindowUpdate (fc : FlowController) (u : WindowUpdate) : FlowState × FlowController :=
  let s := (slot fc u.streamId).windowUpdate u
  (s, fc.insert u.streamId s)

def onAck (fc : FlowController) (a : WindowAck) : FlowState × FlowController :=
  let s := (slot fc a.streamId).ack a
  (s, fc.insert a.streamId s)

/-- The number of bytes admitted, and the controller behind the call. -/
def trySend (fc : FlowController) (streamId : UInt16) (n : UInt64) : UInt64 × FlowController :=
  let s := slot fc streamId
  (s.admitted n, fc.insert streamId (s.send n))

/-- A stream nothing is known of is blocked. -/
def blocked (fc : FlowController) (streamId : UInt16) : Bool :=
  match fc[streamId]? with
  | some s => s.blocked
  | none => true

def state (fc : FlowController) (streamId : UInt16) : FlowState :=
  match fc[streamId]? with
  | some s => s
  | none => { blocked := true }

end FlowController

end Bytewright.Streamcodec
