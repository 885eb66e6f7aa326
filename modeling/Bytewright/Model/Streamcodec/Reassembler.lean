import Bytewright.Library.Span
import Bytewright.Model.Streamcodec.Frame
import Std.Data.ExtTreeMap

/-! The message reassembler: partial messages in a vector, and a map from keys to slots. -/

namespace Bytewright.Streamcodec

open Bytewright.Common Bytewright.Library

/-- A completed message. -/
structure Message where
  streamId : UInt16
  msgId : UInt32
  compressed : Bool
  data : Bytes
  deriving DecidableEq, Repr

/-- `(stream_id, msg_id)`. -/
abbrev Key := UInt16 × UInt32

instance : Ord Key := lexOrd

structure PartialMessage where
  streamId : UInt16
  msgId : UInt32
  buffer : Bytes := []
  ranges : List (Nat × Nat) := []
  highWater : Nat := 0
  totalLen : Nat := 0
  haveFin : Bool := false
  compressed : Bool := false
  deriving DecidableEq, Repr

def Message.key (m : Message) : Key := (m.streamId, m.msgId)
def Frame.key (f : Frame) : Key := (f.streamId, f.msgId)

namespace PartialMessage

def key (p : PartialMessage) : Key := (p.streamId, p.msgId)

def addRange (p : PartialMessage) (b e : Nat) : PartialMessage :=
  { p with ranges := addSpan p.ranges b e }

/-- Whether the merged ranges cover `[0, total_len)` with no holes. -/
def isComplete (p : PartialMessage) : Bool :=
  if !p.haveFin then false
  else if p.totalLen = 0 then true
  else match p.ranges with
    | [(b, e)] => b = 0 && p.totalLen ≤ e
    | _ => false

/-- Grow the buffer to cover `[b, e)` and copy the payload in, as far as it fits. -/
def fill (buffer payload : Bytes) (b e : Nat) : Bytes :=
  let buffer := if e > buffer.length then buffer ++ List.replicate (e - buffer.length) 0 else buffer
  if payload ≠ [] ∧ b < buffer.length then
    let n := min payload.length (buffer.length - b)
    buffer.take b ++ payload.take n ++ buffer.drop (b + n)
  else buffer

/-- The offset a frame's payload belongs at. -/
def beginOf (f : Frame) : Nat := if f.frag then f.fragOffset.toNat else 0

/-- The exclusive end of a frame's payload, clamped to what a `u32` holds. -/
def endOf (f : Frame) : Nat := min (beginOf f + f.payload.length) 0xFFFFFFFF

/-- What `accept_data` does to the slot it found, up to the completeness check. -/
def place (p : PartialMessage) (f : Frame) : PartialMessage :=
  let p := if f.compressed then { p with compressed := true } else p
  let p := { p with buffer := fill p.buffer f.payload (beginOf f) (endOf f) }
  let p := p.addRange (beginOf f) (endOf f)
  let p := { p with highWater := max p.highWater (endOf f) }
  if f.fin then { p with haveFin := true, totalLen := p.highWater } else p

/-- The message handed out for a complete partial: the first `total_len` bytes of its buffer. -/
def emit (p : PartialMessage) (f : Frame) : Outcome Message :=
  if p.totalLen ≤ p.buffer.length then
    .ok { streamId := f.streamId, msgId := f.msgId, compressed := p.compressed
          data := p.buffer.take p.totalLen }
  else .error .undefined

end PartialMessage

structure Reassembler where
  store : List PartialMessage := []
  index : Std.ExtTreeMap Key Nat := ∅

namespace Reassembler

/-- The slot of `key`, a fresh partial at the end of the store if it has none. -/
def slotFor (r : Reassembler) (key : Key) : Nat × Reassembler :=
  match r.index[key]? with
  | some i => (i, r)
  | none =>
    (r.store.length,
      { store := r.store ++ [{ streamId := key.1, msgId := key.2 }]
        index := r.index.insert key r.store.length })

/-- Swap-and-pop: the tail moves into the hole and its index entry is repointed. -/
def removeSlot (r : Reassembler) (i : Nat) (key : Key) : Outcome Reassembler :=
  let index := r.index.erase key
  match r.store.getLast? with
  | none => .error .undefined
  | some moved =>
    if i ≠ r.store.length - 1 then
      .ok { store := (r.store.set i moved).dropLast, index := index.insert moved.key i }
    else .ok { store := r.store.dropLast, index }

/-- Apply a DATA frame to its message, which is returned when this completes it. -/
def acceptData (r : Reassembler) (f : Frame) : Outcome (Option Message × Reassembler) := do
  let (i, r) := r.slotFor f.key
  let some p := r.store[i]? | throw .undefined
  let p := p.place f
  let r := { r with store := r.store.set i p }
  if !p.isComplete then
    return (none, r)
  let out ← p.emit f
  let r ← r.removeSlot i f.key
  return (some out, r)

/-- The variables of the compaction loop of `reset_stream`. -/
structure Compaction where
  kept : List PartialMessage := []
  index : Std.ExtTreeMap Key Nat
  dropped : Nat := 0
  firstHole : Option Nat := none

/-- One round of the loop, at slot `i`. -/
def Compaction.visit (c : Compaction) (streamId : UInt16) (i : Nat) (p : PartialMessage) :
    Compaction :=
  if p.streamId = streamId then
    { c with
      firstHole := c.firstHole.or (some i)
      index := c.index.erase p.key
      dropped := c.dropped + 1 }
  else { c with kept := c.kept ++ [p] }

/-- The loop of `reset_stream`, at slot `i`. -/
def Compaction.visitFrom (c : Compaction) (streamId : UInt16) (i : Nat) :
    List PartialMessage → Compaction
  | [] => c
  | p :: rest => (c.visit streamId i p).visitFrom streamId (i + 1) rest

/-- Where an index entry ends up: one slot further down if it sat behind the first hole. -/
def slide (firstHole : Option Nat) (i : Nat) : Nat :=
  match firstHole with
  | some hole => if i > hole then i - 1 else i
  | none => i

/-- Drop every partial of the stream, compact the store, and count what was dropped. -/
def resetStream (r : Reassembler) (streamId : UInt16) : Nat × Reassembler :=
  let c := Compaction.visitFrom { index := r.index } streamId 0 r.store
  (c.dropped, { store := c.kept, index := c.index.map (fun _ i => slide c.firstHole i) })

end Reassembler

end Bytewright.Streamcodec
