import Bytewright.Model.Streamcodec.Reassembler

/-! The delivery queue: completed messages released in ascending order in each stream. -/

namespace Bytewright.Streamcodec

open Bytewright.Common

/-- The cursor of a stream, and what was buffered ahead of it. -/
structure StreamOrder where
  started : Bool := false
  nextExpected : UInt32 := 0
  pending : Std.ExtTreeMap UInt32 Message := ∅

namespace StreamOrder

/-- The loop of `drain`. The head of the list is what `begin()` of the map points at. -/
def drainLoop : (fuel : Nat) → StreamOrder → (out : List Message) →
    Outcome (StreamOrder × List Message)
  | 0, _, _ => throw .diverged
  | fuel + 1, s, out =>
    match s.pending.toList.head? with
    | none => return (s, out)
    | some (id, msg) =>
      if id ≠ s.nextExpected then return (s, out)
      else
        drainLoop fuel
          { s with nextExpected := s.nextExpected + 1, pending := s.pending.erase id } (out ++ [msg])

/-- Move the buffered messages that are contiguous with the cursor into `out`. -/
def drain (s : StreamOrder) (out : List Message) : Outcome (StreamOrder × List Message) :=
  drainLoop (s.pending.size + 1) s out

/-- The loop of `offer` that holds a stream to its window, with the gaps it counts. -/
def advanceLoop (window : Nat) : (fuel : Nat) → StreamOrder → (gaps : UInt64) →
    (out : List Message) → Outcome (StreamOrder × UInt64 × List Message)
  | 0, _, _, _ => throw .diverged
  | fuel + 1, s, gaps, out => do
    if s.pending.size ≤ window then return (s, gaps, out)
    -- the map is not empty, or `begin()` must not be dereferenced
    let some (lowest, _) := s.pending.toList.head? | throw .undefined
    let gaps := if lowest > s.nextExpected then gaps + 1 else gaps
    let (s, out) ← drain { s with nextExpected := lowest } out
    advanceLoop window fuel s gaps out

/-- The loop of `flush_stream`. -/
def flushLoop : (fuel : Nat) → StreamOrder → (gaps : UInt64) → (out : List Message) →
    Outcome (StreamOrder × UInt64 × List Message)
  | 0, _, _, _ => throw .diverged
  | fuel + 1, s, gaps, out =>
    match s.pending.toList.head? with
    | none => return (s, gaps, out)
    | some (id, msg) =>
      let gaps := if id > s.nextExpected then gaps + 1 else gaps
      flushLoop fuel { s with nextExpected := id + 1, pending := s.pending.erase id } gaps
        (out ++ [msg])

end StreamOrder

structure DeliveryQueue where
  streams : Std.ExtTreeMap UInt16 StreamOrder := ∅
  window : Nat
  gaps : UInt64 := 0
  duplicates : UInt64 := 0

namespace DeliveryQueue

/-- The constructor. A window of zero is treated as one. -/
def make (window : Nat := 64) : DeliveryQueue := { window := if window = 0 then 1 else window }

/-- The queue with the entry of a stream replaced. -/
def put (q : DeliveryQueue) (streamId : UInt16) (s : StreamOrder) : DeliveryQueue :=
  { q with streams := q.streams.insert streamId s }

/-- The entry that an offer works on: its first message sets the starting point of a stream. -/
def entry (q : DeliveryQueue) (msg : Message) : StreamOrder :=
  let s := q.streams.getD msg.streamId {}
  if !s.started then { s with started := true, nextExpected := msg.msgId } else s

/-- The messages that became deliverable, and the queue behind the call. -/
def offer (q : DeliveryQueue) (msg : Message) : Outcome (List Message × DeliveryQueue) := do
  let s := q.entry msg
  if msg.msgId < s.nextExpected then
    return ([], { q.put msg.streamId s with duplicates := q.duplicates + 1 })
  else if msg.msgId = s.nextExpected then
    let (s, out) ← { s with nextExpected := s.nextExpected + 1 }.drain [msg]
    return (out, q.put msg.streamId s)
  else if s.pending.contains msg.msgId then
    return ([], { q.put msg.streamId s with duplicates := q.duplicates + 1 })
  else
    let s := { s with pending := s.pending.insert msg.msgId msg }
    let (s, gaps, out) ← s.advanceLoop q.window (s.pending.size + 1) q.gaps []
    return (out, { q.put msg.streamId s with gaps })

def flushStream (q : DeliveryQueue) (streamId : UInt16) : Outcome (List Message × DeliveryQueue) :=
  match q.streams[streamId]? with
  | none => return ([], q)
  | some s => do
    let (s, gaps, out) ← s.flushLoop (s.pending.size + 1) q.gaps []
    return (out, { q.put streamId s with gaps })

/-- The number of messages buffered in all streams. -/
def buffered (q : DeliveryQueue) : Nat :=
  q.streams.toList.foldl (fun n entry => n + entry.2.pending.size) 0

end DeliveryQueue

end Bytewright.Streamcodec
