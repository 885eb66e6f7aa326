import Bytewright.Model.Common.ByteReader
import Bytewright.Model.Common.ByteWriter

/-! The streamcodec frame: its fields, its reader and its encoder. -/

namespace Bytewright.Streamcodec

open Bytewright.Common

def kSync : UInt16 := 0x53C7
def kVersion : UInt8 := 1

inductive FrameType where
  | kData
  | kControl
  | kAck
  | kReset
  deriving DecidableEq, Repr

/-- The wire value of a frame type. -/
def FrameType.byte : FrameType → UInt8
  | .kData => 0
  | .kControl => 1
  | .kAck => 2
  | .kReset => 3

def kFlagFin : UInt8 := 0x01
def kFlagFrag : UInt8 := 0x02
def kFlagCompressed : UInt8 := 0x04
def kFlagHasCrc : UInt8 := 0x08

/-- Header bytes before the optional CRC field, which is computed over exactly these. -/
def kHeaderFixedBytes : Nat := 19

structure Frame where
  type : FrameType := .kData
  version : UInt8 := 0
  flags : UInt8 := 0
  streamId : UInt16 := 0
  msgId : UInt32 := 0
  seq : UInt16 := 0
  fragOffset : UInt32 := 0
  payloadLen : UInt16 := 0
  hasCrc : Bool := false
  headerCrc : UInt16 := 0
  crcOk : Bool := false
  headerOffset : Nat := 0
  payload : Bytes := []
  deriving DecidableEq, Repr

namespace Frame

def fin (f : Frame) : Bool := f.flags &&& kFlagFin ≠ 0
def frag (f : Frame) : Bool := f.flags &&& kFlagFrag ≠ 0
def compressed (f : Frame) : Bool := f.flags &&& kFlagCompressed ≠ 0

end Frame

/-- CRC-16/CCITT-FALSE, bit by bit: polynomial `0x1021`, initial value `0xFFFF`. -/
def crc16 (data : Bytes) : UInt16 :=
  data.foldl (fun (crc : UInt16) b =>
    (List.range 8).foldl (fun (crc : UInt16) _ =>
      if crc &&& 0x8000 ≠ 0 then (crc <<< (1 : UInt16)) ^^^ (0x1021 : UInt16)
      else crc <<< (1 : UInt16))
      (crc ^^^ (b.toUInt16 <<< (8 : UInt16)))) 0xFFFF

-- the check value of CRC-16/CCITT-FALSE for the digits 1 to 9
example : crc16 (ascii "123456789") = 0x29B1 := by decide +kernel

/-! ### Reading a frame -/

/-- How far the resync scan walks before the stream counts as unrecoverable. -/
def kResyncWindow : Nat := 4096

/-- Whether the cursor is on a sync word. -/
def atSync (r : ByteReader) : Bool :=
  match r.rest with
  | a :: b :: _ => a.toNat == (kSync.toNat >>> 8) &&& 0xFF && b.toNat == kSync.toNat &&& 0xFF
  | _ => false

/-- The resync loop with `left` bytes of its window unused: whether it stopped on a sync
word. A sync word right behind the window is not looked at. -/
def resync : (left : Nat) → Reader Bool
  | 0 => return false
  | left + 1 => do
    let r ← get
    if r.remaining < 2 then return false
    if atSync r then return true
    skip 1
    resync left

def alignToSync (first : Bool) : Reader Unit := do
  let r ← get
  if atSync r then return ()
  if first then
    raise .kBadMagic r.pos "first frame does not start with sync word"
  if ← resync kResyncWindow then return ()
  let r ← get
  if r.remaining < 2 then
    skip r.remaining
  else
    raise .kBadMagic r.pos "could not resynchronize to a frame within the scan window"

/-- The frame type a header byte names. -/
def FrameType.ofByte? (b : UInt8) : Option FrameType :=
  if b = 0 then some .kData
  else if b = 1 then some .kControl
  else if b = 2 then some .kAck
  else if b = 3 then some .kReset
  else none

/-- Decode the fixed header, read through a cursor of its own over `hdr`. -/
def readHeader (headerOffset : Nat) : Reader Frame := do
  let sync ← readU16be
  if sync ≠ kSync then
    raise .kBadMagic headerOffset "frame sync mismatch after alignment"
  let version ← readU8
  if version ≠ kVersion then
    raise .kBadVersion headerOffset "unsupported frame version"
  let typeByte ← readU8
  let some type := FrameType.ofByte? typeByte
    | raise .kBadType headerOffset "unknown frame type"
  let flags ← readU8
  let streamId ← readU16be
  let msgId ← readU32be
  let seq ← readU16be
  let fragOffset ← readU32be
  let payloadLen ← readU16be
  return {
    type, version, flags, streamId, msgId, seq, fragOffset, payloadLen, headerOffset,
    hasCrc := flags &&& kFlagHasCrc ≠ 0 }

/-- `FrameReader::next`. -/
def nextFrame (first : Bool) : Reader Frame := do
  alignToSync first
  let r ← get
  if r.remaining < 2 then
    raise .kShortRead r.pos "no frame remaining after sync alignment"
  let headerOffset := r.pos
  let hdr ← readRaw kHeaderFixedBytes
  let f ← readWithin hdr (readHeader headerOffset)
  let f ← if f.hasCrc then do
      let headerCrc ← readU16be
      pure { f with headerCrc, crcOk := crc16 hdr == headerCrc }
    else pure f
  let payload ← readBytes f.payloadLen.toNat
  return { f with payload }

/-! ### Encoding a frame -/

structure FrameSpec where
  type : FrameType := .kData
  flags : UInt8 := 0
  streamId : UInt16 := 0
  msgId : UInt32 := 0
  seq : UInt16 := 0
  fragOffset : UInt32 := 0
  payload : Bytes := []
  withCrc : Bool := false
  deriving DecidableEq, Repr

/-- The largest payload one frame carries: `payload_len` is a `u16`. -/
def kMaxFramePayload : Nat := 0xFFFF

def writeFixedHeader (hdr : ByteWriter) (spec : FrameSpec) (flags : UInt8)
    (payloadLen : UInt16) : ByteWriter :=
  hdr
    |>.putU16be kSync
    |>.putU8 kVersion
    |>.putU8 spec.type.byte
    |>.putU8 flags
    |>.putU16be spec.streamId
    |>.putU32be spec.msgId
    |>.putU16be spec.seq
    |>.putU32be spec.fragOffset
    |>.putU16be payloadLen

/-- The flags written: those of `spec`, with `HAS_CRC` driven by `with_crc` alone. -/
def FrameSpec.wireFlags (spec : FrameSpec) : UInt8 :=
  if spec.withCrc then spec.flags ||| kFlagHasCrc else spec.flags &&& ~~~kFlagHasCrc

def encodeFrame (w : ByteWriter) (spec : FrameSpec) : ByteWriter :=
  let n := min spec.payload.length kMaxFramePayload
  let hdr := (writeFixedHeader {} spec spec.wireFlags (UInt16.ofNat n)).buffer
  let w := w.putBytes hdr
  let w := if spec.withCrc then w.putU16be (crc16 hdr) else w
  if n ≠ 0 then w.putBytes (spec.payload.take n) else w

/-- The arguments of `encode_message` besides the writer. -/
structure MessageSpec where
  streamId : UInt16
  msgId : UInt32
  payload : Bytes
  maxFragment : Nat
  firstSeq : UInt16 := 0
  compressed : Bool := false
  withCrc : Bool := false
  deriving DecidableEq, Repr

namespace MessageSpec

/-- The fragment size after clamping. -/
def fragmentSize (m : MessageSpec) : Nat :=
  min (if m.maxFragment = 0 then 1 else m.maxFragment) kMaxFramePayload

def fragCount (m : MessageSpec) : Nat :=
  if m.payload.length = 0 then 1 else (m.payload.length + m.fragmentSize - 1) / m.fragmentSize

/-- The frame of loop round `i`, at `offset`. -/
def fragment (m : MessageSpec) (i offset : Nat) (seq : UInt16) : FrameSpec :=
  let chunk := min m.fragmentSize (m.payload.length - offset)
  let flags : UInt8 := if m.fragCount > 1 then 0 ||| kFlagFrag else 0
  let flags := if i + 1 = m.fragCount then flags ||| kFlagFin else flags
  let flags := if m.compressed then flags ||| kFlagCompressed else flags
  { streamId := m.streamId, msgId := m.msgId, seq, flags
    fragOffset := UInt32.ofNat offset
    withCrc := m.withCrc
    payload := if chunk ≠ 0 then (m.payload.drop offset).take chunk else [] }

/-- The frames of the loop's last `left` rounds. -/
def fragmentsFrom (m : MessageSpec) : (left i offset : Nat) → (seq : UInt16) → List FrameSpec
  | 0, _, _, _ => []
  | left + 1, i, offset, seq =>
    m.fragment i offset seq ::
      m.fragmentsFrom left (i + 1) (offset + min m.fragmentSize (m.payload.length - offset)) (seq + 1)

def fragments (m : MessageSpec) : List FrameSpec := m.fragmentsFrom m.fragCount 0 0 m.firstSeq

end MessageSpec

/-- Append every fragment of the message, and count them. -/
def encodeMessage (w : ByteWriter) (m : MessageSpec) : Nat × ByteWriter :=
  (m.fragments.length, m.fragments.foldl encodeFrame w)

end Bytewright.Streamcodec
