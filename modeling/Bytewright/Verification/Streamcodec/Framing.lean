import Bytewright.Model.Streamcodec.Decoder
import Bytewright.Verification.Common.Codec

/-! # Frames on the wire -/

namespace Bytewright.Streamcodec

open Bytewright.Common Bytewright.Library

/-! ### What the encoder writes -/

namespace FrameSpec

/-- The payload length of the frame written. -/
def payloadLen (spec : FrameSpec) : Nat := min spec.payload.length kMaxFramePayload

def header (spec : FrameSpec) : Bytes :=
  (writeFixedHeader {} spec spec.wireFlags (UInt16.ofNat spec.payloadLen)).buffer

def crcField (spec : FrameSpec) : Bytes :=
  if spec.withCrc then beBytes 2 (crc16 spec.header).toNat else []

/-- The bytes of one encoded frame. -/
def wire (spec : FrameSpec) : Bytes :=
  spec.header ++ (spec.crcField ++ spec.payload.take spec.payloadLen)

/-- The frame a reader makes of them, found at `headerOffset`. -/
def frame (spec : FrameSpec) (headerOffset : Nat) : Frame where
  type := spec.type
  version := kVersion
  flags := spec.wireFlags
  streamId := spec.streamId
  msgId := spec.msgId
  seq := spec.seq
  fragOffset := spec.fragOffset
  payloadLen := UInt16.ofNat spec.payloadLen
  hasCrc := spec.withCrc
  headerCrc := if spec.withCrc then crc16 spec.header else 0
  crcOk := spec.withCrc
  headerOffset := headerOffset
  payload := spec.payload.take spec.payloadLen

theorem payloadLen_lt (spec : FrameSpec) : spec.payloadLen < 65536 := by
  have h : spec.payloadLen ≤ kMaxFramePayload := Nat.min_le_right ..
  exact Nat.lt_succ_of_le h

end FrameSpec

theorem encodeFrame_buffer (w : ByteWriter) (spec : FrameSpec) :
    (encodeFrame w spec).buffer = w.buffer ++ spec.wire := by
  unfold encodeFrame FrameSpec.wire FrameSpec.crcField FrameSpec.header FrameSpec.payloadLen
  by_cases hn : min spec.payload.length kMaxFramePayload = 0
  · cases spec.withCrc <;> simp [hn, ByteWriter.putBytes, ByteWriter.putU16be]
  · cases spec.withCrc <;> simp [hn, ByteWriter.putBytes, ByteWriter.putU16be]

theorem encodeFrames_buffer (w : ByteWriter) (specs : List FrameSpec) :
    (specs.foldl encodeFrame w).buffer = w.buffer ++ specs.flatMap FrameSpec.wire := by
  induction specs generalizing w with
  | nil => simp
  | cons spec specs ih =>
      rw [List.foldl_cons, ih, encodeFrame_buffer, List.flatMap_cons, List.append_assoc]

theorem buffer_encodeFrames (specs : List FrameSpec) :
    (specs.foldl encodeFrame {}).buffer = specs.flatMap FrameSpec.wire := by
  rw [encodeFrames_buffer, List.nil_append]

/-! ### Reading it back -/

theorem header_eq (spec : FrameSpec) :
    spec.header = beBytes 2 kSync.toNat ++ ([kVersion] ++ ([spec.type.byte] ++ ([spec.wireFlags] ++
      (beBytes 2 spec.streamId.toNat ++ (beBytes 4 spec.msgId.toNat ++ (beBytes 2 spec.seq.toNat ++
        (beBytes 4 spec.fragOffset.toNat ++ (beBytes 2 (UInt16.ofNat spec.payloadLen).toNat ++
          [])))))))) := by
  simp [FrameSpec.header, writeFixedHeader, ByteWriter.putU16be, ByteWriter.putU8,
    ByteWriter.putU32be, ByteWriter.putBytes]

theorem header_length (spec : FrameSpec) : spec.header.length = kHeaderFixedBytes := by
  simp [header_eq, kHeaderFixedBytes]

@[simp] theorem ofByte?_byte (t : FrameType) : FrameType.ofByte? t.byte = some t := by
  cases t <;> rfl

/-- The `HAS_CRC` bit of the flags written is the `with_crc` toggle. -/
theorem wireFlags_hasCrc (spec : FrameSpec) :
    decide (spec.wireFlags &&& kFlagHasCrc ≠ 0) = spec.withCrc := by
  unfold FrameSpec.wireFlags kFlagHasCrc
  rcases spec.flags with ⟨b⟩
  cases spec.withCrc
  · revert b
    decide +kernel
  · revert b
    decide +kernel

/-- The other flag bits are the caller's. -/
theorem wireFlags_and (spec : FrameSpec) {bit : UInt8}
    (hbit : bit = kFlagFin ∨ bit = kFlagFrag ∨ bit = kFlagCompressed) :
    spec.wireFlags &&& bit = spec.flags &&& bit := by
  unfold FrameSpec.wireFlags kFlagHasCrc
  rcases spec.flags with ⟨b⟩
  rcases hbit with rfl | rfl | rfl <;> cases spec.withCrc <;> revert b <;> decide +kernel

/-! ### What a frame was read from -/

namespace Frame

/-- The fixed header of the frame. -/
def header (f : Frame) : Bytes :=
  beBytes 2 kSync.toNat ++ ([f.version] ++ ([f.type.byte] ++ ([f.flags] ++
    (beBytes 2 f.streamId.toNat ++ (beBytes 4 f.msgId.toNat ++ (beBytes 2 f.seq.toNat ++
      (beBytes 4 f.fragOffset.toNat ++ (beBytes 2 f.payloadLen.toNat ++ []))))))))

/-- The bytes of the frame, with the CRC it carried. -/
def bytes (f : Frame) : Bytes :=
  f.header ++ ((if f.hasCrc then beBytes 2 f.headerCrc.toNat else []) ++ f.payload)

/-- What holds of every frame the reader returns. -/
structure Received (f : Frame) : Prop where
  version : f.version = kVersion
  hasCrc : f.hasCrc = decide (f.flags &&& kFlagHasCrc ≠ 0)
  payload_length : f.payload.length = f.payloadLen.toNat
  crcOk : f.crcOk = (f.hasCrc && crc16 f.header == f.headerCrc)
  headerCrc : f.hasCrc = false → f.headerCrc = 0

/-- The frame as its header alone gives it. -/
def fixed (f : Frame) (headerOffset : Nat) : Frame :=
  { f with headerOffset, headerCrc := 0, crcOk := false, payload := [] }

theorem header_length (f : Frame) : f.header.length = kHeaderFixedBytes := by
  simp [header, kHeaderFixedBytes]

end Frame

theorem frame_header (spec : FrameSpec) (headerOffset : Nat) :
    (spec.frame headerOffset).header = spec.header :=
  (header_eq spec).symm

theorem frame_bytes (spec : FrameSpec) (headerOffset : Nat) :
    (spec.frame headerOffset).bytes = spec.wire := by
  rw [Frame.bytes, frame_header, FrameSpec.wire, FrameSpec.crcField]
  cases h : spec.withCrc <;> simp [FrameSpec.frame, h]

theorem frame_received (spec : FrameSpec) (headerOffset : Nat) :
    (spec.frame headerOffset).Received where
  version := rfl
  hasCrc := (wireFlags_hasCrc spec).symm
  payload_length := by
    have hlt : spec.payloadLen < 2 ^ 16 := spec.payloadLen_lt
    change (spec.payload.take spec.payloadLen).length = (UInt16.ofNat spec.payloadLen).toNat
    rw [UInt16.toNat_ofNat', Nat.mod_eq_of_lt hlt, List.length_take]
    exact Nat.min_eq_left (Nat.min_le_left ..)
  crcOk := by
    rw [frame_header]
    cases h : spec.withCrc <;> simp [FrameSpec.frame, h]
  headerCrc := by
    intro h
    change spec.withCrc = false at h
    simp [FrameSpec.frame, h]

theorem ofByte?_some {b : UInt8} {t : FrameType} (h : FrameType.ofByte? b = some t) : b = t.byte := by
  unfold FrameType.ofByte? at h
  split_ifs at h <;> cases h <;> assumption

theorem reads_readHeader {f : Frame} (hf : f.Received) (headerOffset : Nat) :
    Reads (readHeader headerOffset) f.header (f.fixed headerOffset) := by
  unfold readHeader Frame.header
  apply Reads.bind (reads_readU16be kSync)
  rw [if_neg (not_not_intro rfl)]
  apply Reads.bind (reads_readU8 f.version)
  rw [if_neg (not_not_intro hf.version)]
  apply Reads.bind (reads_readU8 f.type.byte)
  rw [ofByte?_byte]
  apply Reads.bind (reads_readU8 f.flags)
  apply Reads.bind (reads_readU16be f.streamId)
  apply Reads.bind (reads_readU32be f.msgId)
  apply Reads.bind (reads_readU16be f.seq)
  apply Reads.bind (reads_readU32be f.fragOffset)
  apply Reads.bind (reads_readU16be f.payloadLen)
  rw [← hf.hasCrc]
  exact Reads.pure _

/-! ### One frame under the cursor -/

theorem atSync_bytes (f : Frame) {r : ByteReader} {rest : Bytes} (hr : r.rest = f.bytes ++ rest) :
    atSync r = true := by
  have hsync : beBytes 2 kSync.toNat = [0x53, 0xC7] := by decide
  rw [Frame.bytes, Frame.header, hsync] at hr
  rw [atSync, hr]
  rfl

theorem alignToSync_atSync {r : ByteReader} (h : atSync r = true) (first : Bool) :
    alignToSync first r = .ok () r := by
  rw [alignToSync, bind_of_ok (get_run r), if_pos h]
  rfl

/-- `FrameReader::next` in front of the bytes of a frame, at the start of the stream or later. -/
theorem nextFrame_bytes (first : Bool) {f : Frame} (hf : f.Received) {r : ByteReader} {rest : Bytes}
    (hr : r.rest = f.bytes ++ rest) :
    nextFrame first r = .ok { f with headerOffset := r.pos } (r.advance f.bytes.length) := by
  have hremaining : ¬ r.remaining < 2 := by
    rw [r.remaining_eq, hr, Frame.bytes, List.length_append, List.length_append, f.header_length,
      kHeaderFixedBytes]
    omega
  have hheader : Reads (readRaw kHeaderFixedBytes) f.header f.header := by
    rw [← f.header_length]
    exact reads_readRaw f.header
  have hpayload : Reads (readBytes f.payloadLen.toNat) f.payload f.payload := by
    rw [← hf.payload_length]
    exact reads_readRaw f.payload
  rw [nextFrame, bind_of_ok (alignToSync_atSync (atSync_bytes f hr) first), bind_of_ok (get_run r),
    if_neg hremaining]
  -- the three fields under the cursor, one after the other
  refine (?_ : Reads _ f.bytes _) r rest hr
  refine Reads.bind hheader ?_
  rw [(reads_readHeader hf r.pos).within, pure_bind]
  have hfixed : (f.fixed r.pos).hasCrc = f.hasCrc := rfl
  by_cases hcrc : f.hasCrc = true
  · have hok : f.crcOk = (crc16 f.header == f.headerCrc) := by rw [hf.crcOk, hcrc, Bool.true_and]
    rw [if_pos hcrc, if_pos (hfixed.trans hcrc)]
    refine Reads.bind (reads_readU16be f.headerCrc) ?_
    rw [pure_bind, ← hok]
    exact Reads.bind_last hpayload (Reads.pure _)
  · have hoff := Bool.eq_false_of_not_eq_true hcrc
    have hframe : { f.fixed r.pos with payload := f.payload } = { f with headerOffset := r.pos } := by
      rw [Frame.fixed, ← hf.headerCrc hoff, show false = f.crcOk by rw [hf.crcOk, hoff, Bool.false_and]]
    rw [if_neg hcrc, if_neg (by rwa [hfixed]), pure_bind, List.nil_append]
    refine Reads.bind_last hpayload ?_
    rw [hframe]
    exact Reads.pure _

/-- `FrameReader::next` in front of an encoded frame. -/
theorem nextFrame_wire (first : Bool) (spec : FrameSpec) {r : ByteReader} {rest : Bytes}
    (hr : r.rest = spec.wire ++ rest) :
    nextFrame first r = .ok (spec.frame r.pos) (r.advance spec.wire.length) := by
  rw [← frame_bytes spec r.pos] at hr
  have h := nextFrame_bytes first (frame_received spec r.pos) hr
  rwa [frame_bytes] at h

theorem atSync_wire (spec : FrameSpec) {r : ByteReader} {rest : Bytes}
    (hr : r.rest = spec.wire ++ rest) : atSync r = true := by
  rw [← frame_bytes spec 0] at hr
  exact atSync_bytes _ hr

end Bytewright.Streamcodec
