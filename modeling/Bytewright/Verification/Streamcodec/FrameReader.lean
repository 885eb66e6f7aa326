import Bytewright.Verification.Streamcodec.Framing

/-! # What the frame reader accepts -/

namespace Bytewright.Streamcodec

open Bytewright.Common Bytewright.Library

/-! ### Aligning to a frame -/

/-- Bytes behind the buffer do not change whether a sync word is under the cursor. -/
theorem atSync_append {r r' : ByteReader} {tail : Bytes} (hr : r'.rest = r.rest ++ tail)
    (hlen : 2 ≤ r.rest.length) : atSync r' = atSync r := by
  rw [atSync, atSync, hr]
  cases h : r.rest with
  | nil => simp [h] at hlen
  | cons a l =>
      cases l with
      | nil => simp [h] at hlen
      | cons b l => rfl

theorem length_of_atSync {r : ByteReader} (h : atSync r = true) : 2 ≤ r.rest.length := by
  rw [atSync] at h
  split at h
  · next hr =>
    rw [hr]
    simp
  · cases h

theorem skip_ok {n : Nat} {r s : ByteReader} (h : skip n r = .ok () s) :
    n ≤ r.rest.length ∧ s = r.advance n := by
  obtain ⟨_, t, hrequire, h⟩ := bind_eq_ok.mp h
  rw [require_run] at hrequire
  split at hrequire
  · next hn =>
    cases hrequire
    cases h
    exact ⟨hn, rfl⟩
  · cases hrequire

theorem skip_run {n : Nat} {r : ByteReader} (h : n ≤ r.rest.length) :
    skip n r = .ok () (r.advance n) := by
  rw [skip, bind_of_ok (t := r) (a := ()) (by rw [require_run, if_pos h]), modify_run]

/-- Where the scan stops, and that bytes behind the buffer do not move a sync word it found. -/
theorem resync_ok {left : Nat} {r s : ByteReader} {found : Bool} (h : resync left r = .ok found s) :
    ∃ k, s = r.advance k ∧ (found = true → atSync s = true) ∧
      (found = true → ∀ r' tail, r'.rest = r.rest ++ tail → resync left r' = .ok true (r'.advance k)) := by
  induction left generalizing r with
  | zero =>
      cases h
      exact ⟨0, rfl, by simp, by simp⟩
  | succ left ih =>
      rw [resync, bind_of_ok (get_run r)] at h
      by_cases hremaining : r.remaining < 2
      · rw [if_pos hremaining] at h
        cases h
        exact ⟨0, rfl, by simp, by simp⟩
      · have hlen : 2 ≤ r.rest.length := by rw [← r.remaining_eq]; omega
        rw [if_neg hremaining] at h
        have hbehind : ∀ (r' : ByteReader) (tail : Bytes), r'.rest = r.rest ++ tail →
            ¬ r'.remaining < 2 := by
          intro r' tail hr'
          rw [r'.remaining_eq, hr', List.length_append]
          omega
        by_cases hsync : atSync r = true
        · rw [if_pos hsync] at h
          cases h
          refine ⟨0, rfl, fun _ => hsync, fun _ r' tail hr' => ?_⟩
          rw [resync, bind_of_ok (get_run r'), if_neg (hbehind r' tail hr'),
            if_pos (by rwa [atSync_append hr' hlen])]
          rfl
        · rw [if_neg hsync] at h
          obtain ⟨_, t, hskip, h⟩ := bind_eq_ok.mp h
          obtain ⟨hone, rfl⟩ := skip_ok hskip
          obtain ⟨k, rfl, hfound, happend⟩ := ih h
          refine ⟨1 + k, by rw [ByteReader.advance_advance], hfound, fun hf r' tail hr' => ?_⟩
          have hrest : (r'.advance 1).rest = (r.advance 1).rest ++ tail := by
            rw [ByteReader.rest_advance, ByteReader.rest_advance, hr',
              List.drop_append_of_le_length hone]
          have hskip' : skip 1 r' = .ok () (r'.advance 1) := by
            refine skip_run ?_
            rw [hr', List.length_append]
            omega
          rw [resync, bind_of_ok (get_run r'), if_neg (hbehind r' tail hr'),
            if_neg (by rwa [atSync_append hr' hlen]), bind_of_ok hskip',
            happend hf _ tail hrest, ByteReader.advance_advance]

/-- Aligning moves the cursor forward, onto a sync word unless the buffer runs out first. -/
theorem alignToSync_ok {first : Bool} {r s : ByteReader} (h : alignToSync first r = .ok () s) :
    ∃ k, s = r.advance k ∧ (atSync s = true ∨ s.rest.length < 2) ∧
      (atSync s = true → ∀ r' tail, r'.rest = r.rest ++ tail →
        alignToSync first r' = .ok () (r'.advance k)) := by
  rw [alignToSync, bind_of_ok (get_run r)] at h
  by_cases hsync : atSync r = true
  · rw [if_pos hsync] at h
    cases h
    refine ⟨0, rfl, .inl hsync, fun _ r' tail hr' => alignToSync_atSync ?_ first⟩
    rwa [atSync_append hr' (length_of_atSync hsync)]
  · rw [if_neg hsync] at h
    cases first with
    | true => cases h
    | false =>
        simp only [Bool.false_eq_true, if_false] at h
        obtain ⟨found, t, hscan, h⟩ := bind_eq_ok.mp h
        obtain ⟨k, rfl, hfound, happend⟩ := resync_ok hscan
        cases found with
        | true =>
            rw [if_pos rfl] at h
            cases h
            have hlen : 2 ≤ r.rest.length := by
              have := length_of_atSync (hfound rfl)
              rw [ByteReader.rest_advance, List.length_drop] at this
              omega
            refine ⟨k, rfl, .inl (hfound rfl), fun _ r' tail hr' => ?_⟩
            rw [alignToSync, bind_of_ok (get_run r'), if_neg (by rwa [atSync_append hr' hlen])]
            simp only [Bool.false_eq_true, if_false]
            rw [bind_of_ok (happend rfl r' tail hr')]
            rfl
        | false =>
            rw [if_neg (by simp), bind_of_ok (get_run _)] at h
            by_cases hremaining : (r.advance k).remaining < 2
            · rw [if_pos hremaining] at h
              obtain ⟨-, rfl⟩ := skip_ok h
              have hempty : ((r.advance k).advance (r.advance k).remaining).rest.length = 0 := by
                rw [ByteReader.rest_advance, List.length_drop, ByteReader.remaining_eq]
                omega
              refine ⟨_, ByteReader.advance_advance .., .inr (by omega), fun hsync => ?_⟩
              have := length_of_atSync hsync
              omega
            · rw [if_neg hremaining] at h
              cases h

/-! ### Reading a frame -/

theorem readHeader_ok {headerOffset : Nat} {f : Frame} {r s : ByteReader}
    (h : readHeader headerOffset r = .ok f s) :
    r.rest = f.header ++ s.rest ∧ f.version = kVersion ∧
      f.hasCrc = decide (f.flags &&& kFlagHasCrc ≠ 0) ∧ f = f.fixed headerOffset := by
  unfold readHeader at h
  obtain ⟨sync, r₁, hsync, h⟩ := bind_eq_ok.mp h
  by_cases hkSync : sync = kSync
  · rw [if_neg (not_not_intro hkSync)] at h
    obtain ⟨version, r₂, hversion, h⟩ := bind_eq_ok.mp h
    by_cases hkVersion : version = kVersion
    · rw [if_neg (not_not_intro hkVersion)] at h
      obtain ⟨typeByte, r₃, htype, h⟩ := bind_eq_ok.mp h
      cases hof : FrameType.ofByte? typeByte with
      | none =>
          rw [hof] at h
          cases h
      | some type =>
          rw [hof] at h
          obtain ⟨flags, r₄, hflags, h⟩ := bind_eq_ok.mp h
          obtain ⟨streamId, r₅, hstream, h⟩ := bind_eq_ok.mp h
          obtain ⟨msgId, r₆, hmsg, h⟩ := bind_eq_ok.mp h
          obtain ⟨seq, r₇, hseq, h⟩ := bind_eq_ok.mp h
          obtain ⟨fragOffset, r₈, hfrag, h⟩ := bind_eq_ok.mp h
          obtain ⟨payloadLen, r₉, hlen, h⟩ := bind_eq_ok.mp h
          cases h
          refine ⟨?_, hkVersion, rfl, rfl⟩
          rw [readU16be_ok hsync, (readU8_ok hversion).1, (readU8_ok htype).1, (readU8_ok hflags).1,
            readU16be_ok hstream, readU32be_ok hmsg, readU16be_ok hseq, readU32be_ok hfrag,
            readU16be_ok hlen, ofByte?_some hof, hkSync]
          simp [Frame.header]
    · rw [if_pos hkVersion] at h
      cases h
  · rw [if_pos hkSync] at h
    cases h

/-- The header takes all of its nineteen bytes. -/
theorem readHeader_whole {headerOffset : Nat} {f : Frame} {hdr : Bytes} {s : ByteReader}
    (hlen : hdr.length = kHeaderFixedBytes) (h : readHeader headerOffset { data := hdr } = .ok f s) :
    hdr = f.header := by
  obtain ⟨hhdr, -⟩ := readHeader_ok h
  rw [ByteReader.rest_mk_zero] at hhdr
  have hnil : s.rest = [] := by
    have hcount := congrArg List.length hhdr
    rw [List.length_append, f.header_length, hlen] at hcount
    exact List.length_eq_zero_iff.mp (by omega)
  rw [hhdr, hnil, List.append_nil]

/-- The payload behind the header and the CRC field makes the frame complete. -/
theorem Frame.received_of_payload {f : Frame} {r r' s : ByteReader} {payload : Bytes}
    (hversion : f.version = kVersion) (hhas : f.hasCrc = decide (f.flags &&& kFlagHasCrc ≠ 0))
    (hok : f.crcOk = (f.hasCrc && crc16 f.header == f.headerCrc))
    (hnone : f.hasCrc = false → f.headerCrc = 0)
    (hrest : r.rest = f.header ++ ((if f.hasCrc then beBytes 2 f.headerCrc.toNat else []) ++ r'.rest))
    (hr' : r' = r.advance (kHeaderFixedBytes + (if f.hasCrc then 2 else 0)))
    (h : readBytes f.payloadLen.toNat r' = .ok payload s) :
    Frame.Received { f with payload } ∧ r.rest = Frame.bytes { f with payload } ++ s.rest ∧
      s = r.advance (Frame.bytes { f with payload }).length := by
  obtain ⟨hpayload, hlength⟩ := readRaw_ok h
  obtain ⟨-, rfl⟩ := readRaw_at h
  refine ⟨⟨hversion, hhas, hlength, hok, hnone⟩, ?_, ?_⟩
  · change _ = f.header ++ ((if f.hasCrc then beBytes 2 f.headerCrc.toNat else []) ++ payload) ++ _
    rw [hrest, hpayload, List.append_assoc, List.append_assoc]
  · change _ = r.advance
      (f.header ++ ((if f.hasCrc then beBytes 2 f.headerCrc.toNat else []) ++ payload)).length
    have hfield : (if f.hasCrc then beBytes 2 f.headerCrc.toNat else []).length =
        if f.hasCrc then 2 else 0 := by
      cases f.hasCrc <;> simp
    rw [hr', List.length_append, List.length_append, f.header_length, hfield, hlength,
      ByteReader.advance_advance, Nat.add_assoc]

/-- A frame was read from its own bytes, found where aligning left the cursor. -/
theorem nextFrame_ok {first : Bool} {f : Frame} {r s : ByteReader}
    (h : nextFrame first r = .ok f s) :
    ∃ k, alignToSync first r = .ok () (r.advance k) ∧ atSync (r.advance k) = true ∧ f.Received ∧
      f.headerOffset = r.pos + k ∧ (r.advance k).rest = f.bytes ++ s.rest ∧
      s = r.advance (k + f.bytes.length) := by
  unfold nextFrame at h
  obtain ⟨_, t, halign, h⟩ := bind_eq_ok.mp h
  obtain ⟨k, rfl, hsync, -⟩ := alignToSync_ok halign
  rw [bind_of_ok (get_run _)] at h
  by_cases hremaining : (r.advance k).remaining < 2
  · rw [if_pos hremaining] at h
    cases h
  · rw [if_neg hremaining] at h
    have hsync : atSync (r.advance k) = true := by
      rw [ByteReader.remaining_eq] at hremaining
      exact hsync.resolve_right hremaining
    obtain ⟨hdr, r₁, hraw, h⟩ := bind_eq_ok.mp h
    obtain ⟨hrest, hlen⟩ := readRaw_ok hraw
    obtain ⟨-, rfl⟩ := readRaw_at hraw
    obtain ⟨f₀, r₂, hwithin, h⟩ := bind_eq_ok.mp h
    obtain ⟨rfl, r₃, hheader⟩ := readWithin_ok hwithin
    obtain ⟨-, hversion, hcrc, hfixed⟩ := readHeader_ok hheader
    have hhdr := readHeader_whole hlen hheader
    have hf₀ : f₀.headerCrc = 0 ∧ f₀.crcOk = false ∧ f₀.headerOffset = r.pos + k := by
      rw [hfixed]
      exact ⟨rfl, rfl, rfl⟩
    rw [hhdr] at hrest
    by_cases hon : f₀.hasCrc = true
    · -- the field is read before the payload
      rw [if_pos hon] at h
      obtain ⟨headerCrc, r₄, hfield, h⟩ := bind_eq_ok.mp h
      rw [pure_bind] at h
      obtain ⟨payload, r₅, hpayload, h⟩ := bind_eq_ok.mp h
      cases h
      obtain rfl := readU16be_at hfield
      have hok : (crc16 hdr == headerCrc) = (f₀.hasCrc && crc16 f₀.header == headerCrc) := by
        rw [hon, Bool.true_and, hhdr]
      have hframe := Frame.received_of_payload (f := { f₀ with headerCrc, crcOk := crc16 hdr == headerCrc })
        (r := r.advance k) hversion hcrc hok (fun hoff => absurd hon (Bool.eq_false_iff.mp hoff))
        (by rw [if_pos hon, ← readU16be_ok hfield]; exact hrest)
        (by rw [if_pos hon, ByteReader.advance_advance]) hpayload
      refine ⟨k, halign, hsync, hframe.1, hf₀.2.2, hframe.2.1, ?_⟩
      rw [hframe.2.2, ByteReader.advance_advance]
    · -- without the flag there is none
      have hoff := Bool.eq_false_of_not_eq_true hon
      rw [if_neg hon, pure_bind] at h
      obtain ⟨payload, r₅, hpayload, h⟩ := bind_eq_ok.mp h
      cases h
      have hok : f₀.crcOk = (f₀.hasCrc && crc16 f₀.header == f₀.headerCrc) := by
        rw [hoff, Bool.false_and, hf₀.2.1]
      have hframe := Frame.received_of_payload (r := r.advance k) hversion hcrc hok (fun _ => hf₀.1)
        (by rw [if_neg hon]; exact hrest) (by rw [if_neg hon]; rfl) hpayload
      refine ⟨k, halign, hsync, hframe.1, hf₀.2.2, hframe.2.1, ?_⟩
      rw [hframe.2.2, ByteReader.advance_advance]

/-- `FrameReader::next` where aligning stops in front of the bytes of a frame. -/
theorem nextFrame_aligned {first : Bool} {f : Frame} (hf : f.Received) {r : ByteReader} {k : Nat}
    {rest : Bytes} (halign : alignToSync first r = .ok () (r.advance k))
    (hrest : (r.advance k).rest = f.bytes ++ rest) :
    nextFrame first r =
      .ok { f with headerOffset := r.pos + k } (r.advance (k + f.bytes.length)) := by
  have hframe := nextFrame_bytes first hf hrest
  rw [nextFrame, bind_of_ok (alignToSync_atSync (atSync_bytes f hrest) first)] at hframe
  rw [nextFrame, bind_of_ok halign, hframe, ByteReader.advance_advance, ByteReader.pos_advance]

/-- Bytes behind the buffer do not change a frame that was read from it. -/
theorem nextFrame_append {first : Bool} {f : Frame} {r s r' : ByteReader} {tail : Bytes}
    (h : nextFrame first r = .ok f s) (hrest : r'.rest = r.rest ++ tail) (hpos : r'.pos = r.pos) :
    ∃ n, nextFrame first r' = .ok f (r'.advance n) ∧ s = r.advance n ∧ n ≤ r.rest.length := by
  obtain ⟨k, halign, hsync, hf, hoffset, hbytes, rfl⟩ := nextFrame_ok h
  obtain ⟨k', hk, -, happend⟩ := alignToSync_ok halign
  obtain rfl : k = k' := Nat.add_left_cancel (congrArg ByteReader.pos hk)
  have hle : k + f.bytes.length ≤ r.rest.length := by
    have hlen := congrArg List.length hbytes
    have hheader := f.header_length
    rw [ByteReader.rest_advance, List.length_drop, List.length_append, Frame.bytes,
      List.length_append, hheader, kHeaderFixedBytes] at hlen
    rw [Frame.bytes, List.length_append, hheader, kHeaderFixedBytes]
    omega
  refine ⟨k + f.bytes.length, ?_, rfl, hle⟩
  have hbytes' : (r'.advance k).rest = f.bytes ++ ((r.advance (k + f.bytes.length)).rest ++ tail) := by
    rw [ByteReader.rest_advance, hrest, List.drop_append_of_le_length (by omega),
      ← ByteReader.rest_advance, hbytes, List.append_assoc]
  rw [nextFrame_aligned hf (happend hsync r' tail hrest) hbytes', hpos, ← hoffset]

/-! ### Encoding is a bijection on valid frames -/

/-- What a frame is encoded from again. -/
def Frame.toSpec (f : Frame) : FrameSpec where
  type := f.type
  flags := f.flags
  streamId := f.streamId
  msgId := f.msgId
  seq := f.seq
  fragOffset := f.fragOffset
  payload := f.payload
  withCrc := f.hasCrc

theorem wireFlags_of_hasCrc {flags : UInt8} {on : Bool} (h : on = decide (flags &&& kFlagHasCrc ≠ 0)) :
    (if on then flags ||| kFlagHasCrc else flags &&& ~~~kFlagHasCrc) = flags := by
  subst h
  obtain ⟨b⟩ := flags
  unfold kFlagHasCrc
  revert b
  decide +kernel

namespace Frame.Received

theorem payloadLen_toSpec {f : Frame} (hf : f.Received) :
    f.toSpec.payloadLen = f.payload.length ∧ UInt16.ofNat f.toSpec.payloadLen = f.payloadLen := by
  have hle : f.payload.length ≤ kMaxFramePayload := by
    rw [hf.payload_length]
    exact Nat.le_of_lt_succ f.payloadLen.toNat_lt
  have hmin : f.toSpec.payloadLen = f.payload.length := Nat.min_eq_left hle
  exact ⟨hmin, by rw [hmin, hf.payload_length, UInt16.ofNat_toNat]⟩

theorem header_toSpec {f : Frame} (hf : f.Received) : f.toSpec.header = f.header := by
  have hflags : f.toSpec.wireFlags = f.flags := wireFlags_of_hasCrc hf.hasCrc
  rw [header_eq, hf.payloadLen_toSpec.2, hflags, Frame.header, hf.version]
  rfl

/-- A frame whose header CRC holds, if it has one, is encoded to the bytes it was read from. -/
theorem wire_toSpec {f : Frame} (hf : f.Received) (hok : f.hasCrc = true → f.crcOk = true) :
    f.toSpec.wire = f.bytes := by
  have hpayload : f.toSpec.payload.take f.toSpec.payloadLen = f.payload :=
    List.take_of_length_le hf.payloadLen_toSpec.1.ge
  rw [FrameSpec.wire, FrameSpec.crcField, hf.header_toSpec, hpayload, Frame.bytes]
  by_cases hcrc : f.hasCrc = true
  · have hheaderCrc : crc16 f.header = f.headerCrc := by
      have h := hok hcrc
      rwa [hf.crcOk, hcrc, Bool.true_and, beq_iff_eq] at h
    rw [hheaderCrc]
    rfl
  · have hoff : ¬ f.toSpec.withCrc = true := hcrc
    rw [if_neg hcrc, if_neg hoff]

end Frame.Received

theorem wireFlags_split (spec : FrameSpec) :
    decide (spec.wireFlags &&& kFlagHasCrc ≠ 0) = spec.withCrc ∧
      spec.wireFlags &&& ~~~kFlagHasCrc = spec.flags &&& ~~~kFlagHasCrc := by
  refine ⟨wireFlags_hasCrc spec, ?_⟩
  unfold FrameSpec.wireFlags kFlagHasCrc
  obtain ⟨b⟩ := spec.flags
  cases spec.withCrc <;> revert b <;> decide +kernel

/-- `FrameReader::next` undoes `FrameEncoder::encode_frame` whatever follows, and encoding a frame
that was read where the cursor stood writes the bytes it took. -/
theorem nextFrame_encodeFrame (first : Bool) :
    (∀ (spec : FrameSpec) (r : ByteReader) (rest : Bytes), spec.payload.length ≤ kMaxFramePayload →
      r.rest = (encodeFrame {} spec).buffer ++ rest →
      ∃ f s, nextFrame first r = .ok f s ∧ s = r.advance (encodeFrame {} spec).size ∧ s.rest = rest ∧
        f.type = spec.type ∧ f.version = kVersion ∧ f.streamId = spec.streamId ∧
        f.msgId = spec.msgId ∧ f.seq = spec.seq ∧ f.fragOffset = spec.fragOffset ∧
        decide (f.flags &&& kFlagHasCrc ≠ 0) = spec.withCrc ∧
        f.flags &&& ~~~kFlagHasCrc = spec.flags &&& ~~~kFlagHasCrc ∧
        f.payloadLen.toNat = spec.payload.length ∧ f.payload = spec.payload ∧
        f.headerOffset = r.pos ∧ f.hasCrc = spec.withCrc ∧ f.crcOk = spec.withCrc) ∧
    ∀ (r s : ByteReader) (f : Frame), nextFrame first r = .ok f s → f.headerOffset = r.pos →
      (f.hasCrc = true → f.crcOk = true) →
      r.rest = (encodeFrame {} f.toSpec).buffer ++ s.rest ∧
        s = r.advance (encodeFrame {} f.toSpec).size := by
  constructor
  · intro spec r rest hlen hr
    have hwire : (encodeFrame {} spec).buffer = spec.wire := encodeFrame_buffer {} spec
    rw [hwire] at hr
    have hmin : spec.payloadLen = spec.payload.length := Nat.min_eq_left hlen
    have hpayload : spec.payload.take spec.payloadLen = spec.payload := List.take_of_length_le hmin.ge
    have hpayloadLen : (UInt16.ofNat spec.payloadLen).toNat = spec.payload.length := by
      rw [UInt16.toNat_ofNat', Nat.mod_eq_of_lt spec.payloadLen_lt, hmin]
    obtain ⟨hcrc, hflags⟩ := wireFlags_split spec
    refine ⟨spec.frame r.pos, r.advance spec.wire.length, nextFrame_wire first spec hr, ?_, ?_, rfl, rfl,
      rfl, rfl, rfl, rfl, hcrc, hflags, hpayloadLen, hpayload, rfl, rfl, rfl⟩
    · rw [ByteWriter.size, hwire]
    · rw [ByteReader.rest_advance, hr, List.drop_left]
  · intro r s f h hoffset hok
    obtain ⟨k, -, -, hf, hk, hbytes, rfl⟩ := nextFrame_ok h
    obtain rfl : k = 0 := by omega
    rw [ByteReader.advance_zero, Nat.zero_add] at hbytes
    rw [ByteWriter.size, encodeFrame_buffer, List.nil_append, hf.wire_toSpec hok, Nat.zero_add]
    exact ⟨hbytes, rfl⟩

/-- A fragment with a payload and the CRC of its header. -/
def checkedFragment : FrameSpec where
  type := .kData
  flags := kFlagFrag
  streamId := 7
  msgId := 9
  seq := 2
  fragOffset := 300
  payload := [0x5A, 0xC3, 0]
  withCrc := true

/-- It is read back behind a byte of something else and in front of another one, and encoded again. -/
theorem nextFrame_encodeFrame_checked :
    let r : ByteReader := { data := 0xFF :: ((encodeFrame {} checkedFragment).buffer ++ [0xEE]), pos := 1 }
    ∃ f s, nextFrame false r = .ok f s ∧ s.rest = [0xEE] ∧ f.payload = [0x5A, 0xC3, 0] ∧
      f.fragOffset = 300 ∧ f.hasCrc = true ∧ f.crcOk = true ∧
      r.rest = (encodeFrame {} f.toSpec).buffer ++ s.rest := by
  intro r
  obtain ⟨f, s, hrun, -, hrest, -, -, -, -, -, hfrag, -, -, -, hpayload, hoffset, hcrc, hok⟩ :=
    (nextFrame_encodeFrame false).1 checkedFragment r [0xEE] (by decide) rfl
  have hagain := (nextFrame_encodeFrame false).2 r s f hrun hoffset fun _ => hok
  exact ⟨f, s, hrun, hrest, hpayload, hfrag, hcrc, hok, hagain.1⟩

end Bytewright.Streamcodec
