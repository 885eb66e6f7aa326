import Bytewright.Library.Salvage
import Bytewright.Verification.Streamcodec.FrameReader
import Bytewright.Verification.Streamcodec.RoundTrip

/-! # Streams that are cut off -/

namespace Bytewright.Streamcodec

open Bytewright.Common Bytewright.Library

theorem Starves.throws {α : Type} {m : Reader α} {bs : Bytes} (h : Starves m bs) {r : ByteReader}
    (hr : r.rest <+: bs) (hne : r.rest ≠ bs) :
    ∃ e s, m r = .error (.thrown e) s ∧ e.code = .kShortRead := by
  obtain ⟨at_, what, s, hrun⟩ := h r hr hne
  exact ⟨⟨.kShortRead, at_, what⟩, s, hrun, rfl⟩

/-! ### A frame that is cut off -/

/-- Without its last bytes no frame is read. Of the first frame a single byte is taken for a wrong sync
word. -/
theorem nextFrame_torn (first : Bool) {f : Frame} (hf : f.Received) {r : ByteReader}
    (hr : r.rest <+: f.bytes) (hne : r.rest ≠ f.bytes) (hsome : r.rest ≠ []) :
    ∃ e s, nextFrame first r = .error (.thrown e) s ∧
      e.code = if first = true ∧ r.rest.length = 1 then .kBadMagic else .kShortRead := by
  have hpos := List.length_pos_iff.mpr hsome
  by_cases hone : r.rest.length = 1
  · -- a single byte is no sync word, and nothing to scan for one
    obtain ⟨b, hb⟩ := List.length_eq_one_iff.mp hone
    have hsync : atSync r = false := by rw [atSync, hb]
    have hshort : r.remaining < 2 := by rw [r.remaining_eq, hone]; decide
    cases first with
    | true =>
        refine ⟨⟨.kBadMagic, r.pos, "first frame does not start with sync word"⟩, r, ?_, by simp [hone]⟩
        refine bind_of_error ?_
        rw [alignToSync, bind_of_ok (get_run r), hsync]
        rfl
    | false =>
        have halign : alignToSync false r = .ok () (r.advance r.remaining) := by
          have hresync : resync kResyncWindow r = .ok false r := by
            rw [kResyncWindow, resync, bind_of_ok (get_run r), if_pos hshort]
            rfl
          rw [alignToSync, bind_of_ok (get_run r), hsync, if_neg Bool.false_ne_true,
            if_neg Bool.false_ne_true]
          dsimp only
          rw [bind_of_ok hresync, if_neg Bool.false_ne_true, bind_of_ok (get_run r), if_pos hshort]
          exact skip_run r.remaining_eq.le
        have hend : (r.advance r.remaining).remaining < 2 := by
          rw [ByteReader.remaining_eq, r.rest_advance, List.length_drop, r.remaining_eq]
          omega
        refine ⟨⟨.kShortRead, (r.advance r.remaining).pos, "no frame remaining after sync alignment"⟩,
          r.advance r.remaining, ?_, by simp⟩
        rw [nextFrame, bind_of_ok halign, bind_of_ok (get_run _), if_pos hend]
        exact bind_of_error rfl
  · have hlen : ¬ r.remaining < 2 := by rw [r.remaining_eq]; omega
    have hsync : atSync r = true := by
      obtain ⟨tail, htail⟩ := hr
      let whole : ByteReader := { data := f.bytes }
      have hwhole : whole.rest = f.bytes := rfl
      rw [← atSync_append (hwhole.trans htail.symm) (by omega)]
      exact atSync_bytes f (hwhole.trans (List.append_nil _).symm)
    have hheader : Reads (readRaw kHeaderFixedBytes) f.header f.header := by
      rw [← f.header_length]
      exact reads_readRaw f.header
    have hheader' : Starves (readRaw kHeaderFixedBytes) f.header := by
      rw [← f.header_length]
      exact starves_readRaw f.header
    have hpayload : Starves (readBytes f.payloadLen.toNat) f.payload := by
      rw [← hf.payload_length]
      exact starves_readRaw f.payload
    rw [nextFrame, bind_of_ok (alignToSync_atSync hsync first), bind_of_ok (get_run r), if_neg hlen,
      if_neg (fun h => hone h.2)]
    -- one of the three fields is cut off
    dsimp only
    refine Starves.throws ?_ hr hne
    refine Starves.bind hheader hheader' ?_
    rw [(reads_readHeader hf r.pos).within, pure_bind]
    have hfixed : (f.fixed r.pos).hasCrc = f.hasCrc := rfl
    by_cases hcrc : f.hasCrc = true
    · rw [if_pos hcrc, if_pos (hfixed.trans hcrc)]
      have hcrc' : Starves readU16be (beBytes 2 f.headerCrc.toNat) :=
        (starves_readRaw (beBytes 2 f.headerCrc.toNat)).map fun bs => UInt16.ofNat (beValue bs)
      refine Starves.bind (reads_readU16be f.headerCrc) hcrc' ?_
      rw [pure_bind]
      exact hpayload.map _
    · rw [if_neg hcrc, if_neg (by rwa [hfixed]), pure_bind, List.nil_append]
      exact hpayload.map _

/-! ### A stream that is cut off -/

theorem framesAt_append (pos : Nat) (specs specs' : List FrameSpec) :
    framesAt pos (specs ++ specs') =
      framesAt pos specs ++ framesAt (pos + (specs.flatMap FrameSpec.wire).length) specs' := by
  induction specs generalizing pos with
  | nil => rfl
  | cons spec specs ih =>
      rw [List.cons_append, framesAt, framesAt, ih, List.flatMap_cons, List.length_append, Nat.add_assoc]
      rfl

/-- The frame loop goes through encoded frames as the run does, whatever follows them. -/
theorem decodeLoop_frames {specs : List FrameSpec} {fuel : Nat} (hfuel : specs.length < fuel)
    (first : Bool) {s : DecodeState} {r : ByteReader} {tail : Bytes}
    (hr : r.rest = specs.flatMap FrameSpec.wire ++ tail) :
    (∀ s', s.run (framesAt r.pos specs) = .ok s' →
      decodeLoop fuel first s r = decodeLoop (fuel - specs.length) (first && specs.isEmpty) s'
        (r.advance (specs.flatMap FrameSpec.wire).length)) ∧
    ∀ e, s.run (framesAt r.pos specs) = .error e → ∃ t, decodeLoop fuel first s r = .error e t := by
  induction specs generalizing fuel first s r with
  | nil =>
      constructor
      · intro s' hrun
        obtain rfl : s = s' := Except.ok.inj hrun
        simp
      · intro e hrun
        cases hrun
  | cons spec specs ih =>
      obtain ⟨fuel, rfl⟩ : ∃ n, fuel = n + 1 := ⟨fuel - 1, by rw [List.length_cons] at hfuel; omega⟩
      have hfuel : specs.length < fuel := Nat.lt_of_succ_lt_succ hfuel
      rw [List.flatMap_cons, List.append_assoc] at hr
      have heof : r.eof = false := by
        rw [← Bool.not_eq_true, r.eof_iff, hr]
        intro h
        have hpos := wire_length_pos spec
        rw [(List.append_eq_nil_iff.mp h).1] at hpos
        exact Nat.lt_irrefl 0 hpos
      have hrest : (r.advance spec.wire.length).rest = specs.flatMap FrameSpec.wire ++ tail := by simp [hr]
      have hrun : s.run (framesAt r.pos (spec :: specs)) =
          s.dispatch (spec.frame r.pos) >>= fun s => s.run (framesAt (r.pos + spec.wire.length) specs) :=
        List.foldlM_cons
      rw [hrun, decodeLoop, bind_of_ok (get_run r), heof, if_neg Bool.false_ne_true,
        bind_of_ok (nextFrame_wire first spec hr)]
      cases hd : s.dispatch (spec.frame r.pos) with
      | error e =>
          constructor
          · intro s' hs'
            cases hs'
          · intro e' he
            obtain rfl : e = e' := Except.error.inj he
            exact ⟨_, rfl⟩
      | ok s₁ =>
          obtain ⟨hok, herror⟩ := ih hfuel false hrest
          refine ⟨fun s' hs' => (hok s' hs').trans ?_, fun e he => herror e he⟩
          rw [List.flatMap_cons, List.length_append, r.advance_advance, List.length_cons,
            Nat.add_sub_add_right]
          simp

/-- Where a byte count leaves a list of encoded frames: between two of them, or inside one. -/
theorem take_frames (specs : List FrameSpec) (k : Nat) :
    ∃ j tail, (specs.flatMap FrameSpec.wire).take k = (specs.take j).flatMap FrameSpec.wire ++ tail ∧
      (tail = [] ∨ ∃ spec : FrameSpec, tail <+: spec.wire ∧ tail ≠ spec.wire ∧ tail ≠ []) := by
  obtain ⟨j, tail, htake, hj, hall, hcut, -⟩ := take_flatten (specs.map FrameSpec.wire) k
  rw [← List.flatMap_def, ← List.map_take, ← List.flatMap_def] at htake
  rw [List.length_map] at hj hall
  refine ⟨j, tail, htake, ?_⟩
  by_cases htail : tail = []
  · exact .inl htail
  · have hlt : j < specs.length := Nat.lt_of_le_of_ne hj fun h => htail (hall h)
    obtain ⟨hshort, hne⟩ := hcut specs[j].wire (by rw [List.getElem?_map, List.getElem?_eq_getElem hlt]; rfl)
    exact .inr ⟨specs[j], hshort, hne, htail⟩

/-- Encoded frames that are accepted go through the frame loop. -/
theorem run_of_decode {specs : List FrameSpec} {result : DecodeResult}
    (h : decode (specs.flatMap FrameSpec.wire) = .ok result) :
    ∃ s, ({} : DecodeState).run (framesAt 0 specs) = .ok s := by
  cases hrun : ({} : DecodeState).run (framesAt 0 specs) with
  | ok s => exact ⟨s, rfl⟩
  | error e =>
      have hlen := length_le_wires specs
      obtain ⟨t, ht⟩ := (decodeLoop_frames (Nat.lt_succ_of_le hlen) true
        (r := { data := specs.flatMap FrameSpec.wire }) (List.append_nil _).symm).2 e hrun
      unfold decode at h
      split at h
      · next hzero =>
        obtain rfl : specs = [] := List.length_eq_zero_iff.mp (by omega)
        cases hrun
      · rw [ht] at h
        cases h

/-- A single byte is too short for a frame. -/
theorem single_byte_iff (specs : List FrameSpec) {tail : Bytes} (hsome : tail ≠ []) :
    (specs = [] ∧ tail.length = 1) ↔ (specs.flatMap FrameSpec.wire ++ tail).length = 1 := by
  have hpos := List.length_pos_iff.mpr hsome
  cases specs with
  | nil => simp
  | cons spec specs =>
      have hwire := wire_length_pos spec
      simp only [List.cons_ne_nil, false_and, false_iff, List.flatMap_cons, List.length_append]
      omega

/-- Behind whole frames, a frame that is cut off. -/
theorem decode_torn {specs : List FrameSpec} {s : DecodeState}
    (hrun : ({} : DecodeState).run (framesAt 0 specs) = .ok s) {spec : FrameSpec} {tail : Bytes}
    (htail : tail <+: spec.wire) (hne : tail ≠ spec.wire) (hsome : tail ≠ []) :
    ∃ e, decode (specs.flatMap FrameSpec.wire ++ tail) = .error (.thrown e) ∧
      e.code = if (specs.flatMap FrameSpec.wire ++ tail).length = 1 then .kBadMagic else .kShortRead := by
  let data := specs.flatMap FrameSpec.wire ++ tail
  have hpos := List.length_pos_iff.mpr hsome
  have hlen := length_le_wires specs
  have hdata : data.length = (specs.flatMap FrameSpec.wire).length + tail.length := List.length_append
  have hwhole : ByteReader.rest { data } = specs.flatMap FrameSpec.wire ++ tail := rfl
  have hfuel : specs.length < data.length + 1 := by omega
  have hloop := (decodeLoop_frames hfuel true hwhole).1 s hrun
  have hrest : (ByteReader.advance { data } (specs.flatMap FrameSpec.wire).length).rest = tail := by
    rw [ByteReader.rest_advance]
    exact List.drop_left
  obtain ⟨fuel, hfuel⟩ : ∃ n, data.length + 1 - specs.length = n + 1 := ⟨_, Nat.succ_sub (by omega)⟩
  rw [← frame_bytes spec 0] at htail hne
  obtain ⟨e, t, hnext, hcode⟩ := nextFrame_torn (true && specs.isEmpty) (frame_received spec 0)
    (hrest ▸ htail) (hrest ▸ hne) (hrest ▸ hsome)
  have heof : (ByteReader.advance { data } (specs.flatMap FrameSpec.wire).length).eof = false := by
    rw [← Bool.not_eq_true, ByteReader.eof_iff, hrest]
    exact hsome
  have hnonzero : ¬ data.length = 0 := by omega
  refine ⟨e, ?_, ?_⟩
  · unfold decode
    rw [if_neg hnonzero, hloop, hfuel, decodeLoop, bind_of_ok (get_run _), heof,
      if_neg Bool.false_ne_true, bind_of_error hnext]
  · rw [hcode, hrest]
    refine if_congr (Iff.trans ?_ (single_byte_iff specs hsome)) rfl rfl
    simp

/-- The first frames of a stream that decodes go through the frame loop too. -/
theorem run_take {specs : List FrameSpec} {s : DecodeState}
    (hrun : ({} : DecodeState).run (framesAt 0 specs) = .ok s) (j : Nat) :
    ∃ s', ({} : DecodeState).run (framesAt 0 (specs.take j)) = .ok s' := by
  rw [← List.take_append_drop j specs, framesAt_append, DecodeState.run, List.foldlM_append] at hrun
  cases hfront : ({} : DecodeState).run (framesAt 0 (specs.take j)) with
  | ok s' => exact ⟨s', rfl⟩
  | error e =>
      rw [show List.foldlM DecodeState.dispatch {} (framesAt 0 (specs.take j)) = _ from hfront] at hrun
      cases hrun

/-- A stream of frames that decodes, cut off after `k` bytes: what is left is accepted exactly if the cut is
between two frames, and it is then the stream of the frames in front of the cut. Anywhere else the cut is an
error, and that of a missing sync word if a single byte is left. -/
theorem decode_cut (specs : List FrameSpec) {result : DecodeResult}
    (hok : decode (specs.foldl encodeFrame {}).buffer = .ok result) (k : Nat) :
    ((∃ kept, decode ((specs.foldl encodeFrame {}).buffer.take k) = .ok kept) ↔
      ∃ j, (specs.foldl encodeFrame {}).buffer.take k = ((specs.take j).foldl encodeFrame {}).buffer) ∧
    ((¬ ∃ j, (specs.foldl encodeFrame {}).buffer.take k = ((specs.take j).foldl encodeFrame {}).buffer) →
      ∃ e, decode ((specs.foldl encodeFrame {}).buffer.take k) = .error (.thrown e) ∧
        e.code = if k = 1 then .kBadMagic else .kShortRead) := by
  simp only [buffer_encodeFrames] at hok ⊢
  obtain ⟨s, hrun⟩ := run_of_decode hok
  have hbetween : ∀ j, (specs.flatMap FrameSpec.wire).take k = (specs.take j).flatMap FrameSpec.wire →
      ∃ kept, decode ((specs.flatMap FrameSpec.wire).take k) = .ok kept := by
    intro j hj
    obtain ⟨s', hfront⟩ := run_take hrun j
    exact ⟨s'.finish, by rw [hj, decode_wire hfront]⟩
  have hinside : (¬ ∃ j, (specs.flatMap FrameSpec.wire).take k = (specs.take j).flatMap FrameSpec.wire) →
      ∃ e, decode ((specs.flatMap FrameSpec.wire).take k) = .error (.thrown e) ∧
        e.code = if k = 1 then .kBadMagic else .kShortRead := by
    intro hcut
    obtain ⟨j, tail, htake, htail⟩ := take_frames specs k
    cases htail with
    | inl hnil => exact absurd ⟨j, by rw [htake, hnil, List.append_nil]⟩ hcut
    | inr hframe =>
        obtain ⟨spec, hpre, hne, hsome⟩ := hframe
        obtain ⟨s', hfront⟩ := run_take hrun j
        obtain ⟨e, herror, hcode⟩ := decode_torn hfront hpre hne hsome
        have hk : k ≤ (specs.flatMap FrameSpec.wire).length := by
          by_contra hle
          exact hcut ⟨specs.length, by rw [List.take_length, List.take_of_length_le (by omega)]⟩
        rw [← htake, List.length_take_of_le hk] at hcode
        exact ⟨e, by rw [htake, herror], hcode⟩
  refine ⟨⟨fun hkept => ?_, fun ⟨j, hj⟩ => hbetween j hj⟩, hinside⟩
  by_contra hcut
  obtain ⟨kept, hkept⟩ := hkept
  obtain ⟨e, herror, -⟩ := hinside hcut
  rw [herror] at hkept
  cases hkept

/-- Two frames, cut off between the two, and in the payload of the second one. -/
theorem decode_cut_payload :
    let specs : List FrameSpec := [{ streamId := 1, payload := [1] }, { streamId := 2, payload := [2, 3] }]
    (∃ kept, decode ((specs.foldl encodeFrame {}).buffer.take 20) = .ok kept) ∧
    ∃ e, decode ((specs.foldl encodeFrame {}).buffer.take 40) = .error (.thrown e) ∧ e.code = .kShortRead := by
  intro specs
  have hok : ((fun r => r.framesSeen) <$> decode (specs.foldl encodeFrame {}).buffer) = .ok 2 := by
    decide +kernel
  cases hrun : decode (specs.foldl encodeFrame {}).buffer with
  | error e => rw [hrun] at hok; cases hok
  | ok result =>
      refine ⟨(decode_cut specs hrun 20).1.mpr ⟨1, by decide +kernel⟩, (decode_cut specs hrun 40).2 ?_⟩
      intro hcut
      obtain ⟨j, htake⟩ := hcut
      have hlen := congrArg List.length htake
      match j with
      | 0 => exact absurd hlen (by decide +kernel)
      | 1 => exact absurd hlen (by decide +kernel)
      | j + 2 =>
          have hall : specs.take (j + 2) = specs := List.take_of_length_le (Nat.le_add_left 2 j)
          rw [hall] at hlen
          exact absurd hlen (by decide +kernel)

end Bytewright.Streamcodec
