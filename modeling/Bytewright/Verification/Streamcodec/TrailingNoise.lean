import Bytewright.Verification.Streamcodec.FrameReader
import Bytewright.Verification.Streamcodec.Resync

/-! # Noise behind the last frame -/

namespace Bytewright.Streamcodec

open Bytewright.Common Bytewright.Library

/-! ### The scan that runs out of input -/

theorem atSync_noise {tail : Bytes} (hfree : SyncFree tail []) {r : ByteReader} (hr : r.rest = tail) :
    atSync r = false := by
  rw [← Bool.not_eq_true, atSync_iff, hr]
  intro hprefix
  have hpos : 0 < tail.length := by
    have := hprefix.length_le
    rw [beBytes_length] at this
    omega
  refine hfree 0 hpos ?_
  rwa [List.append_nil, List.drop_zero]

theorem resync_noise {tail : Bytes} (hfree : SyncFree tail []) {left : Nat}
    (hleft : tail.length ≤ left + 1) {r : ByteReader} (hr : r.rest = tail) :
    resync left r = .ok false (r.advance (tail.length - 1)) := by
  induction left generalizing tail r with
  | zero =>
      have hzero : tail.length - 1 = 0 := by omega
      rw [hzero]
      rfl
  | succ left ih =>
      rw [resync, bind_of_ok (get_run r)]
      by_cases hremaining : r.remaining < 2
      · have hzero : tail.length - 1 = 0 := by rw [r.remaining_eq, hr] at hremaining; omega
        rw [if_pos hremaining, hzero]
        rfl
      · rw [if_neg hremaining, if_neg (by rw [atSync_noise hfree hr]; simp)]
        cases tail with
        | nil => simp [r.remaining_eq, hr] at hremaining
        | cons b tail =>
            have hskip : skip 1 r = .ok () (r.advance 1) := skip_run (by rw [hr]; simp)
            have hrest : (r.advance 1).rest = tail := by rw [ByteReader.rest_advance, hr]; rfl
            have htail : 1 ≤ tail.length := by
              rw [r.remaining_eq, hr, List.length_cons] at hremaining
              omega
            rw [bind_of_ok hskip, ih (syncFree_tail hfree) (Nat.le_of_succ_le_succ hleft) hrest,
              ByteReader.advance_advance, List.length_cons]
            congr 2
            omega

/-- Behind the first frame, aligning on noise consumes all of it. -/
theorem alignToSync_noise {tail : Bytes} (hfree : SyncFree tail []) (hlen : tail.length < kResyncWindow)
    {r : ByteReader} (hr : r.rest = tail) :
    alignToSync false r = .ok () (r.advance tail.length) := by
  have hremaining : (r.advance (tail.length - 1)).remaining < 2 := by
    rw [ByteReader.remaining_eq, ByteReader.rest_advance, hr, List.length_drop]
    omega
  have hskip := skip_run (r := r.advance (tail.length - 1)) (Nat.le_of_eq (ByteReader.remaining_eq _))
  rw [alignToSync, bind_of_ok (get_run r), if_neg (by rw [atSync_noise hfree hr]; simp)]
  simp only [Bool.false_eq_true, if_false]
  rw [bind_of_ok (resync_noise hfree (Nat.le_succ_of_le hlen.le) hr), if_neg (by simp),
    bind_of_ok (get_run _), if_pos hremaining, hskip, ByteReader.advance_advance,
    ByteReader.remaining_eq, ByteReader.rest_advance, hr, List.length_drop]
  congr 2
  omega

/-- What `FrameReader::next` throws once aligning has consumed the noise. -/
def noFrame (offset : Nat) : Fault :=
  .thrown ⟨.kShortRead, offset, "no frame remaining after sync alignment"⟩

theorem nextFrame_noise {tail : Bytes} (hfree : SyncFree tail []) (hlen : tail.length < kResyncWindow)
    {r : ByteReader} (hr : r.rest = tail) :
    nextFrame false r = .error (noFrame (r.pos + tail.length)) (r.advance tail.length) := by
  have hremaining : (r.advance tail.length).remaining < 2 := by
    rw [ByteReader.remaining_eq, ByteReader.rest_advance, hr, List.drop_length]
    decide
  rw [nextFrame, bind_of_ok (alignToSync_noise hfree hlen hr), bind_of_ok (get_run _), if_pos hremaining]
  rfl

/-! ### The frame loop -/

/-- The loop takes the frames off the longer buffer as well, and then throws on the noise. -/
theorem decodeLoop_noise {fuel fuel' : Nat} (hfuel : fuel ≤ fuel') {first : Bool} {s t : DecodeState}
    {r u r' : ByteReader} {tail : Bytes} (h : decodeLoop fuel first s r = .ok t u)
    (hrest : r'.rest = r.rest ++ tail) (hpos : r'.pos = r.pos) (hfirst : first = true → r.rest ≠ [])
    (htail : tail ≠ []) (hfree : SyncFree tail []) (hlen : tail.length < kResyncWindow) :
    ∃ v, decodeLoop fuel' first s r' = .error (noFrame r'.size) v := by
  induction fuel generalizing fuel' first s r r' with
  | zero => cases h
  | succ fuel ih =>
      obtain ⟨fuel', rfl⟩ : ∃ k, fuel' = k + 1 := Nat.exists_eq_succ_of_ne_zero (by omega)
      have heof' : ¬ r'.eof = true := by
        rw [r'.eof_iff, hrest]
        exact fun h => htail (List.append_eq_nil_iff.mp h).2
      rw [decodeLoop, bind_of_ok (get_run r)] at h
      rw [decodeLoop, bind_of_ok (get_run r'), if_neg heof']
      by_cases heof : r.eof = true
      · -- every frame is taken, what is left is noise
        have hnil := r.eof_iff.mp heof
        rw [hnil, List.nil_append] at hrest
        have hsize : r'.pos + tail.length = r'.size := by
          change r'.pos + tail.length = r'.data.length
          have hlen' := List.length_pos_of_ne_nil htail
          rw [← hrest, ByteReader.rest, List.length_drop] at hlen' ⊢
          omega
        obtain rfl : first = false := Bool.eq_false_of_not_eq_true fun hf => hfirst hf hnil
        rw [bind_of_error (nextFrame_noise hfree hlen hrest), hsize]
        exact ⟨_, rfl⟩
      · rw [if_neg heof] at h
        obtain ⟨f, r₁, hframe, h⟩ := bind_eq_ok.mp h
        obtain ⟨n, hframe', rfl, hn⟩ := nextFrame_append hframe hrest hpos
        rw [bind_of_ok hframe']
        cases hdispatch : s.dispatch f with
        | error e =>
            rw [hdispatch] at h
            cases h
        | ok s₁ =>
            rw [hdispatch] at h
            have hrest₁ : (r'.advance n).rest = (r.advance n).rest ++ tail := by
              rw [ByteReader.rest_advance, hrest, List.drop_append_of_le_length hn,
                ByteReader.rest_advance]
            exact ih (Nat.le_of_succ_le_succ hfuel) h hrest₁
              (by rw [ByteReader.pos_advance, ByteReader.pos_advance, hpos]) (by simp)

/-- Noise behind a stream that decodes leaves the result alone exactly if there is none: the scan
consumes it, but `next` has no frame to return then. -/
theorem decode_noise_iff {data tail : Bytes} {result : DecodeResult} (hdata : data ≠ [])
    (hresult : decode data = .ok result) (hlen : tail.length ≤ kResyncWindow - 1)
    (hfree : SyncFree tail []) :
    (decode (data ++ tail) = .ok result ↔ tail = []) ∧
      (tail ≠ [] → decode (data ++ tail) = .error (noFrame (data ++ tail).length)) := by
  have hthrows : tail ≠ [] → decode (data ++ tail) = .error (noFrame (data ++ tail).length) := by
    intro htail
    have hpos := List.length_pos_of_ne_nil hdata
    rw [decode, if_neg (by omega)] at hresult
    rw [decode, if_neg (by rw [List.length_append]; omega)]
    cases hloop : decodeLoop (data.length + 1) true {} { data } with
    | error e u =>
        rw [hloop] at hresult
        cases hresult
    | ok t u =>
        have hfuel : data.length + 1 ≤ (data ++ tail).length + 1 := by
          rw [List.length_append]
          omega
        have hrest : ({ data := data ++ tail } : ByteReader).rest =
            ({ data } : ByteReader).rest ++ tail := rfl
        obtain ⟨v, hv⟩ := decodeLoop_noise hfuel hloop hrest rfl (fun _ => hdata) htail hfree
          (by rw [kResyncWindow] at hlen ⊢; omega)
        rw [hv]
  refine ⟨⟨fun h => ?_, fun h => ?_⟩, hthrows⟩
  · by_contra htail
    rw [hthrows htail] at h
    cases h
  · rw [h, List.append_nil, hresult]

/-- The stream of one RESET frame, and one zero byte behind it. -/
theorem decode_noise_iff_reset :
    ∃ result, decode (encodeFrame {} { type := .kReset }).buffer = .ok result ∧
      decode ((encodeFrame {} { type := .kReset }).buffer ++ [0]) ≠ .ok result := by
  have hreturns : (decode (encodeFrame {} { type := .kReset }).buffer).isOk = true := by decide +kernel
  cases hresult : decode (encodeFrame {} { type := .kReset }).buffer with
  | error e =>
      rw [hresult] at hreturns
      cases hreturns
  | ok result =>
      refine ⟨result, rfl, fun h => ?_⟩
      have hfree : SyncFree [0] [] := by decide
      have htail := (decode_noise_iff (by decide) hresult (by decide) hfree).1.mp h
      cases htail

/-- One byte behind a stream voids it. -/
theorem decode_noise_throws :
    ¬ ∀ (data tail : Bytes) (result : DecodeResult), data ≠ [] → decode data = .ok result →
      tail.length ≤ kResyncWindow - 1 → SyncFree tail [] → decode (data ++ tail) = .ok result := by
  intro h
  have hreturns : (decode (encodeFrame {} { type := .kReset }).buffer).isOk = true := by decide +kernel
  have hthrows : (decode ((encodeFrame {} { type := .kReset }).buffer ++ [0])).isOk = false := by
    decide +kernel
  cases hresult : decode (encodeFrame {} { type := .kReset }).buffer with
  | error e =>
      rw [hresult] at hreturns
      cases hreturns
  | ok result =>
      rw [h _ [0] result (by decide) hresult (by decide) (by decide)] at hthrows
      cases hthrows

end Bytewright.Streamcodec
