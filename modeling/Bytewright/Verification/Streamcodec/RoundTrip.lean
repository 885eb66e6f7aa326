import Bytewright.Verification.Streamcodec.Fragments
import Bytewright.Verification.Streamcodec.Isolation
import Mathlib.Data.List.Perm.Basic

/-! # Encoding, reordering and decoding -/

namespace Bytewright.Streamcodec

open Bytewright.Common Bytewright.Library

/-! ### Decoding encoded frames -/

/-- The frames a reader finds in encoded frames that begin at `pos`. -/
def framesAt (pos : Nat) : List FrameSpec → List Frame
  | [] => []
  | spec :: specs => spec.frame pos :: framesAt (pos + spec.wire.length) specs

theorem wire_length_pos (spec : FrameSpec) : 0 < spec.wire.length := by
  rw [FrameSpec.wire, List.length_append, header_length]
  exact Nat.add_pos_left (by decide) _

/-- Frames are no more than their bytes. -/
theorem length_le_wires (specs : List FrameSpec) : specs.length ≤ (specs.flatMap FrameSpec.wire).length :=
  length_le_flatMap fun spec _ => List.length_pos_iff.mp (wire_length_pos spec)

theorem decodeLoop_wire {specs : List FrameSpec} {fuel : Nat} (hfuel : specs.length < fuel)
    (first : Bool) {s s' : DecodeState} {r : ByteReader} (hr : r.rest = specs.flatMap FrameSpec.wire)
    (hrun : s.run (framesAt r.pos specs) = .ok s') :
    ∃ r', decodeLoop fuel first s r = .ok s' r' := by
  induction specs generalizing fuel first s r with
  | nil =>
      rcases fuel with _ | fuel
      · exact absurd hfuel (Nat.not_lt_zero _)
      · have heof : r.eof = true := r.eof_iff.mpr hr
        obtain rfl : s = s' := Except.ok.inj hrun
        exact ⟨r, by simp [decodeLoop, bind_run, heof]⟩
  | cons spec specs ih =>
      rcases fuel with _ | fuel
      · exact absurd hfuel (Nat.not_lt_zero _)
      · rw [List.flatMap_cons] at hr
        have heof : r.eof = false := by
          rw [← Bool.not_eq_true, r.eof_iff, hr]
          intro h
          have hpos := wire_length_pos spec
          rw [(List.append_eq_nil_iff.mp h).1] at hpos
          exact Nat.lt_irrefl 0 hpos
        rw [framesAt, DecodeState.run, List.foldlM_cons] at hrun
        cases hd : s.dispatch (spec.frame r.pos) with
        | error e =>
            rw [hd] at hrun
            cases hrun
        | ok s₁ =>
            rw [hd] at hrun
            have hrest : (r.advance spec.wire.length).rest = specs.flatMap FrameSpec.wire := by
              simp [hr]
            rcases ih (Nat.lt_of_succ_lt_succ hfuel) false hrest hrun with ⟨r', hr'⟩
            refine ⟨r', ?_⟩
            rw [decodeLoop, bind_of_ok (get_run r)]
            simp only [heof, Bool.false_eq_true, if_false]
            rw [bind_of_ok (nextFrame_wire first spec hr)]
            simp only [hd]
            exact hr'

/-- Decoding encoded frames is running the frame loop over them. -/
theorem decode_wire {specs : List FrameSpec} {s : DecodeState}
    (hrun : ({} : DecodeState).run (framesAt 0 specs) = .ok s) :
    decode (specs.flatMap FrameSpec.wire) = .ok s.finish := by
  have hlen := length_le_wires specs
  unfold decode
  split
  · next hzero =>
    have hnil : specs = [] := List.length_eq_zero_iff.mp (by omega)
    subst hnil
    rw [← Except.ok.inj hrun]
    rfl
  · rcases decodeLoop_wire (Nat.lt_succ_of_le hlen) true
      (r := { data := specs.flatMap FrameSpec.wire }) rfl hrun with ⟨r', hr'⟩
    rw [hr']

/-- Messages encoded one after the other are the frames of all of them. -/
theorem encodeMessages_eq (msgs : List MessageSpec) (w : ByteWriter) :
    msgs.foldl (fun w m => (encodeMessage w m).2) w =
      (msgs.flatMap MessageSpec.fragments).foldl encodeFrame w := by
  rw [List.foldl_flatMap]
  rfl

/-! ### The frames of one key -/

theorem framesAt_forall₂ (pos : Nat) (specs : List FrameSpec) :
    List.Forall₂ (fun spec f => ∃ pos, f = FrameSpec.frame spec pos) specs (framesAt pos specs) := by
  induction specs generalizing pos with
  | nil => exact .nil
  | cons spec specs ih => exact .cons ⟨pos, rfl⟩ (ih _)

theorem mem_framesAt {pos : Nat} {specs : List FrameSpec} {f : Frame} (hf : f ∈ framesAt pos specs) :
    ∃ spec ∈ specs, ∃ pos, f = FrameSpec.frame spec pos := by
  induction specs generalizing pos with
  | nil => exact absurd hf List.not_mem_nil
  | cons spec specs ih =>
      rcases List.mem_cons.mp hf with rfl | hf
      · exact ⟨spec, List.mem_cons_self .., pos, rfl⟩
      · rcases ih hf with ⟨spec', hspec, h⟩
        exact ⟨spec', List.mem_cons_of_mem spec hspec, h⟩

def FrameSpec.key (spec : FrameSpec) : Key := (spec.streamId, spec.msgId)

theorem piece_key (m : MessageSpec) (i : Nat) : (m.piece i).key = m.key := rfl

theorem framesAt_filter (pos : Nat) (specs : List FrameSpec) (k : Key) :
    List.Forall₂ (fun spec f => ∃ pos, f = FrameSpec.frame spec pos)
      (specs.filter (·.key = k)) ((framesAt pos specs).filter (·.key = k)) := by
  refine List.rel_filter ?_ (framesAt_forall₂ pos specs)
  rintro spec f ⟨pos, rfl⟩
  exact Iff.rfl

/-- Among messages with distinct keys, those with one given key. -/
theorem filter_key_eq {msgs : List MessageSpec} (hkeys : (msgs.map MessageSpec.key).Nodup) (k : Key) :
    msgs.filter (·.key = k) = [] ∨ ∃ m ∈ msgs, m.key = k ∧ msgs.filter (·.key = k) = [m] := by
  induction msgs with
  | nil => exact .inl rfl
  | cons m msgs ih =>
      rw [List.map_cons, List.nodup_cons] at hkeys
      by_cases hm : m.key = k
      · have hrest : msgs.filter (·.key = k) = [] := by
          refine List.filter_eq_nil_iff.mpr fun m' hm' hk => hkeys.1 ?_
          rw [hm, ← of_decide_eq_true hk]
          exact List.mem_map_of_mem hm'
        exact .inr ⟨m, List.mem_cons_self .., hm, by simp [hm, hrest]⟩
      · rw [List.filter_cons_of_neg (by simpa using hm)]
        rcases ih hkeys.2 with h | ⟨m', hm', hk, h⟩
        · exact .inl h
        · exact .inr ⟨m', List.mem_cons_of_mem m hm', hk, h⟩

theorem fragments_filter (msgs : List MessageSpec) (k : Key) :
    (msgs.flatMap MessageSpec.fragments).filter (·.key = k) =
      (msgs.filter (·.key = k)).flatMap MessageSpec.fragments := by
  induction msgs with
  | nil => rfl
  | cons m msgs ih =>
      have hkey : ∀ spec ∈ m.fragments, spec.key = m.key := by
        intro spec hspec
        rw [m.fragments_eq] at hspec
        rcases List.mem_map.mp hspec with ⟨i, -, rfl⟩
        exact piece_key m i
      rw [List.flatMap_cons, List.filter_append, ih]
      by_cases hm : m.key = k
      · rw [List.filter_cons_of_pos (by simpa using hm), List.flatMap_cons,
          List.filter_eq_self.mpr fun spec hspec => by simp [hkey spec hspec, hm]]
      · rw [List.filter_cons_of_neg (by simpa using hm),
          List.filter_eq_nil_iff.mpr fun spec hspec => by simp [hkey spec hspec, hm], List.nil_append]

/-- A shuffle of a message's fragments is its fragments at a shuffle of their numbers. -/
theorem pieces_of_perm {m : MessageSpec} (hlen : m.payload.length < 2 ^ 32) {specs : List FrameSpec}
    (hperm : specs.Perm m.fragments) {fs : List Frame}
    (hfs : List.Forall₂ (fun spec f => ∃ pos, f = FrameSpec.frame spec pos) specs fs) :
    ∃ is : List Nat, is.Perm (List.range m.fragCount) ∧ List.Forall₂ (Piece m) is fs := by
  have hrange : List.Forall₂ (fun spec i => i < m.fragCount ∧ spec = m.piece i) m.fragments
      (List.range m.fragCount) := by
    rw [m.fragments_eq, List.forall₂_map_left_iff, List.forall₂_same]
    exact fun i hi => ⟨List.mem_range.mp hi, rfl⟩
  rcases List.perm_comp_forall₂ hperm hrange with ⟨is, his, hperm'⟩
  refine ⟨is, hperm', ?_⟩
  clear hperm hperm' hrange
  induction his generalizing fs with
  | nil =>
      cases hfs
      exact .nil
  | cons h _ ih =>
      cases hfs with
      | cons hf hfs =>
          rcases h with ⟨hi, rfl⟩
          rcases hf with ⟨pos, rfl⟩
          exact .cons (piece_frame m hlen hi pos) (ih hfs)

/-! ### The messages decoded -/

theorem safeRun_acceptData {r : Reassembler} (fs : List Frame) :
    r.SafeRun (fs.map .acceptData) := by
  induction fs generalizing r with
  | nil => trivial
  | cons f fs ih => exact ⟨trivial, fun _ _ _ => ih⟩

theorem perm_of_filter_key {msgs msgs' : List Message}
    (h : ∀ k, msgs.filter (fun m => decide (m.key = k)) = msgs'.filter (fun m => decide (m.key = k))) :
    msgs.Perm msgs' := by
  refine List.perm_iff_count.mpr fun m => ?_
  have hcount := congrArg (List.count m) (h m.key)
  rwa [List.count_filter (by simp), List.count_filter (by simp)] at hcount

/-- Whether a call has to stay in a run that is projected onto one key. -/
def Call.touches (k : Key) : Call → Bool
  | .acceptData f => f.key = k
  | .resetStream _ => true

theorem selects_key (k : Key) :
    Partials.Selects (fun k' => decide (k' = k))
      (Call.touches k) where
  accept _ := rfl
  reset _ _ h := by simp [Call.touches] at h

/-- A run over the frames of all messages, projected onto one key: that key's message. -/
theorem emitted_filter_key {msgs : List MessageSpec} (hkeys : (msgs.map MessageSpec.key).Nodup)
    (hlen : ∀ m ∈ msgs, m.payload.length < 2 ^ 32) {specs : List FrameSpec}
    (hperm : specs.Perm (msgs.flatMap MessageSpec.fragments)) (v : Partials) (hv : v = fun _ => none)
    (k : Key) :
    (v.emitted ((framesAt 0 specs).map .acceptData)).filter (·.key = k) =
      (msgs.map MessageSpec.message).filter (·.key = k) := by
  have hspecs := hperm.filter (fun spec => decide (spec.key = k))
  have hfs := framesAt_filter 0 specs k
  have hmsgs : (msgs.map MessageSpec.message).filter (·.key = k) =
      (msgs.filter (·.key = k)).map MessageSpec.message := by
    rw [List.filter_map]
    rfl
  rw [Partials.emitted_filter (selects_key k) _ (fun _ _ => Eq.refl (v _)), List.filter_map, hmsgs]
  rw [fragments_filter] at hspecs
  change v.emitted (((framesAt 0 specs).filter (fun f => decide (f.key = k))).map .acceptData) = _
  rcases filter_key_eq hkeys k with hnone | ⟨m, hm, rfl, hone⟩
  · -- no message has this key, so no frame has it
    rw [hnone] at hspecs ⊢
    rw [hspecs.eq_nil] at hfs
    rw [List.forall₂_nil_left_iff.mp hfs]
    rfl
  · rw [hone] at hspecs ⊢
    rw [List.flatMap_cons, List.flatMap_nil, List.append_nil] at hspecs
    rcases pieces_of_perm (hlen m hm) hspecs hfs with ⟨is, his, hpieces⟩
    have hcur : v.current m.key = { streamId := m.streamId, msgId := m.msgId } := by
      rw [hv]
      rfl
    have hcount := m.fragCount_pos
    have hfresh : Assembled m [] (v.current m.key) := hcur ▸ Assembled.fresh m m.streamId m.msgId
    apply emitted_pieces hpieces hfresh
    · exact his.nodup_iff.mpr List.nodup_range
    · exact fun i hi => .inr (his.mem_iff.mpr (List.mem_range.mpr hi))
    · intro hnil
      have := his.length_eq
      rw [hnil, List.length_range] at this
      exact absurd this (Nat.ne_of_lt hcount)

theorem foldl_headerCrcBad {fs : List Frame} (h : ∀ f ∈ fs, (f.hasCrc && !f.crcOk) = false)
    (n : UInt64) : fs.foldl (fun n f => if f.hasCrc && !f.crcOk then n + 1 else n) n = n := by
  induction fs with
  | nil => rfl
  | cons f fs ih =>
      rw [List.foldl_cons, h f (List.mem_cons_self ..)]
      exact ih fun f' hf' => h f' (List.mem_cons_of_mem f hf')

theorem filterMap_call? {fs : List Frame} (h : ∀ f ∈ fs, f.type = .kData) :
    fs.filterMap Frame.call? = fs.map .acceptData := by
  rw [← List.filterMap_eq_map]
  refine List.filterMap_congr fun f hf => ?_
  simp [Frame.call?, h f hf]

/-- The frame loop over fragments is a run of the abstract reassembler, and no header CRC is wrong. -/
theorem decode_fragments {msgs : List MessageSpec} {specs : List FrameSpec}
    (hsent : ∀ spec ∈ specs, spec ∈ msgs.flatMap MessageSpec.fragments) :
    ∃ result, decode (specs.foldl encodeFrame {}).buffer = .ok result ∧
      result.messages =
        Partials.emitted (fun _ => none) ((framesAt 0 specs).map .acceptData) ∧
      result.headerCrcBad = 0 := by
  -- every frame is a DATA frame whose header CRC, if any, is right
  have hframe : ∀ f ∈ framesAt 0 specs, f.type = .kData ∧ (f.hasCrc && !f.crcOk) = false := by
    intro f hf
    rcases mem_framesAt hf with ⟨spec, hspec, pos, rfl⟩
    rcases List.mem_flatMap.mp (hsent spec hspec) with ⟨m, -, hm⟩
    rw [m.fragments_eq] at hm
    rcases List.mem_map.mp hm with ⟨i, -, rfl⟩
    exact ⟨rfl, by cases h : (m.piece i).withCrc <;> simp [FrameSpec.frame, h]⟩
  have hcalls : (framesAt 0 specs).filterMap Frame.call? = (framesAt 0 specs).map .acceptData :=
    filterMap_call? fun f hf => (hframe f hf).1
  rcases DecodeState.run_refines (s := {}) .empty (framesAt 0 specs)
    (by rw [hcalls]; exact safeRun_acceptData _) with ⟨s, hrun, hmsgs, -, hbad⟩
  refine ⟨s.finish, by rw [buffer_encodeFrames, decode_wire hrun], ?_, ?_⟩
  · rw [← Reassembler.partials_empty, ← hcalls]
    exact hmsgs
  · exact hbad.trans (foldl_headerCrcBad (fun f hf => (hframe f hf).2) 0)

/-- Decode of the frames of any messages with distinct keys, in any order, gives these messages,
each of them once. -/
theorem decode_encoded_messages {msgs : List MessageSpec} (hkeys : (msgs.map MessageSpec.key).Nodup)
    (hlen : ∀ m ∈ msgs, m.payload.length < 2 ^ 32) {specs : List FrameSpec}
    (hperm : specs.Perm (msgs.flatMap MessageSpec.fragments)) :
    ∃ result, decode (specs.foldl encodeFrame {}).buffer = .ok result ∧
      result.messages.Perm (msgs.map MessageSpec.message) ∧ result.headerCrcBad = 0 := by
  rcases decode_fragments fun spec hspec => hperm.subset hspec with ⟨result, hrun, hmsgs, hbad⟩
  refine ⟨result, hrun, perm_of_filter_key fun k => ?_, hbad⟩
  rw [hmsgs]
  exact emitted_filter_key hkeys hlen hperm _ rfl k

/-- A message in two fragments and an empty one, encoded one after the other, and with all frames the other
way round. -/
theorem decode_encoded_messages_twoOrders :
    let msgs : List MessageSpec :=
      [{ streamId := 1, msgId := 7, payload := [1, 2, 3], maxFragment := 2, withCrc := true },
        { streamId := 2, msgId := 7, payload := [], maxFragment := 0, compressed := true }]
    (∃ result, decode (msgs.foldl (fun w m => (encodeMessage w m).2) {}).buffer = .ok result ∧
      result.messages.Perm (msgs.map MessageSpec.message) ∧ result.headerCrcBad = 0) ∧
    ∃ result, decode ((msgs.flatMap MessageSpec.fragments).reverse.foldl encodeFrame {}).buffer =
        .ok result ∧
      result.messages.Perm (msgs.map MessageSpec.message) ∧ result.headerCrcBad = 0 := by
  intro msgs
  rw [encodeMessages_eq]
  exact ⟨decode_encoded_messages (by decide) (by decide) (.refl _),
    decode_encoded_messages (by decide) (by decide) (List.reverse_perm _)⟩

end Bytewright.Streamcodec
