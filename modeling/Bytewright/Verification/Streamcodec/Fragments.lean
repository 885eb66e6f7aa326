import Bytewright.Verification.Streamcodec.Framing
import Bytewright.Verification.Streamcodec.Reassembly

/-! # The fragments of one message -/

namespace Bytewright.Streamcodec

open Bytewright.Common Bytewright.Library

namespace MessageSpec

def key (m : MessageSpec) : Key := (m.streamId, m.msgId)

/-- The message a decoder is meant to hand out. -/
def message (m : MessageSpec) : Message where
  streamId := m.streamId
  msgId := m.msgId
  compressed := m.compressed
  data := m.payload

/-! ### Where the fragments begin -/

def start (m : MessageSpec) (i : Nat) : Nat := min (i * m.fragmentSize) m.payload.length

theorem fragmentSize_pos (m : MessageSpec) : 0 < m.fragmentSize := by
  unfold fragmentSize kMaxFramePayload
  split <;> omega

theorem fragmentSize_le (m : MessageSpec) : m.fragmentSize ≤ kMaxFramePayload := by
  unfold fragmentSize
  omega

theorem lt_fragCount_iff (m : MessageSpec) (hlen : m.payload.length ≠ 0) (i : Nat) :
    i < m.fragCount ↔ i * m.fragmentSize < m.payload.length := by
  have hpos := m.fragmentSize_pos
  rw [fragCount, if_neg hlen, ← Nat.succ_le_iff, Nat.le_div_iff_mul_le hpos, Nat.succ_mul]
  omega

theorem fragCount_pos (m : MessageSpec) : 0 < m.fragCount := by
  by_cases hlen : m.payload.length = 0
  · rw [fragCount, if_pos hlen]
    exact Nat.one_pos
  · rw [m.lt_fragCount_iff hlen]
    omega

theorem start_zero (m : MessageSpec) : m.start 0 = 0 := by
  rw [start, Nat.zero_mul, Nat.zero_min]

theorem start_le (m : MessageSpec) (i : Nat) : m.start i ≤ m.payload.length :=
  Nat.min_le_right _ _

theorem start_mono (m : MessageSpec) {i j : Nat} (h : i ≤ j) : m.start i ≤ m.start j := by
  have hmul : i * m.fragmentSize ≤ j * m.fragmentSize := Nat.mul_le_mul_right _ h
  unfold start
  omega

theorem start_succ (m : MessageSpec) (i : Nat) :
    m.start (i + 1) = m.start i + min m.fragmentSize (m.payload.length - m.start i) := by
  unfold start
  rw [Nat.succ_mul]
  omega

theorem start_fragCount (m : MessageSpec) : m.start m.fragCount = m.payload.length := by
  by_cases hlen : m.payload.length = 0
  · exact Nat.le_antisymm (m.start_le _) (hlen ▸ Nat.zero_le _)
  · have h := (m.lt_fragCount_iff hlen m.fragCount).not.mp (Nat.lt_irrefl _)
    unfold start
    omega

theorem start_lt_succ (m : MessageSpec) {i : Nat} (hlen : m.payload.length ≠ 0)
    (hi : i < m.fragCount) : m.start i < m.start (i + 1) := by
  have h := (m.lt_fragCount_iff hlen i).mp hi
  have hpos := m.fragmentSize_pos
  rw [start_succ]
  unfold start
  omega

/-- Every byte of the payload lies in one fragment. -/
theorem exists_start (m : MessageSpec) {x : Nat} (hx : x < m.payload.length) :
    ∃ i < m.fragCount, m.start i ≤ x ∧ x < m.start (i + 1) := by
  have hpos := m.fragmentSize_pos
  have hdiv : x / m.fragmentSize * m.fragmentSize ≤ x := Nat.div_mul_le_self _ _
  have hmod : x < (x / m.fragmentSize + 1) * m.fragmentSize := by
    rw [Nat.succ_mul, Nat.mul_comm]
    exact Nat.lt_mul_div_succ x hpos |>.trans_eq (by rw [Nat.mul_succ])
  refine ⟨x / m.fragmentSize, (m.lt_fragCount_iff (by omega) _).mpr (by omega), ?_, ?_⟩
  · unfold start
    omega
  · unfold start
    omega

/-- No byte lies in two. -/
theorem start_unique (m : MessageSpec) {i j x : Nat} (hi : m.start i ≤ x) (hi' : x < m.start (i + 1))
    (hj : m.start j ≤ x) (hj' : x < m.start (j + 1)) : i = j := by
  rcases Nat.lt_trichotomy i j with h | h | h
  · exact absurd (m.start_mono (i := i + 1) (j := j) h) (by omega)
  · exact h
  · exact absurd (m.start_mono (i := j + 1) (j := i) h) (by omega)

/-! ### The frames of the encoder's loop -/

theorem fragmentsFrom_eq (m : MessageSpec) (left i : Nat) (seq : UInt16) :
    m.fragmentsFrom left i (m.start i) seq =
      (List.range left).map (fun j => m.fragment (i + j) (m.start (i + j)) (seq + UInt16.ofNat j)) := by
  induction left generalizing i seq with
  | zero => rfl
  | succ left ih =>
      rw [fragmentsFrom, ← start_succ, ih, List.range_succ_eq_map, List.map_cons, List.map_map]
      refine congrArg₂ _ (by simp) (List.map_congr_left fun j _ => ?_)
      have hi : i + 1 + j = i + (j + 1) := by omega
      have hseq : seq + 1 + UInt16.ofNat j = seq + UInt16.ofNat (j + 1) := by
        rw [Nat.add_comm j 1, UInt16.ofNat_add, UInt16.add_assoc]
        rfl
      simp only [Function.comp_apply, hi, hseq]

/-- The frame number `i` of a message. -/
def piece (m : MessageSpec) (i : Nat) : FrameSpec :=
  m.fragment i (m.start i) (m.firstSeq + UInt16.ofNat i)

theorem fragments_eq (m : MessageSpec) : m.fragments = (List.range m.fragCount).map m.piece := by
  have h := m.fragmentsFrom_eq m.fragCount 0 m.firstSeq
  simp only [start_zero, Nat.zero_add] at h
  exact h

theorem piece_payload (m : MessageSpec) (i : Nat) :
    (m.piece i).payload = (m.payload.drop (m.start i)).take (m.start (i + 1) - m.start i) := by
  rw [start_succ, Nat.add_sub_cancel_left]
  by_cases hchunk : min m.fragmentSize (m.payload.length - m.start i) = 0
  · simp [piece, fragment, hchunk]
  · simp [piece, fragment, hchunk]

theorem piece_payload_length (m : MessageSpec) (i : Nat) :
    (m.piece i).payload.length = m.start (i + 1) - m.start i := by
  have hle := m.start_le (i + 1)
  rw [piece_payload, List.length_take, List.length_drop]
  omega

theorem piece_payloadLen (m : MessageSpec) (i : Nat) :
    (m.piece i).payloadLen = (m.piece i).payload.length := by
  have hsize := m.fragmentSize_le
  have hsucc := m.start_succ i
  rw [FrameSpec.payloadLen, piece_payload_length]
  omega

end MessageSpec

/-! ### What a frame of the message tells the reassembler -/

/-- The frame `f` carries fragment `i` of the message. -/
structure Piece (m : MessageSpec) (i : Nat) (f : Frame) : Prop where
  lt : i < m.fragCount
  key : f.key = m.key
  begin : PartialMessage.beginOf f = m.start i
  finish : PartialMessage.endOf f = m.start (i + 1)
  payload : f.payload = (m.payload.drop (m.start i)).take (m.start (i + 1) - m.start i)
  fin : f.fin = decide (i + 1 = m.fragCount)
  compressed : f.compressed = m.compressed

/-- The flags of a fragment, from the three facts that decide them. -/
def pieceFlags (multi last compressed : Bool) : UInt8 :=
  let flags : UInt8 := if multi then 0 ||| kFlagFrag else 0
  let flags := if last then flags ||| kFlagFin else flags
  if compressed then flags ||| kFlagCompressed else flags

theorem piece_flags (m : MessageSpec) (i : Nat) :
    (m.piece i).flags =
      pieceFlags (decide (m.fragCount > 1)) (decide (i + 1 = m.fragCount)) m.compressed := by
  simp [MessageSpec.piece, MessageSpec.fragment, pieceFlags]

theorem pieceFlags_bits (multi last compressed : Bool) :
    decide (pieceFlags multi last compressed &&& kFlagFin ≠ 0) = last ∧
      decide (pieceFlags multi last compressed &&& kFlagFrag ≠ 0) = multi ∧
      decide (pieceFlags multi last compressed &&& kFlagCompressed ≠ 0) = compressed := by
  revert multi last compressed
  decide

theorem piece_frame (m : MessageSpec) (hlen : m.payload.length < 2 ^ 32) {i : Nat}
    (hi : i < m.fragCount) (headerOffset : Nat) :
    Piece m i ((m.piece i).frame headerOffset) := by
  have hpayload : ((m.piece i).frame headerOffset).payload = (m.piece i).payload := by
    rw [FrameSpec.frame, m.piece_payloadLen, List.take_length]
  have hbegin : PartialMessage.beginOf ((m.piece i).frame headerOffset) = m.start i := by
    have hfrag : ((m.piece i).frame headerOffset).frag = decide (m.fragCount > 1) := by
      simp only [Frame.frag, FrameSpec.frame, wireFlags_and _ (.inr (.inl rfl)), piece_flags,
        (pieceFlags_bits _ _ _).2.1]
    have hoff : ((m.piece i).frame headerOffset).fragOffset.toNat = m.start i := by
      have hle := m.start_le i
      simp only [FrameSpec.frame, MessageSpec.piece, MessageSpec.fragment, UInt32.toNat_ofNat']
      omega
    rw [PartialMessage.beginOf, hfrag, hoff]
    by_cases h₁ : m.fragCount > 1
    · simp [h₁]
    · obtain rfl : i = 0 := by omega
      simp [h₁, m.start_zero]
  refine ⟨hi, rfl, hbegin, ?_, hpayload.trans (m.piece_payload i), ?_, ?_⟩
  · have hmono := m.start_mono (j := i + 1) (Nat.le_succ i)
    have hle := m.start_le (i + 1)
    rw [PartialMessage.endOf, hbegin, hpayload, m.piece_payload_length]
    omega
  · simp only [Frame.fin, FrameSpec.frame, wireFlags_and _ (.inl rfl), piece_flags,
      (pieceFlags_bits _ _ _).1]
  · simp only [Frame.compressed, FrameSpec.frame, wireFlags_and _ (.inr (.inr rfl)), piece_flags,
      (pieceFlags_bits _ _ _).2.2]

/-! ### A message in the making -/

/-- The partial message once the fragments in `placed` have arrived. -/
structure Assembled (m : MessageSpec) (placed : List Nat) (p : PartialMessage) : Prop where
  canonical : Canonical p.ranges
  covered : ∀ x, x ∈ covered p.ranges ↔ ∃ i ∈ placed, m.start i ≤ x ∧ x < m.start (i + 1)
  length : p.buffer.length = p.highWater
  highWater_le : p.highWater ≤ m.payload.length
  buffer : ∀ x ∈ Library.covered p.ranges, p.buffer[x]? = m.payload[x]?
  inside : ∀ x ∈ Library.covered p.ranges, x < p.buffer.length
  fin : p.haveFin = true ↔ ∃ i ∈ placed, i + 1 = m.fragCount
  totalLen : p.haveFin = true → p.totalLen = m.payload.length
  compressed : p.compressed = (!placed.isEmpty && m.compressed)

namespace Assembled

variable {m : MessageSpec} {placed : List Nat} {p : PartialMessage}

theorem fresh (m : MessageSpec) (streamId : UInt16) (msgId : UInt32) :
    Assembled m [] { streamId, msgId } where
  canonical := .nil
  covered x := by simp [covered_nil]
  length := rfl
  highWater_le := Nat.zero_le _
  buffer x hx := by simp [covered_nil] at hx
  inside x hx := by simp [covered_nil] at hx
  fin := by simp
  totalLen h := by simp at h
  compressed := rfl

/-- One more fragment arrives. -/
theorem place (h : Assembled m placed p) {i : Nat} {f : Frame} (hf : Piece m i f) :
    Assembled m (i :: placed) (p.place f) := by
  have hmono := m.start_mono (j := i + 1) (Nat.le_succ i)
  have hle := m.start_le (i + 1)
  have hpayload : f.payload.length = m.start (i + 1) - m.start i := by
    rw [hf.payload, List.length_take, List.length_drop]
    omega
  have hend : m.start (i + 1) = m.start i + f.payload.length := by omega
  have hcov : ∀ x, x ∈ Library.covered (p.place f).ranges ↔
      x ∈ Library.covered p.ranges ∨ m.start i ≤ x ∧ x < m.start (i + 1) := by
    intro x
    rw [PartialMessage.place_ranges, h.canonical.covered_addSpan, hf.begin, hf.finish, Set.mem_union,
      Set.mem_Ico]
  have hbuffer : (p.place f).buffer =
      PartialMessage.fill p.buffer f.payload (m.start i) (m.start i + f.payload.length) := by
    rw [PartialMessage.place_buffer, hf.begin, hf.finish, hend]
  have hlength : (p.place f).buffer.length = (p.place f).highWater := by
    rw [PartialMessage.place_buffer, PartialMessage.length_fill, PartialMessage.place_highWater,
      h.length]
  have hhigh := h.highWater_le
  refine ⟨?_, ?_, hlength, ?_, ?_, ?_, ?_, ?_, ?_⟩
  · rw [PartialMessage.place_ranges]
    exact h.canonical.addSpan _ _
  · intro x
    rw [hcov, h.covered, List.exists_mem_cons_iff, or_comm]
  · rw [PartialMessage.place_highWater, hf.finish]
    omega
  · intro x hx
    rw [hbuffer]
    by_cases hin : m.start i ≤ x ∧ x < m.start (i + 1)
    · rw [PartialMessage.getElem?_fill_inside hin.1 (hend ▸ hin.2) (Nat.le_refl _) (.inl rfl), hf.payload,
        List.getElem?_take_of_lt (by omega), List.getElem?_drop]
      congr 1
      omega
    · have hx : x ∈ Library.covered p.ranges := ((hcov x).mp hx).resolve_right hin
      rw [PartialMessage.getElem?_fill_outside (h.inside x hx) (by omega) (Nat.le_add_right ..)
        (Nat.le_refl _) (.inl rfl)]
      exact h.buffer x hx
  · intro x hx
    rw [hlength, PartialMessage.place_highWater, hf.finish]
    rcases (hcov x).mp hx with hx | ⟨-, hx⟩
    · have := h.inside x hx
      have := h.length
      omega
    · omega
  · rw [PartialMessage.place_haveFin, Bool.or_eq_true, h.fin, hf.fin, decide_eq_true_eq,
      List.exists_mem_cons_iff, or_comm]
  · intro hfin
    rw [PartialMessage.place_totalLen, hf.fin, hf.finish]
    by_cases hlast : i + 1 = m.fragCount
    · rw [if_pos (decide_eq_true hlast), hlast, m.start_fragCount]
      omega
    · rw [PartialMessage.place_haveFin, hf.fin, decide_eq_false hlast, Bool.or_false] at hfin
      rw [decide_eq_false hlast]
      exact h.totalLen hfin
  · rw [PartialMessage.place_compressed, hf.compressed, h.compressed]
    cases placed <;> cases m.compressed <;> rfl

/-- The partial is complete exactly when no fragment is missing. -/
theorem isComplete_iff (h : Assembled m placed p) :
    p.isComplete = true ↔ ∀ i < m.fragCount, i ∈ placed := by
  have hcount := m.fragCount_pos
  constructor
  · intro hc i hi
    unfold PartialMessage.isComplete at hc
    split at hc
    · cases hc
    · next hfin =>
      have hfin : p.haveFin = true := by simpa using hfin
      have htotal := h.totalLen hfin
      rw [htotal] at hc
      split at hc
      · next hlen =>
        -- an empty message has one fragment, which carries FIN
        have hone : m.fragCount = 1 := by rw [MessageSpec.fragCount, if_pos hlen]
        rcases h.fin.mp hfin with ⟨j, hj, hj'⟩
        obtain rfl : j = i := by omega
        exact hj
      · next hlen =>
        split at hc
        · next b e hranges =>
          rcases Bool.and_eq_true_iff.mp hc with ⟨hb, he⟩
          have hb : b = 0 := of_decide_eq_true hb
          have he : m.payload.length ≤ e := of_decide_eq_true he
          have hstep := m.start_lt_succ hlen hi
          have hle := m.start_le (i + 1)
          have hx : m.start i ∈ Library.covered p.ranges :=
            ⟨(b, e), by rw [hranges]; exact List.mem_cons_self .., by simp only; omega, by simp only; omega⟩
          rcases (h.covered _).mp hx with ⟨j, hj, hj₁, hj₂⟩
          rw [m.start_unique (le_refl _) hstep hj₁ hj₂]
          exact hj
        · cases hc
  · intro hall
    have hfin : p.haveFin = true := h.fin.mpr ⟨m.fragCount - 1, hall _ (by omega), by omega⟩
    have htotal := h.totalLen hfin
    unfold PartialMessage.isComplete
    rw [hfin, htotal]
    by_cases hlen : m.payload.length = 0
    · simp [hlen]
    · have hcov : Library.covered p.ranges = Set.Ico 0 m.payload.length := by
        ext x
        rw [h.covered, Set.mem_Ico]
        constructor
        · rintro ⟨i, -, -, hx⟩
          exact ⟨Nat.zero_le x, hx.trans_le (m.start_le _)⟩
        · rintro ⟨-, hx⟩
          rcases m.exists_start hx with ⟨i, hi, hx₁, hx₂⟩
          exact ⟨i, hall i hi, hx₁, hx₂⟩
      have hranges := h.canonical.eq_singleton (Nat.pos_of_ne_zero hlen) hcov
      simp [hlen, hranges]

/-- What a complete partial hands out is the payload. -/
theorem data_eq (h : Assembled m placed p) (hall : ∀ i < m.fragCount, i ∈ placed) :
    p.buffer.take p.totalLen = m.payload := by
  have hcount := m.fragCount_pos
  have hfin : p.haveFin = true := h.fin.mpr ⟨m.fragCount - 1, hall _ (by omega), by omega⟩
  rw [h.totalLen hfin]
  apply List.ext_getElem?
  intro x
  by_cases hx : x < m.payload.length
  · rcases m.exists_start hx with ⟨i, hi, hx₁, hx₂⟩
    rw [List.getElem?_take_of_lt hx]
    exact h.buffer x ((h.covered x).mpr ⟨i, hall i hi, hx₁, hx₂⟩)
  · rw [List.getElem?_eq_none (by simp; omega), List.getElem?_eq_none (by omega)]

end Assembled

/-! ### All fragments of a message, in any order -/

/-- The fragments that are still to come complete the message with the last of them. -/
theorem emitted_pieces {m : MessageSpec} {is : List Nat} {fs : List Frame}
    (hfs : List.Forall₂ (Piece m) is fs) {placed : List Nat} {v : Partials}
    (hv : Assembled m placed (v.current m.key))
    (hdistinct : (placed.reverse ++ is).Nodup) (hall : ∀ i < m.fragCount, i ∈ placed ∨ i ∈ is)
    (hmissing : is ≠ []) : v.emitted (fs.map .acceptData) = [m.message] := by
  induction hfs generalizing placed v with
  | nil => exact absurd rfl hmissing
  | @cons i f is fs hf hfs ih =>
      have hnew : Assembled m (i :: placed) ((v.current m.key).place f) := hv.place hf
      have hcomplete := hnew.isComplete_iff
      rw [List.map_cons, Partials.emitted, Partials.call, Partials.accept, hf.key]
      rcases is with _ | ⟨j, is⟩
      · -- this was the last one
        have hdone : ∀ j < m.fragCount, j ∈ i :: placed := fun j hj => by
          rcases hall j hj with h | h
          · exact List.mem_cons_of_mem i h
          · rw [List.mem_singleton.mp h]
            exact List.mem_cons_self ..
        have hkey : (f.streamId, f.msgId) = (m.streamId, m.msgId) := hf.key
        obtain ⟨hstream, hmsg⟩ := Prod.mk.inj hkey
        cases hfs
        simp only [hcomplete.mpr hdone, if_true, hnew.data_eq hdone, hnew.compressed]
        simp [Partials.emitted, MessageSpec.message, hstream, hmsg]
      · have hj : j ∉ i :: placed := by
          rw [List.nodup_append] at hdistinct
          rintro hmem
          rcases List.mem_cons.mp hmem with rfl | hmem
          · exact (List.nodup_cons.mp hdistinct.2.1).1 (List.mem_cons_self ..)
          · exact hdistinct.2.2 j (List.mem_reverse.mpr hmem) j (by simp) rfl
        have hopen : ((v.current m.key).place f).isComplete = false := by
          rw [← Bool.not_eq_true, hcomplete]
          intro hdone
          cases hfs with
          | cons hj' _ => exact hj (hdone j hj'.lt)
        simp only [hopen, Bool.false_eq_true, if_false, Option.toList_none, List.nil_append]
        have hnext : Assembled m (i :: placed) (Partials.current
            (Function.update v m.key (some ((v.current m.key).place f))) m.key) := by
          simpa [Partials.current] using hnew
        refine ih hnext ?_ ?_ (List.cons_ne_nil _ _)
        · simpa using hdistinct
        · intro j' hj'
          rcases hall j' hj' with h | h
          · exact .inl (List.mem_cons_of_mem i h)
          · rcases List.mem_cons.mp h with rfl | h
            · exact .inl (List.mem_cons_self ..)
            · exact .inr h

end Bytewright.Streamcodec
