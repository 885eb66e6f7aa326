import Bytewright.Library.Counting
import Bytewright.Verification.Streamcodec.FrameReader
import Bytewright.Verification.Streamcodec.Isolation

/-! # The statistics of a decoded stream -/

namespace Bytewright.Streamcodec

open Bytewright.Common Bytewright.Library

/-! ### The frames of a buffer -/

/-- The frame loop without its body: the frames up to the end of the buffer. -/
def readFrames : (fuel : Nat) → (first : Bool) → Reader (List Frame)
  | 0, _ => throw .diverged
  | fuel + 1, first => do
    if (← get).eof then return []
    let f ← nextFrame first
    return f :: (← readFrames fuel false)

/-- The frames of the buffer. -/
def frames (data : Bytes) : Outcome (List Frame) :=
  match readFrames (data.length + 1) true { data } with
  | .ok fs _ => .ok fs
  | .error e _ => .error e

theorem bytes_length (f : Frame) : kHeaderFixedBytes ≤ f.bytes.length := by
  rw [Frame.bytes, List.length_append, f.header_length]
  exact Nat.le_add_right ..

/-- A frame takes at least its header off the buffer. -/
theorem nextFrame_length {first : Bool} {f : Frame} {r s : ByteReader}
    (h : nextFrame first r = .ok f s) : s.rest.length + kHeaderFixedBytes ≤ r.rest.length := by
  obtain ⟨k, -, -, -, -, hbytes, rfl⟩ := nextFrame_ok h
  have hlen := congrArg List.length hbytes
  have hheader := bytes_length f
  rw [List.length_append] at hlen
  simp only [ByteReader.rest_advance, List.length_drop] at hlen ⊢
  omega

theorem readFrames_ok {fuel : Nat} {first : Bool} {fs : List Frame} {r u : ByteReader}
    (h : readFrames fuel first r = .ok fs u) :
    kHeaderFixedBytes * fs.length ≤ r.rest.length ∧ ∀ f ∈ fs, f.Received := by
  induction fuel generalizing first fs r with
  | zero => cases h
  | succ fuel ih =>
      rw [readFrames, bind_of_ok (get_run r)] at h
      by_cases heof : r.eof = true
      · rw [if_pos heof] at h
        cases h
        exact ⟨Nat.zero_le _, by simp⟩
      · rw [if_neg heof] at h
        obtain ⟨f, r₁, hframe, h⟩ := bind_eq_ok.mp h
        obtain ⟨fs', r₂, hframes, h⟩ := bind_eq_ok.mp h
        cases h
        obtain ⟨hlen, hreceived⟩ := ih hframes
        have hlen₁ := nextFrame_length hframe
        obtain ⟨-, -, -, hf, -⟩ := nextFrame_ok hframe
        refine ⟨?_, List.forall_mem_cons.mpr ⟨hf, hreceived⟩⟩
        rw [List.length_cons, Nat.mul_succ]
        omega

/-- The frame loop is its body run over the frames of the buffer. -/
theorem decodeLoop_ok {fuel : Nat} {first : Bool} {s t : DecodeState} {r u : ByteReader}
    (h : decodeLoop fuel first s r = .ok t u) :
    ∃ fs, readFrames fuel first r = .ok fs u ∧ s.run fs = .ok t := by
  induction fuel generalizing first s r with
  | zero => cases h
  | succ fuel ih =>
      rw [decodeLoop, bind_of_ok (get_run r)] at h
      rw [readFrames, bind_of_ok (get_run r)]
      by_cases heof : r.eof = true
      · rw [if_pos heof] at h ⊢
        cases h
        exact ⟨[], rfl, rfl⟩
      · rw [if_neg heof] at h ⊢
        obtain ⟨f, r₁, hframe, h⟩ := bind_eq_ok.mp h
        cases hdispatch : s.dispatch f with
        | error e =>
            rw [hdispatch] at h
            cases h
        | ok s₁ =>
            rw [hdispatch] at h
            obtain ⟨fs, hframes, hrun⟩ := ih h
            refine ⟨f :: fs, ?_, ?_⟩
            · rw [bind_of_ok hframe, bind_of_ok hframes]
              rfl
            · rw [DecodeState.run, List.foldlM_cons, hdispatch]
              exact hrun

/-- What `decode` returns comes from the frames of the buffer. -/
theorem decode_frames {data : Bytes} {result : DecodeResult} (h : decode data = .ok result) :
    ∃ fs s, frames data = .ok fs ∧ ({} : DecodeState).run fs = .ok s ∧ s.finish = result := by
  rw [decode] at h
  split at h
  · next hzero =>
    obtain rfl := List.length_eq_zero_iff.mp hzero
    exact ⟨[], {}, rfl, rfl, Except.ok.inj h⟩
  · cases hloop : decodeLoop (data.length + 1) true {} { data } with
    | error e u =>
        rw [hloop] at h
        cases h
    | ok t u =>
        rw [hloop] at h
        obtain ⟨fs, hframes, hrun⟩ := decodeLoop_ok hloop
        exact ⟨fs, t, by rw [frames, hframes], hrun, Except.ok.inj h⟩

theorem frames_ok {data : Bytes} {fs : List Frame} (h : frames data = .ok fs) :
    kHeaderFixedBytes * fs.length ≤ data.length ∧ ∀ f ∈ fs, f.Received := by
  rw [frames] at h
  cases hread : readFrames (data.length + 1) true { data } with
  | error e u =>
      rw [hread] at h
      cases h
  | ok fs' u =>
      rw [hread] at h
      cases h
      exact readFrames_ok hread

/-! ### What the stats of one stream count -/

/-- The frames of one stream. -/
def ownFrames (id : UInt16) (fs : List Frame) : List Frame := fiber Frame.streamId id fs

/-- Two frames of one stream in a row without a RESET to start over from. -/
def successions (own : List Frame) : List (Frame × Frame) :=
  (neighbours own).filter fun p => p.1.type ≠ .kReset

def resetCount (fs : List Frame) : Nat := fs.countP fun f => f.type = .kReset

/-- How often a seq is the one before it again. -/
def duplicateCount (own : List Frame) : Nat := (successions own).countP fun p => p.2.seq = p.1.seq

/-- How often a seq is neither that again nor the next one. -/
def gapCount (own : List Frame) : Nat :=
  (successions own).countP fun p => p.2.seq ≠ p.1.seq ∧ p.2.seq ≠ p.1.seq + 1

/-- The stats of a stream with these frames. -/
def statsOf (id : UInt16) (own : List Frame) : StreamStats where
  streamId := id
  frames := UInt64.ofNat own.length
  gaps := UInt64.ofNat (gapCount own)
  duplicates := UInt64.ofNat (duplicateCount own)
  resets := UInt64.ofNat (resetCount own)

theorem successions_append (own : List Frame) (f : Frame) :
    successions (own ++ [f]) = successions own ++
      ((own.getLast?.filter fun g => g.type ≠ .kReset).map (·, f)).toList := by
  rw [successions, neighbours_append, List.filter_append, successions]
  cases own.getLast? with
  | none => rfl
  | some g => by_cases hg : g.type = .kReset <;> simp [hg, Option.filter]

/-- The rolling state of a stream with these frames. -/
structure Rolling.Describes (s : Rolling) (id : UInt16) (own : List Frame) : Prop where
  stats : s.stats = statsOf id own
  seeded : s.seeded = (own.getLast?.filter fun g => g.type ≠ .kReset).isSome
  lastSeq : ∀ g ∈ own.getLast?.filter fun g => g.type ≠ .kReset, s.lastSeq = g.seq

theorem ofNat_succ (n : Nat) : UInt64.ofNat (n + 1) = UInt64.ofNat n + 1 := UInt64.ofNat_add ..

theorem Rolling.Describes.observe {s : Rolling} {id : UInt16} {own : List Frame}
    (h : s.Describes id own) (f : Frame) :
    (s.observe f.seq).stats =
        { statsOf id (own ++ [f]) with resets := UInt64.ofNat (resetCount own) } ∧
      (s.observe f.seq).seeded = true ∧ (s.observe f.seq).lastSeq = f.seq := by
  have hsucc := successions_append own f
  have hstats := h.stats
  have hseeded := h.seeded
  have hlastSeq := h.lastSeq
  generalize own.getLast?.filter (fun g => g.type ≠ .kReset) = last at hsucc hseeded hlastSeq
  cases last with
  | none =>
      simp [Rolling.observe, hseeded, hstats, statsOf, gapCount, duplicateCount, hsucc, ofNat_succ]
  | some g =>
      have hg : s.lastSeq = g.seq := hlastSeq g rfl
      by_cases hdup : f.seq = g.seq
      · simp [Rolling.observe, hseeded, hstats, hg, hdup, statsOf, gapCount, duplicateCount, hsucc,
          List.countP_append, ofNat_succ]
      · by_cases hnext : f.seq = g.seq + 1
        · simp [Rolling.observe, hseeded, hstats, hg, hnext, statsOf, gapCount, duplicateCount,
            hsucc, List.countP_append, ofNat_succ]
        · simp [Rolling.observe, hseeded, hstats, hg, hdup, hnext, statsOf, gapCount, duplicateCount,
            hsucc, List.countP_append, ofNat_succ]

theorem Rolling.Describes.frame {s : Rolling} {id : UInt16} {own : List Frame}
    (h : s.Describes id own) (f : Frame) : (s.frame f).Describes id (own ++ [f]) := by
  obtain ⟨hstats, hseeded, hlastSeq⟩ := h.observe f
  have hlast : (own ++ [f]).getLast?.filter (fun g => g.type ≠ .kReset) =
      if f.type = .kReset then none else some f := by
    rw [List.getLast?_concat]
    by_cases hf : f.type = .kReset <;> simp [hf, Option.filter]
  unfold Rolling.frame
  by_cases hf : f.type = .kReset
  · rw [if_pos hf] at hlast
    refine ⟨?_, by rw [hlast]; simp [hf, Rolling.noteReset], ?_⟩
    · simp [hf, Rolling.noteReset, hstats, statsOf, resetCount, ofNat_succ]
    · rw [hlast]
      intro g hg
      cases hg
  · rw [if_neg hf] at hlast
    refine ⟨?_, by rw [hlast]; simp [hf, hseeded], ?_⟩
    · simp [hf, hstats, statsOf, resetCount]
    · rw [hlast]
      rintro g ⟨⟩
      simp [hf, hlastSeq]

/-- The first frame of a stream finds an entry that nothing is counted in. -/
theorem Rolling.Describes.nil (id : UInt16) : Rolling.Describes { stats := { streamId := id } } id [] :=
  ⟨rfl, rfl, by simp⟩

theorem Rolling.Describes.frames {s : Rolling} {id : UInt16} {own : List Frame}
    (h : s.Describes id own) (fs : List Frame) :
    (fs.foldl Rolling.frame s).Describes id (own ++ fs) := by
  induction fs generalizing s own with
  | nil => rwa [List.append_nil]
  | cons f fs ih =>
      have hrest := ih (h.frame f)
      rwa [List.append_assoc, List.singleton_append] at hrest

/-! ### The table of all streams -/

namespace StreamTable

theorem slot_frame (t : StreamTable) (f : Frame) :
    slot (frame t f) f.streamId = (slot t f.streamId).frame f := by
  have hid : ((slot t f.streamId).frame f).stats.streamId = f.streamId := by
    rw [Rolling.frame_streamId]
    rfl
  rw [slot_eq, getElem?_frame, if_pos rfl, Option.getD_some]
  generalize (slot t f.streamId).frame f = s at hid ⊢
  generalize f.streamId = id at hid ⊢
  subst hid
  rfl

/-- The entry of a stream is its own frames' doing. -/
theorem getElem?_frames (fs : List Frame) (t : StreamTable) (id : UInt16) :
    (fs.foldl frame t)[id]? =
      if ownFrames id fs = [] then t[id]? else some ((ownFrames id fs).foldl Rolling.frame (slot t id)) := by
  induction fs generalizing t with
  | nil => rfl
  | cons f fs ih =>
      rw [List.foldl_cons, ih]
      by_cases hf : f.streamId = id
      · subst hf
        have hown : ownFrames f.streamId (f :: fs) = f :: ownFrames f.streamId fs := by
          simp [ownFrames, fiber]
        rw [hown, if_neg (List.cons_ne_nil _ _), List.foldl_cons, slot_frame]
        split
        · next hnil => rw [hnil, getElem?_frame, if_pos rfl, List.foldl_nil]
        · rfl
      · have hown : ownFrames id (f :: fs) = ownFrames id fs := by simp [ownFrames, fiber, hf]
        have hslot : slot (frame t f) id = slot t id := by
          rw [slot_eq, slot_eq, getElem?_frame, if_neg hf]
        rw [hown, hslot, getElem?_frame, if_neg hf]

theorem mem_frames_iff (fs : List Frame) (id : UInt16) :
    ownFrames id fs ≠ [] ↔ ∃ f ∈ fs, f.streamId = id := by
  rw [ownFrames, fiber, Ne, List.filter_eq_nil_iff]
  simp

/-- The snapshot lists every stream of the history once, with the stats of its own frames. -/
theorem snapshot_frames (fs : List Frame) :
    ∃ ids : List UInt16, ids.Nodup ∧ (∀ id, id ∈ ids ↔ ∃ f ∈ fs, f.streamId = id) ∧
      (fs.foldl frame ∅).snapshot = ids.map fun id => statsOf id (ownFrames id fs) := by
  have hentry : ∀ id s, (fs.foldl frame ∅)[id]? = some s ↔ ownFrames id fs ≠ [] ∧
      s = (ownFrames id fs).foldl Rolling.frame { stats := { streamId := id } } := by
    intro id s
    have hslot : slot ∅ id = { stats := { streamId := id } } := by simp [slot]
    rw [getElem?_frames, hslot]
    split
    · next hnil => simp [hnil]
    · next hown =>
      rw [Option.some.injEq, eq_comm]
      exact (and_iff_right hown).symm
  refine ⟨(fs.foldl frame ∅).keys, Std.ExtTreeMap.nodup_keys, fun id => ?_, ?_⟩
  · rw [Std.ExtTreeMap.mem_keys, Std.ExtTreeMap.mem_iff_isSome_getElem?, Option.isSome_iff_exists,
      ← mem_frames_iff]
    simp only [hentry]
    constructor
    · rintro ⟨_, hown, -⟩
      exact hown
    · intro hown
      exact ⟨_, hown, rfl⟩
  · rw [snapshot, ← Std.ExtTreeMap.map_fst_toList_eq_keys, List.map_map]
    refine List.map_congr_left fun e he => ?_
    obtain ⟨-, hs⟩ := (hentry e.1 e.2).mp (Std.ExtTreeMap.mem_toList_iff_getElem?_eq_some.mp he)
    rw [hs]
    exact ((Rolling.Describes.nil e.1).frames (ownFrames e.1 fs)).stats

end StreamTable

/-! ### The counters of the whole stream -/

/-- What every frame is counted in. -/
structure Tallied (fs : List Frame) (r : DecodeResult) : Prop where
  framesSeen : r.framesSeen = UInt64.ofNat fs.length
  headerCrcOk : r.headerCrcOk = UInt64.ofNat (fs.countP fun f => f.hasCrc && f.crcOk)
  headerCrcBad : r.headerCrcBad = UInt64.ofNat (fs.countP fun f => f.hasCrc && !f.crcOk)

/-- What the frames of one type are counted in. -/
structure Recorded (fs : List Frame) (r : DecodeResult) : Prop where
  messages : r.messages.length ≤ fs.countP fun f => f.type = .kData
  controlFrames : r.controlFrames = UInt64.ofNat r.controls.length
  controls : r.controls.length = fs.countP fun f => f.type = .kControl
  ackFrames : r.ackFrames = UInt64.ofNat r.acks.length
  acks : r.acks.length = fs.countP fun f => f.type = .kAck
  resetFrames : r.resetFrames = UInt64.ofNat (resetCount fs)

namespace DecodeState

theorem tally_eq (r : DecodeResult) (f : Frame) :
    tally r f = { r with
      framesSeen := r.framesSeen + 1
      headerCrcOk := if f.hasCrc && f.crcOk then r.headerCrcOk + 1 else r.headerCrcOk
      headerCrcBad := if f.hasCrc && !f.crcOk then r.headerCrcBad + 1 else r.headerCrcBad } := by
  unfold tally
  dsimp only
  cases f.hasCrc <;> cases f.crcOk <;> rfl

theorem count_step {n : UInt64} {m : Nat} (h : n = UInt64.ofNat m) (p : Bool) :
    (if p = true then n + 1 else n) = UInt64.ofNat (m + if p = true then 1 else 0) := by
  subst h
  cases p
  · rfl
  · exact (ofNat_succ m).symm

theorem tallied_tally {fs : List Frame} {r : DecodeResult} (h : Tallied fs r) (f : Frame) :
    Tallied (fs ++ [f]) (tally r f) := by
  rw [tally_eq]
  refine ⟨?_, ?_, ?_⟩
  · rw [List.length_append, List.length_singleton, ofNat_succ, ← h.framesSeen]
  · rw [List.countP_append, List.countP_singleton]
    exact count_step h.headerCrcOk _
  · rw [List.countP_append, List.countP_singleton]
    exact count_step h.headerCrcBad _

/-- A frame leaves its mark in the list and the counter of its type. -/
theorem dispatch_counts {s t : DecodeState} {fs : List Frame} (ht : Tallied fs s.result)
    (hr : Recorded fs s.result) {f : Frame} (hdispatch : s.dispatch f = .ok t) :
    Tallied (fs ++ [f]) t.result ∧ Recorded (fs ++ [f]) t.result ∧ t.streams = s.streams.frame f := by
  obtain ⟨hframes, hok, hbad⟩ := tallied_tally ht f
  cases htype : f.type with
  | kData =>
      rw [dispatch, htype] at hdispatch
      obtain ⟨⟨out, r⟩, -, hdispatch⟩ := outcome_bind_eq_ok.mp hdispatch
      cases hdispatch
      refine ⟨⟨hframes, hok, hbad⟩, ⟨?_, ?_, ?_, ?_, ?_, ?_⟩, by simp [StreamTable.frame, htype]⟩
      · have hmessages := hr.messages
        have hout : out.toList.length ≤ 1 := by cases out <;> simp
        simp only [tally_eq, List.countP_append, List.countP_singleton, List.length_append, htype,
          decide_true, if_true]
        omega
      · simp [tally_eq, hr.controlFrames]
      · simp [tally_eq, hr.controls, htype]
      · simp [tally_eq, hr.ackFrames]
      · simp [tally_eq, hr.acks, htype]
      · simp [tally_eq, hr.resetFrames, resetCount, htype]
  | kControl =>
      rw [dispatch, htype] at hdispatch
      obtain ⟨c, -, hdispatch⟩ := outcome_bind_eq_ok.mp hdispatch
      cases hdispatch
      refine ⟨⟨hframes, hok, hbad⟩, ⟨?_, ?_, ?_, ?_, ?_, ?_⟩, by simp [StreamTable.frame, htype]⟩
      · simpa [tally_eq, htype] using hr.messages
      · simp [tally_eq, hr.controlFrames, ofNat_succ]
      · simp [tally_eq, hr.controls, htype]
      · simp [tally_eq, hr.ackFrames]
      · simp [tally_eq, hr.acks, htype]
      · simp [tally_eq, hr.resetFrames, resetCount, htype]
  | kAck =>
      rw [dispatch, htype] at hdispatch
      cases hdispatch
      refine ⟨⟨hframes, hok, hbad⟩, ⟨?_, ?_, ?_, ?_, ?_, ?_⟩, by simp [StreamTable.frame, htype]⟩
      · simpa [tally_eq, htype] using hr.messages
      · simp [tally_eq, hr.controlFrames]
      · simp [tally_eq, hr.controls, htype]
      · simp [tally_eq, hr.ackFrames, ofNat_succ]
      · simp [tally_eq, hr.acks, htype]
      · simp [tally_eq, hr.resetFrames, resetCount, htype]
  | kReset =>
      rw [dispatch, htype] at hdispatch
      cases hdispatch
      refine ⟨⟨hframes, hok, hbad⟩, ⟨?_, ?_, ?_, ?_, ?_, ?_⟩, by simp [StreamTable.frame, htype]⟩
      · simpa [tally_eq, htype] using hr.messages
      · simp [tally_eq, hr.controlFrames]
      · simp [tally_eq, hr.controls, htype]
      · simp [tally_eq, hr.ackFrames]
      · simp [tally_eq, hr.acks, htype]
      · simp [tally_eq, hr.resetFrames, resetCount, htype, ofNat_succ]

theorem run_counts {s t : DecodeState} {pre : List Frame} (ht : Tallied pre s.result)
    (hr : Recorded pre s.result) {fs : List Frame} (hrun : s.run fs = .ok t) :
    Tallied (pre ++ fs) t.result ∧ Recorded (pre ++ fs) t.result ∧
      t.streams = fs.foldl StreamTable.frame s.streams := by
  induction fs generalizing s pre with
  | nil =>
      obtain rfl : s = t := Except.ok.inj hrun
      rw [List.append_nil]
      exact ⟨ht, hr, rfl⟩
  | cons f fs ih =>
      rw [run, List.foldlM_cons] at hrun
      obtain ⟨s₁, hdispatch, hrun⟩ := outcome_bind_eq_ok.mp hrun
      obtain ⟨ht₁, hr₁, hstreams₁⟩ := dispatch_counts ht hr hdispatch
      obtain ⟨ht', hr', hstreams'⟩ := ih ht₁ hr₁ hrun
      rw [List.append_assoc, List.singleton_append] at ht' hr'
      exact ⟨ht', hr', by rw [hstreams', hstreams₁, List.foldl_cons]⟩

/-- The counters of a whole run. -/
theorem run_empty_counts {t : DecodeState} {fs : List Frame} (hrun : ({} : DecodeState).run fs = .ok t) :
    Tallied fs t.result ∧ Recorded fs t.result ∧ t.streams = fs.foldl StreamTable.frame ∅ := by
  have ht : Tallied [] ({} : DecodeState).result := ⟨rfl, rfl, rfl⟩
  have hr : Recorded [] ({} : DecodeState).result := ⟨Nat.le_refl _, rfl, rfl, rfl, rfl, rfl⟩
  exact run_counts ht hr hrun

end DecodeState

/-! ### Termination -/

theorem onlyThrows_skip (n : Nat) : OnlyThrows (skip n) :=
  (OnlyThrows.require n).bind fun _ => .modify _

theorem onlyThrows_resync (left : Nat) : OnlyThrows (resync left) := by
  induction left with
  | zero => exact .pure _
  | succ left ih =>
      refine OnlyThrows.bind .get fun r => ?_
      split
      · exact .pure _
      · split
        · exact .pure _
        · exact (onlyThrows_skip 1).bind fun _ => ih

theorem onlyThrows_alignToSync (first : Bool) : OnlyThrows (alignToSync first) := by
  refine OnlyThrows.bind .get fun r => .ite (.pure _) ?_
  have hscan : OnlyThrows (do
      if ← resync kResyncWindow then return ()
      let r ← get
      if r.remaining < 2 then
        skip r.remaining
      else
        raise .kBadMagic r.pos "could not resynchronize to a frame within the scan window") := by
    refine (onlyThrows_resync _).bind fun found => .ite (.pure _) ?_
    exact OnlyThrows.bind .get fun r => .ite (onlyThrows_skip _) (.raise _ _ _)
  cases first with
  | true => exact .raise _ _ _
  | false => exact hscan

theorem onlyThrows_readHeader (headerOffset : Nat) : OnlyThrows (readHeader headerOffset) := by
  have hu16 : OnlyThrows readU16be := OnlyThrows.bind (.readRaw 2) fun _ => .pure _
  have hu32 : OnlyThrows readU32be := OnlyThrows.bind (.readRaw 4) fun _ => .pure _
  unfold readHeader
  refine hu16.bind fun sync => .ite (.raise _ _ _) ?_
  refine OnlyThrows.bind .readU8 fun version => .ite (.raise _ _ _) ?_
  refine OnlyThrows.bind .readU8 fun typeByte => ?_
  cases FrameType.ofByte? typeByte with
  | none => exact .raise _ _ _
  | some type =>
      refine OnlyThrows.bind .readU8 fun flags => hu16.bind fun streamId => ?_
      refine hu32.bind fun msgId => hu16.bind fun seq => ?_
      exact hu32.bind fun fragOffset => hu16.bind fun payloadLen => .pure _

theorem onlyThrows_nextFrame (first : Bool) : OnlyThrows (nextFrame first) := by
  have hu16 : OnlyThrows readU16be := OnlyThrows.bind (.readRaw 2) fun _ => .pure _
  unfold nextFrame
  refine (onlyThrows_alignToSync first).bind fun _ => OnlyThrows.bind .get fun r => ?_
  refine .ite (.raise _ _ _) (OnlyThrows.bind (.readRaw _) fun hdr => ?_)
  refine (onlyThrows_readHeader r.pos).within.bind fun f => .ite ?_ ?_
  · refine hu16.bind fun headerCrc => ?_
    rw [pure_bind]
    exact OnlyThrows.bind (.readRaw _) fun payload => .pure _
  · rw [pure_bind]
    exact OnlyThrows.bind (.readRaw _) fun payload => .pure _

theorem removeSlot_error {r : Reassembler} {i : Nat} {k : Key} {e : Fault}
    (h : r.removeSlot i k = .error e) : e = .undefined := by
  unfold Reassembler.removeSlot at h
  dsimp only at h
  split at h
  · cases h
    rfl
  · split at h <;> cases h

theorem acceptData_error {r : Reassembler} {f : Frame} {e : Fault} (h : r.acceptData f = .error e) :
    e = .undefined := by
  rw [Reassembler.acceptData] at h
  generalize r.slotFor f.key = slot at h
  obtain ⟨i, r₁⟩ := slot
  dsimp only at h
  cases hp : r₁.store[i]? with
  | none =>
      rw [hp] at h
      cases h
      rfl
  | some p =>
      rw [hp] at h
      dsimp only at h
      split at h
      · cases h
      · obtain hemit | ⟨m, -, h⟩ := outcome_bind_eq_error.mp h
        · unfold PartialMessage.emit at hemit
          split at hemit
          · cases hemit
          · exact (Except.error.inj hemit).symm
        · obtain hremove | ⟨r₂, -, h⟩ := outcome_bind_eq_error.mp h
          · exact removeSlot_error hremove
          · cases h

/-- No frame makes the loop's body run on without end. -/
theorem DecodeState.dispatch_error {s : DecodeState} {f : Frame} {e : Fault}
    (h : s.dispatch f = .error e) : e = .undefined := by
  cases ht : f.type with
  | kData =>
      rw [dispatch, ht] at h
      obtain haccept | ⟨out, -, h⟩ := outcome_bind_eq_error.mp h
      · exact acceptData_error haccept
      · cases h
  | kControl =>
      obtain ⟨c, hc⟩ := parseControl_ok f
      simp only [dispatch, ht, hc, bind, Except.bind] at h
      cases h
  | kAck =>
      rw [dispatch, ht] at h
      cases h
  | kReset =>
      rw [dispatch, ht] at h
      cases h

/-- One round more than there are bytes is enough, since every frame takes its header off them. -/
theorem decodeLoop_terminates {fuel : Nat} {first : Bool} {s : DecodeState} {r u : ByteReader}
    (hfuel : r.rest.length < fuel) : decodeLoop fuel first s r ≠ .error .diverged u := by
  induction fuel generalizing first s r with
  | zero => exact absurd hfuel (Nat.not_lt_zero _)
  | succ fuel ih =>
      intro h
      rw [decodeLoop, bind_of_ok (get_run r)] at h
      split at h
      · cases h
      · cases hframe : nextFrame first r with
        | error e t =>
            rw [bind_of_error hframe] at h
            obtain ⟨p, rfl⟩ := onlyThrows_nextFrame first _ _ _ hframe
            cases h
        | ok f t =>
            rw [bind_of_ok hframe] at h
            have hlen := nextFrame_length hframe
            cases hdispatch : s.dispatch f with
            | error e =>
                rw [hdispatch] at h
                cases DecodeState.dispatch_error hdispatch
                cases h
            | ok s₁ =>
                rw [hdispatch] at h
                exact ih (by rw [kHeaderFixedBytes] at hlen; omega) h

theorem decode_terminates (data : Bytes) : decode data ≠ .error .diverged := by
  intro h
  rw [decode] at h
  split at h
  · cases h
  · cases hloop : decodeLoop (data.length + 1) true {} { data } with
    | ok s u =>
        rw [hloop] at h
        cases h
    | error e u =>
        rw [hloop] at h
        cases h
        exact decodeLoop_terminates (Nat.lt_succ_self _) hloop

/-! ### The statistics and the history -/

/-- The stats and counters of a result are those of the frames it was decoded from. -/
structure Statistics (fs : List Frame) (result : DecodeResult) : Prop where
  once : (result.stats.map (·.streamId)).Nodup
  streams : ∀ id, id ∈ result.stats.map (·.streamId) ↔ ∃ f ∈ fs, f.streamId = id
  frames : ∀ s ∈ result.stats, s.frames.toNat = (ownFrames s.streamId fs).length
  resets : ∀ s ∈ result.stats, s.resets.toNat = resetCount (ownFrames s.streamId fs)
  duplicates : ∀ s ∈ result.stats, s.duplicates.toNat = duplicateCount (ownFrames s.streamId fs)
  gaps : ∀ s ∈ result.stats, s.gaps.toNat = gapCount (ownFrames s.streamId fs)
  framesSeen : result.framesSeen.toNat = (result.stats.map (·.frames.toNat)).sum
  resetFrames : result.resetFrames.toNat = (result.stats.map (·.resets.toNat)).sum
  controlFrames : result.controlFrames.toNat = result.controls.length
  ackFrames : result.ackFrames.toNat = result.acks.length
  headerCrc : result.headerCrcOk.toNat + result.headerCrcBad.toNat =
    fs.countP fun f => f.flags &&& kFlagHasCrc ≠ 0
  messages : result.messages.length ≤ fs.countP fun f => f.type = .kData
  seen : result.framesSeen.toNat = fs.length

theorem successions_length_le (own : List Frame) : (successions own).length ≤ own.length := by
  refine (List.length_filter_le ..).trans ?_
  rw [neighbours, List.length_zip]
  exact Nat.min_le_left ..

theorem statistics_of_run {fs : List Frame} {s : DecodeState} (hlen : fs.length < UInt64.size)
    (hreceived : ∀ f ∈ fs, f.Received) (hrun : ({} : DecodeState).run fs = .ok s) :
    Statistics fs s.finish := by
  obtain ⟨ht, hr, hstreams⟩ := DecodeState.run_empty_counts hrun
  obtain ⟨ids, hnodup, hids, hsnapshot⟩ := StreamTable.snapshot_frames fs
  have hstats : s.finish.stats = ids.map fun id => statsOf id (ownFrames id fs) := by
    rw [← hsnapshot, ← hstreams]
    rfl
  have hkeys : s.finish.stats.map (·.streamId) = ids := by
    rw [hstats, List.map_map]
    exact List.map_id' ids
  -- no counter is larger than the number of frames
  have hnat : ∀ n ≤ fs.length, (UInt64.ofNat n).toNat = n := fun n hn =>
    UInt64.toNat_ofNat_of_lt' (Nat.lt_of_le_of_lt hn hlen)
  have hown : ∀ id, (ownFrames id fs).length ≤ fs.length := fun id => List.length_filter_le ..
  have hsucc : ∀ id, (successions (ownFrames id fs)).length ≤ fs.length := fun id =>
    (successions_length_le _).trans (hown id)
  have hentry : ∀ st ∈ s.finish.stats, st = statsOf st.streamId (ownFrames st.streamId fs) := by
    rw [hstats]
    intro st hst
    obtain ⟨id, -, rfl⟩ := List.mem_map.mp hst
    rfl
  have hsum : ∀ p : Frame → Bool, (ids.map fun id => (ownFrames id fs).countP p).sum = fs.countP p :=
    fun p => sum_countP_fiber Frame.streamId p hnodup fs fun f hf => (hids _).mpr ⟨f, hf, rfl⟩
  have hframes : ∀ id, (UInt64.ofNat (ownFrames id fs).length).toNat = (ownFrames id fs).length :=
    fun id => hnat _ (hown id)
  have hresets : ∀ id, (UInt64.ofNat (resetCount (ownFrames id fs))).toNat =
      resetCount (ownFrames id fs) := fun id => hnat _ (List.countP_le_length.trans (hown id))
  have hseen : s.finish.framesSeen.toNat = fs.length := by
    change s.result.framesSeen.toNat = _
    rw [ht.framesSeen, hnat _ (Nat.le_refl _)]
  refine ⟨by rwa [hkeys], by rwa [hkeys], fun st hst => ?_, fun st hst => ?_, fun st hst => ?_,
    fun st hst => ?_, ?_, ?_, ?_, ?_, ?_, hr.messages, hseen⟩
  · rw [hentry st hst]
    exact hnat _ (hown _)
  · rw [hentry st hst]
    exact hresets _
  · rw [hentry st hst]
    exact hnat _ (List.countP_le_length.trans (hsucc _))
  · rw [hentry st hst]
    exact hnat _ (List.countP_le_length.trans (hsucc _))
  · have hall := hsum fun _ => true
    simp only [List.countP_true] at hall
    rw [hseen, hstats, List.map_map, ← hall]
    exact congrArg List.sum (List.map_congr_left fun id _ => (hframes id).symm)
  · change s.result.resetFrames.toNat = _
    have hall := hsum fun f => f.type = .kReset
    have hcount : resetCount fs ≤ fs.length := List.countP_le_length
    rw [hr.resetFrames, hnat _ hcount, hstats, List.map_map, resetCount, ← hall]
    exact congrArg List.sum (List.map_congr_left fun id _ => (hresets id).symm)
  · change s.result.controlFrames.toNat = s.result.controls.length
    rw [hr.controlFrames, hnat _ (hr.controls.trans_le List.countP_le_length)]
  · change s.result.ackFrames.toNat = s.result.acks.length
    rw [hr.ackFrames, hnat _ (hr.acks.trans_le List.countP_le_length)]
  · change s.result.headerCrcOk.toNat + s.result.headerCrcBad.toNat = _
    rw [ht.headerCrcOk, ht.headerCrcBad, hnat _ List.countP_le_length, hnat _ List.countP_le_length,
      countP_split]
    refine List.countP_congr fun f hf => ?_
    rw [(hreceived f hf).hasCrc]

/-- For every buffer the frame loop ends; for one it accepts, the result's statistics are those of its
frames, each of which takes at least 19 bytes. -/
theorem decode_statistics :
    (∀ data, decode data ≠ .error .diverged) ∧
    ∀ (data : Bytes) (result : DecodeResult), data.length < UInt64.size → decode data = .ok result →
      ∃ fs, frames data = .ok fs ∧ Statistics fs result ∧
        19 * result.framesSeen.toNat ≤ data.length := by
  refine ⟨decode_terminates, fun data result hsize h => ?_⟩
  obtain ⟨fs, s, hframes, hrun, rfl⟩ := decode_frames h
  obtain ⟨hlen, hreceived⟩ := frames_ok hframes
  rw [kHeaderFixedBytes] at hlen
  have hstats := statistics_of_run (by omega) hreceived hrun
  exact ⟨fs, hframes, hstats, by rwa [hstats.seen]⟩

/-- Four frames of one stream with the seqs 0, 1, 5 and 5, encoded. -/
def gapAndDuplicate : Bytes :=
  (([0, 1, 5, 5] : List UInt16).foldl
    (fun w seq => encodeFrame w { flags := kFlagFin, streamId := 8, seq, payload := [1] }) {}).buffer

theorem decode_statistics_gapAndDuplicate :
    ∃ fs result, decode gapAndDuplicate = .ok result ∧ frames gapAndDuplicate = .ok fs ∧
      Statistics fs result := by
  have hreturns : (decode gapAndDuplicate).isOk = true := by decide +kernel
  cases hresult : decode gapAndDuplicate with
  | error e =>
      rw [hresult] at hreturns
      cases hreturns
  | ok result =>
      obtain ⟨fs, hframes, hstats, -⟩ :=
        decode_statistics.2 gapAndDuplicate result (by decide +kernel) hresult
      exact ⟨fs, result, rfl, hframes, hstats⟩

end Bytewright.Streamcodec
