import Bytewright.Library.TreeMap
import Bytewright.Model.Streamcodec.Decoder
import Bytewright.Verification.Common.ByteReader
import Bytewright.Verification.Streamcodec.Runs

/-! # Stream isolation -/

namespace Bytewright.Streamcodec

open Bytewright.Common Bytewright.Library

/-! ### The stats of one stream -/

namespace Rolling

/-- What a frame does to the rolling state of its stream. -/
def frame (s : Rolling) (f : Frame) : Rolling :=
  let s := s.observe f.seq
  if f.type = .kReset then s.noteReset else s

theorem observe_streamId (s : Rolling) (seq : UInt16) :
    (s.observe seq).stats.streamId = s.stats.streamId := by
  unfold observe
  dsimp only
  split
  · rfl
  · split
    · rfl
    · split <;> rfl

theorem frame_streamId (s : Rolling) (f : Frame) : (s.frame f).stats.streamId = s.stats.streamId := by
  unfold frame
  dsimp only
  split
  · exact observe_streamId s f.seq
  · exact observe_streamId s f.seq

end Rolling

namespace StreamTable

/-- What a frame does to the table. -/
def frame (t : StreamTable) (f : Frame) : StreamTable :=
  let t := observe t f.streamId f.seq
  if f.type = .kReset then noteReset t f.streamId else t

theorem getElem?_observe (t : StreamTable) (streamId seq id : UInt16) :
    (observe t streamId seq)[id]? =
      if streamId = id then some ((slot t streamId).observe seq) else t[id]? :=
  getElem?_insert_eq t streamId id _

theorem getElem?_noteReset (t : StreamTable) (streamId id : UInt16) :
    (noteReset t streamId)[id]? =
      if streamId = id then some (slot t streamId).noteReset else t[id]? :=
  getElem?_insert_eq t streamId id _

theorem slot_eq (t : StreamTable) (streamId : UInt16) :
    slot t streamId =
      { t[streamId]?.getD {} with stats.streamId := streamId } := by
  simp only [slot, Std.ExtTreeMap.getD_eq_getD_getElem?]

theorem slot_observe (t : StreamTable) (streamId seq : UInt16) :
    slot (observe t streamId seq) streamId = (slot t streamId).observe seq := by
  have hid : ((slot t streamId).observe seq).stats.streamId = streamId :=
    Rolling.observe_streamId _ _
  rw [slot_eq, getElem?_observe, if_pos rfl, Option.getD_some]
  generalize (slot t streamId).observe seq = s at hid ⊢
  subst hid
  rfl

/-- A frame changes the entry of its own stream only. -/
theorem getElem?_frame (t : StreamTable) (f : Frame) (id : UInt16) :
    (frame t f)[id]? = if f.streamId = id then some ((slot t id).frame f) else t[id]? := by
  unfold frame Rolling.frame
  dsimp only
  by_cases hid : f.streamId = id
  · subst hid
    split
    · rw [getElem?_noteReset, if_pos rfl, if_pos rfl, slot_observe]
    · rw [getElem?_observe, if_pos rfl]
  · rw [if_neg hid]
    split
    · rw [getElem?_noteReset, if_neg hid, getElem?_observe, if_neg hid]
    · rw [getElem?_observe, if_neg hid]

/-- The entry of a stream after a sequence of frames depends on the stream's own frames only. -/
theorem getElem?_frames_filter (fs : List Frame) (id : UInt16) {t t' : StreamTable}
    (h : t[id]? = t'[id]?) :
    (fs.foldl frame t)[id]? = ((fs.filter (·.streamId = id)).foldl frame t')[id]? := by
  induction fs generalizing t t' with
  | nil => exact h
  | cons f fs ih =>
      by_cases hf : f.streamId = id
      · rw [List.filter_cons_of_pos (by simpa using hf), List.foldl_cons, List.foldl_cons]
        refine ih ?_
        rw [getElem?_frame, getElem?_frame, if_pos hf, if_pos hf, slot_eq, slot_eq, h]
      · rw [List.filter_cons_of_neg (by simpa using hf), List.foldl_cons]
        refine ih ?_
        rw [getElem?_frame, if_neg hf, h]

/-- Every entry carries its own key. -/
def Keyed (t : StreamTable) : Prop :=
  ∀ (id : UInt16) (s : Rolling), t[id]? = some s → s.stats.streamId = id

theorem Keyed.frame {t : StreamTable} (h : Keyed t) (f : Frame) : Keyed (frame t f) := by
  intro id s hs
  rw [getElem?_frame] at hs
  split at hs
  · rw [← Option.some.inj hs, Rolling.frame_streamId]
    rfl
  · exact h id s hs

theorem Keyed.frames {t : StreamTable} (h : Keyed t) (fs : List Frame) : Keyed (fs.foldl StreamTable.frame t) := by
  induction fs generalizing t with
  | nil => exact h
  | cons f fs ih => exact ih (h.frame f)

theorem Keyed.empty : Keyed ∅ := by
  intro id s hs
  simp at hs

/-- The stats of one stream in a snapshot. -/
theorem Keyed.snapshot_filter {t : StreamTable} (h : Keyed t) (id : UInt16) :
    t.snapshot.filter (·.streamId = id) = (t[id]?.map (·.stats)).toList := by
  have hkey : ∀ e ∈ t.toList, decide (e.2.stats.streamId = id) = decide (e.1 = id) := by
    rintro ⟨k, s⟩ hmem
    rw [h k s (Std.ExtTreeMap.mem_toList_iff_getElem?_eq_some.mp hmem)]
  rw [snapshot, List.filter_map]
  simp only [Function.comp_def]
  rw [List.filter_congr hkey, toList_filter_key]
  cases t[id]? <;> rfl

end StreamTable

/-! ### The frame loop over framed input -/

/-- The call a frame makes on the reassembler. -/
def Frame.call? (f : Frame) : Option Call :=
  match f.type with
  | .kData => some (.acceptData f)
  | .kReset => some (.resetStream f.streamId)
  | .kControl | .kAck => none

theorem controlFields_run (streamId : UInt16) (r : ByteReader) :
    ∃ c r', controlFields streamId r = .ok c r' := by
  have hread : ∀ r : ByteReader, r.remaining ≥ 4 → ∃ v, readU32be r = .ok v (r.advance 4) := by
    intro r hr
    rw [r.remaining_eq] at hr
    exact ⟨_, by simp only [readU32be, bind_run, readRaw_run, hr, if_true]; rfl⟩
  by_cases h₁ : r.remaining ≥ 4
  · obtain ⟨v, hv⟩ := hread r h₁
    by_cases h₂ : (r.advance 4).remaining ≥ 4
    · obtain ⟨w, hw⟩ := hread _ h₂
      simp [controlFields, bind_run, h₁, hv, h₂, hw]
    · simp [controlFields, bind_run, h₁, hv, h₂]
  · simp [controlFields, bind_run, h₁]

theorem parseControl_ok (f : Frame) : ∃ c, parseControl f = .ok c := by
  obtain ⟨c, r', h⟩ := controlFields_run f.streamId { data := f.payload }
  exact ⟨c, by rw [parseControl, h]⟩

namespace DecodeState

theorem tally_messages (result : DecodeResult) (f : Frame) :
    (tally result f).messages = result.messages := by
  unfold tally
  dsimp only
  split
  · split <;> rfl
  · rfl

theorem tally_headerCrcBad (result : DecodeResult) (f : Frame) :
    (tally result f).headerCrcBad =
      if f.hasCrc && !f.crcOk then result.headerCrcBad + 1 else result.headerCrcBad := by
  unfold tally
  dsimp only
  cases f.hasCrc <;> cases f.crcOk <;> rfl

/-- One frame, on a wellformed reassembler that its RESET leaves wellformed. -/
theorem dispatch_refines {s : DecodeState} (h : s.reassembler.Wellformed) (f : Frame)
    (hs : s.reassembler.SafeRun f.call?.toList) :
    ∃ s', s.dispatch f = .ok s' ∧ s'.reassembler.Wellformed ∧
      s.reassembler.calls f.call?.toList = .ok s'.reassembler ∧
      (∀ cs, s.result.messages ++ s.reassembler.partials.emitted (f.call?.toList ++ cs) =
        s'.result.messages ++ s'.reassembler.partials.emitted cs) ∧
      s'.streams = s.streams.frame f ∧
      s'.result.headerCrcBad = (tally s.result f).headerCrcBad := by
  cases ht : f.type with
  | kData =>
      obtain ⟨r', hr', hw, hp⟩ := Reassembler.acceptData_refines h f
      have hcall : f.call?.toList = [.acceptData f] := by simp [Frame.call?, ht]
      refine ⟨_, by simp only [dispatch, ht, hr', bind, Except.bind]; rfl, hw, ?_, fun cs => ?_, ?_, rfl⟩
      · rw [hcall, Reassembler.calls_cons (c := .acceptData f) hr']
        rfl
      · rw [hcall, List.singleton_append, Partials.emitted, Partials.call, tally_messages, hp,
          List.append_assoc]
      · simp [StreamTable.frame, ht]
  | kControl =>
      obtain ⟨c, hc⟩ := parseControl_ok f
      have hcall : f.call?.toList = [] := by simp [Frame.call?, ht]
      refine ⟨{ s with
          streams := s.streams.observe f.streamId f.seq
          result := { tally s.result f with
            controlFrames := (tally s.result f).controlFrames + 1
            controls := (tally s.result f).controls ++ [c] } },
        by simp only [dispatch, ht, hc, bind, Except.bind]; rfl, h, ?_, fun cs => ?_, ?_, rfl⟩
      · rw [hcall]
        rfl
      · rw [hcall, List.nil_append, tally_messages]
      · simp [StreamTable.frame, ht]
  | kAck =>
      have hcall : f.call?.toList = [] := by simp [Frame.call?, ht]
      refine ⟨{ s with
          streams := s.streams.observe f.streamId f.seq
          result := { tally s.result f with
            ackFrames := (tally s.result f).ackFrames + 1
            acks := (tally s.result f).acks ++ [{ streamId := f.streamId, msgId := f.msgId }] } },
        by simp only [dispatch, ht]; rfl, h, ?_, fun cs => ?_, ?_, rfl⟩
      · rw [hcall]
        rfl
      · rw [hcall, List.nil_append, tally_messages]
      · simp [StreamTable.frame, ht]
  | kReset =>
      have hcall : f.call?.toList = [.resetStream f.streamId] := by simp [Frame.call?, ht]
      rw [hcall] at hs
      obtain ⟨hw, hp⟩ := Reassembler.resetStream_refines h hs.1
      refine ⟨_, by simp only [dispatch, ht]; rfl, hw, ?_, fun cs => ?_, ?_, rfl⟩
      · rw [hcall]
        rfl
      · rw [hcall, List.singleton_append, Partials.emitted, Partials.call, tally_messages, hp]
        rfl
      · simp [StreamTable.frame, ht]

theorem safeRun_append {r : Reassembler} (h : r.Wellformed) {cs ds : List Call}
    (hs : r.SafeRun (cs ++ ds)) :
    r.SafeRun cs ∧ ∀ r', r.calls cs = .ok r' → r'.SafeRun ds := by
  induction cs generalizing r with
  | nil => exact ⟨trivial, fun r' hr' => by rw [← Except.ok.inj hr']; exact hs⟩
  | cons c cs ih =>
      obtain ⟨hc, hrest⟩ := hs
      obtain ⟨r₁, hr₁, hw, -⟩ := Reassembler.call_refines h hc
      obtain ⟨hcs, hds⟩ := ih hw (hrest _ r₁ hr₁)
      refine ⟨⟨hc, fun out r' hr' => ?_⟩, fun r' hr' => ?_⟩
      · obtain ⟨-, rfl⟩ := Prod.mk.inj (Except.ok.inj (hr₁.symm.trans hr'))
        exact hcs
      · rw [Reassembler.calls_cons hr₁] at hr'
        exact hds r' hr'

/-- The frame loop over a sequence of frames whose RESETs are safe. -/
theorem run_refines {s : DecodeState} (h : s.reassembler.Wellformed) (fs : List Frame)
    (hs : s.reassembler.SafeRun (fs.filterMap Frame.call?)) :
    ∃ s', s.run fs = .ok s' ∧
      s'.result.messages =
        s.result.messages ++ s.reassembler.partials.emitted (fs.filterMap Frame.call?) ∧
      s'.streams = fs.foldl StreamTable.frame s.streams ∧
      s'.result.headerCrcBad =
        fs.foldl (fun n f => if f.hasCrc && !f.crcOk then n + 1 else n) s.result.headerCrcBad := by
  induction fs generalizing s with
  | nil => exact ⟨s, rfl, (List.append_nil _).symm, rfl, rfl⟩
  | cons f fs ih =>
      have hsplit : (f :: fs).filterMap Frame.call? = f.call?.toList ++ fs.filterMap Frame.call? := by
        cases hc : f.call? <;> simp [hc]
      rw [hsplit] at hs ⊢
      obtain ⟨hf, hrest⟩ := safeRun_append h hs
      obtain ⟨s₁, hs₁, hw₁, hcalls, hmsgs, hstreams, hbad⟩ := dispatch_refines h f hf
      obtain ⟨s', hs', hmsgs', hstreams', hbad'⟩ := ih hw₁ (hrest _ hcalls)
      refine ⟨s', ?_, ?_, ?_, ?_⟩
      · simp only [run, List.foldlM_cons, hs₁]
        exact hs'
      · rw [hmsgs', hmsgs]
      · rw [hstreams', hstreams, List.foldl_cons]
      · rw [hbad', hbad, tally_headerCrcBad, List.foldl_cons]

/-! ### Isolation -/

theorem selects_stream (id : UInt16) :
    Partials.Selects (fun k => k.1 = id)
      (fun c => c.streamId = id) where
  accept _ := rfl
  reset streamId k hreset hk he := by
    have hk : k.1 = id := of_decide_eq_true hk
    exact of_decide_eq_false hreset (he.symm.trans hk)

theorem calls_filter_stream (fs : List Frame) (id : UInt16) :
    (fs.filter (·.streamId = id)).filterMap Frame.call? =
      (fs.filterMap Frame.call?).filter (fun c => c.streamId = id) := by
  induction fs with
  | nil => rfl
  | cons f fs ih =>
      by_cases hf : f.streamId = id
      · rw [List.filter_cons_of_pos (by simpa using hf)]
        cases ht : f.type <;> simp [Frame.call?, Call.streamId, ht, hf, ih]
      · rw [List.filter_cons_of_neg (by simpa using hf)]
        cases ht : f.type <;> simp [Frame.call?, Call.streamId, ht, hf, ih]

end DecodeState

/-- With the frames of one stream only, every partial belongs to it, so its resets are safe. -/
theorem Reassembler.safeRun_one_stream {r : Reassembler} (h : r.Wellformed) {id : UInt16}
    (hr : ∀ p ∈ r.store, p.streamId = id) {cs : List Call}
    (hcs : ∀ c ∈ cs, c.streamId = id) : r.SafeRun cs := by
  induction cs generalizing r with
  | nil => trivial
  | cons c cs ih =>
      have hc := hcs c (List.mem_cons_self ..)
      have hsafe : r.SafeCall c := by
        cases c with
        | acceptData f => trivial
        | resetStream streamId =>
            intro i p hp hne
            exact absurd ((hr p (List.mem_of_getElem? hp)).trans hc.symm) hne
      obtain ⟨r₁, hr₁, hw, hp₁⟩ := call_refines h hsafe
      refine ⟨hsafe, fun out r' hr' => ?_⟩
      obtain ⟨-, rfl⟩ := Prod.mk.inj (Except.ok.inj (hr₁.symm.trans hr'))
      refine ih hw (fun p hp => ?_) fun c' hc' => hcs c' (List.mem_cons_of_mem c hc')
      have hview : r₁.partials p.key = some p := hw.agrees.view_eq_some_iff.mpr ⟨hp, rfl⟩
      rw [hp₁] at hview
      have hold : r.partials p.key = some p → p.streamId = id := fun hv =>
        hr p (h.agrees.view_eq_some_iff.mp hv).1
      cases c with
      | acceptData f =>
          by_cases hk : p.key = f.key
          · exact (congrArg Prod.fst hk).trans hc
          · exact hold ((Partials.accept_of_ne hk).symm.trans hview)
      | resetStream streamId =>
          change (r.partials.reset streamId) p.key = some p at hview
          rw [Partials.reset] at hview
          split at hview
          · cases hview
          · exact hold hview

namespace DecodeState

/-- In a run whose resets are all safe, each stream gets the messages and the stats it would get
from its own frames alone. -/
theorem run_isolates (fs : List Frame) (id : UInt16)
    (hs : ({} : Reassembler).SafeRun (fs.filterMap Frame.call?)) :
    ∃ s s', ({} : DecodeState).run fs = .ok s ∧
      ({} : DecodeState).run (fs.filter (·.streamId = id)) = .ok s' ∧
      s.finish.messages.filter (·.streamId = id) = s'.finish.messages ∧
      s.finish.stats.filter (·.streamId = id) = s'.finish.stats.filter (·.streamId = id) := by
  have hs' : ({} : Reassembler).SafeRun ((fs.filter (·.streamId = id)).filterMap Frame.call?) := by
    apply Reassembler.safeRun_one_stream .empty (fun p hp => absurd hp List.not_mem_nil)
    intro c hc
    rw [calls_filter_stream, List.mem_filter] at hc
    exact of_decide_eq_true hc.2
  obtain ⟨s, hrun, hmsgs, hstreams, -⟩ := run_refines (s := {}) .empty fs hs
  obtain ⟨s', hrun', hmsgs', hstreams', -⟩ := run_refines (s := {}) .empty _ hs'
  refine ⟨s, s', hrun, hrun', ?_, ?_⟩
  · change s.result.messages.filter _ = s'.result.messages
    rw [hmsgs, hmsgs', calls_filter_stream]
    exact Partials.emitted_filter (selects_stream id) _ fun _ _ => rfl
  · change s.streams.snapshot.filter _ = s'.streams.snapshot.filter _
    rw [hstreams, hstreams', (StreamTable.Keyed.empty.frames fs).snapshot_filter,
      (StreamTable.Keyed.empty.frames _).snapshot_filter,
      StreamTable.getElem?_frames_filter fs id (Eq.refl ((∅ : StreamTable)[id]?))]

/-- Two streams in flight, and a RESET that finds one partial to drop. -/
theorem run_isolates_one_hole :
    let fs : List Frame :=
      [{ streamId := 10, msgId := 1, payload := [1] },
        { streamId := 20, msgId := 1, flags := kFlagFrag, payload := [2] },
        { streamId := 10, type := .kReset },
        { streamId := 20, msgId := 1, flags := kFlagFrag ||| kFlagFin, fragOffset := 1, payload := [3] }]
    ∃ s s', ({} : DecodeState).run fs = .ok s ∧
      ({} : DecodeState).run (fs.filter (·.streamId = 20)) = .ok s' ∧
      s.finish.messages.filter (·.streamId = 20) = s'.finish.messages ∧
      s.finish.stats.filter (·.streamId = 20) = s'.finish.stats.filter (·.streamId = 20) :=
  run_isolates _ 20 (by decide +kernel)

/-- Two partials of stream 10 in front of one of stream 20 and one of stream 30: behind the reset
of stream 10, the last fragment of stream 20 lands in the partial of stream 30. -/
theorem run_two_holes_mixes :
    ¬ ∀ (fs : List Frame) (id : UInt16),
      ∃ s s', ({} : DecodeState).run fs = .ok s ∧
        ({} : DecodeState).run (fs.filter (·.streamId = id)) = .ok s' ∧
        s.finish.messages.filter (·.streamId = id) = s'.finish.messages ∧
        s.finish.stats.filter (·.streamId = id) = s'.finish.stats.filter (·.streamId = id) := by
  intro h
  let part (streamId : UInt16) (msgId : UInt32) (b : UInt8) : Frame :=
    { streamId, msgId, flags := kFlagFrag, payload := [b] }
  let fs : List Frame :=
    [part 10 1 0, part 10 2 0, part 20 1 2, part 30 1 3, { streamId := 10, type := .kReset },
      { streamId := 20, msgId := 1, flags := kFlagFrag ||| kFlagFin, fragOffset := 1, payload := [4] }]
  obtain ⟨s, s', hs, hs', hmsgs, -⟩ := h fs 20
  have hall : (fun s : DecodeState => s.finish.messages.map (·.data)) <$>
      ({} : DecodeState).run fs = .ok [[3, 4]] := by decide +kernel
  have hown : (fun s : DecodeState => s.finish.messages.map (·.data)) <$>
      ({} : DecodeState).run (fs.filter (·.streamId = 20)) = .ok [[2, 4]] := by decide +kernel
  rw [hs] at hall
  rw [hs'] at hown
  have hall : s.finish.messages.map (·.data) = [[3, 4]] := Except.ok.inj hall
  have hown : s'.finish.messages.map (·.data) = [[2, 4]] := Except.ok.inj hown
  rw [← hmsgs] at hown
  have hmem : [(2 : UInt8), 4] ∈ s.finish.messages.map (·.data) := by
    obtain ⟨m, hm, he⟩ := List.mem_map.mp (hown ▸ List.mem_singleton_self [(2 : UInt8), 4])
    exact List.mem_map.mpr ⟨m, List.mem_of_mem_filter hm, he⟩
  rw [hall] at hmem
  exact absurd hmem (by decide)

end DecodeState

end Bytewright.Streamcodec
