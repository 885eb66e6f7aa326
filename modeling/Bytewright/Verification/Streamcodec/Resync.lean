import Bytewright.Verification.Streamcodec.RoundTrip

/-! # Garbage between frames -/

namespace Bytewright.Streamcodec

open Bytewright.Common Bytewright.Library

/-- No sync word starts inside the garbage, not even one that ends in the bytes behind it. -/
def SyncFree (gap following : Bytes) : Prop :=
  ∀ i < gap.length, ¬ beBytes 2 kSync.toNat <+: (gap ++ following).drop i

instance (gap following : Bytes) : Decidable (SyncFree gap following) :=
  inferInstanceAs (Decidable (∀ i < gap.length, _))

/-- Encoded frames, each behind its garbage. -/
def gapped (ps : List (Bytes × FrameSpec)) : Bytes :=
  ps.flatMap fun p => p.1 ++ p.2.wire

/-! ### The scan -/

theorem atSync_iff (r : ByteReader) : atSync r = true ↔ beBytes 2 kSync.toNat <+: r.rest := by
  have hsync : beBytes 2 kSync.toNat = [0x53, 0xC7] := by decide
  have hbyte : ∀ (b c : UInt8), (b.toNat == c.toNat) = (b == c) := by
    intro b c
    rw [Bool.eq_iff_iff, beq_iff_eq, beq_iff_eq, UInt8.toNat_inj]
  rw [hsync, atSync]
  cases hrest : r.rest with
  | nil => simp
  | cons a l =>
      cases l with
      | nil => simp
      | cons b l =>
          change (a.toNat == (0x53 : UInt8).toNat && b.toNat == (0xC7 : UInt8).toNat) = true ↔ _
          rw [hbyte, hbyte, Bool.and_eq_true, beq_iff_eq, beq_iff_eq, List.cons_prefix_cons,
            List.cons_prefix_cons]
          simp [eq_comm]

theorem syncFree_tail {b : UInt8} {gap following : Bytes} (h : SyncFree (b :: gap) following) :
    SyncFree gap following := by
  intro i hi
  exact h (i + 1) (Nat.succ_lt_succ hi)

/-- On garbage the cursor is not on a sync word. -/
theorem atSync_gap {gap : Bytes} {spec : FrameSpec} {rest : Bytes} (hgap : gap ≠ [])
    (hfree : SyncFree gap spec.wire) {r : ByteReader} (hr : r.rest = gap ++ (spec.wire ++ rest)) :
    atSync r = false := by
  rw [← Bool.not_eq_true, atSync_iff, hr]
  intro hprefix
  refine hfree 0 (List.length_pos_iff.mpr hgap) ?_
  rw [List.drop_zero]
  rw [← List.append_assoc] at hprefix
  refine List.prefix_of_prefix_length_le hprefix (List.prefix_append _ _) ?_
  rw [beBytes_length, List.length_append, FrameSpec.wire, List.length_append, header_length,
    kHeaderFixedBytes]
  omega

theorem remaining_gap {gap : Bytes} {spec : FrameSpec} {rest : Bytes} {r : ByteReader}
    (hr : r.rest = gap ++ (spec.wire ++ rest)) : ¬ r.remaining < 2 := by
  rw [r.remaining_eq, hr, List.length_append, List.length_append, FrameSpec.wire,
    List.length_append, header_length, kHeaderFixedBytes]
  omega

/-- The scan stops on the frame if its window reaches that far, the position right behind the window
left out. -/
theorem resync_gap {gap : Bytes} {spec : FrameSpec} {rest : Bytes} (hfree : SyncFree gap spec.wire)
    (left : Nat) {r : ByteReader} (hr : r.rest = gap ++ (spec.wire ++ rest)) :
    resync left r =
      if gap.length < left then .ok true (r.advance gap.length) else .ok false (r.advance left) := by
  induction left generalizing gap r with
  | zero => rfl
  | succ left ih =>
      rw [resync, bind_of_ok (get_run r), if_neg (remaining_gap hr)]
      cases gap with
      | nil =>
          rw [if_pos (atSync_wire spec hr)]
          rfl
      | cons b gap =>
          have hskip : skip 1 r = .ok () (r.advance 1) := by
            rw [skip, bind_of_ok (t := r) (a := ()) (by rw [require_run, hr]; rfl), modify_run]
          have hrest : (r.advance 1).rest = gap ++ (spec.wire ++ rest) := by
            rw [ByteReader.rest_advance, hr]
            rfl
          rw [atSync_gap (List.cons_ne_nil _ _) hfree hr, if_neg (by simp), bind_of_ok hskip,
            ih (syncFree_tail hfree) hrest]
          simp only [List.length_cons, Nat.succ_lt_succ_iff, ByteReader.advance_advance,
            Nat.add_comm 1]

theorem alignToSync_gap {gap : Bytes} {spec : FrameSpec} {rest : Bytes} (hfree : SyncFree gap spec.wire)
    {r : ByteReader} (hr : r.rest = gap ++ (spec.wire ++ rest)) :
    (gap.length < kResyncWindow → alignToSync false r = .ok () (r.advance gap.length)) ∧
      (kResyncWindow ≤ gap.length → ∃ e s, alignToSync false r = .error e s) := by
  cases gap with
  | nil =>
      refine ⟨fun _ => ?_, fun hle => absurd hle (by decide)⟩
      rw [alignToSync, bind_of_ok (get_run r), if_pos (atSync_wire spec hr)]
      rfl
  | cons b gap =>
      have hsync := atSync_gap (List.cons_ne_nil b gap) hfree hr
      have hscan := resync_gap hfree kResyncWindow hr
      rw [alignToSync, bind_of_ok (get_run r), hsync]
      constructor
      · intro hlt
        rw [if_pos hlt] at hscan
        simp only [Bool.false_eq_true, if_false]
        rw [bind_of_ok hscan]
        rfl
      · intro hle
        rw [if_neg (Nat.not_lt.mpr hle)] at hscan
        have hrest : (r.advance kResyncWindow).rest =
            (b :: gap).drop kResyncWindow ++ (spec.wire ++ rest) := by
          rw [ByteReader.rest_advance, hr, List.drop_append_of_le_length hle]
        simp only [Bool.false_eq_true, if_false]
        rw [bind_of_ok hscan]
        simp only [Bool.false_eq_true, if_false]
        rw [bind_of_ok (get_run _), if_neg (remaining_gap hrest)]
        exact ⟨_, _, rfl⟩

/-! ### One frame behind garbage -/

/-- `FrameReader::next` finds the frame behind the garbage if the garbage is shorter than the scan
window. -/
theorem nextFrame_gap {gap : Bytes} {spec : FrameSpec} {rest : Bytes} (hfree : SyncFree gap spec.wire)
    {first : Bool} (hfirst : first = true → gap = []) {r : ByteReader}
    (hr : r.rest = gap ++ (spec.wire ++ rest)) :
    (gap.length < kResyncWindow → nextFrame first r =
      .ok (spec.frame (r.pos + gap.length)) (r.advance (gap ++ spec.wire).length)) ∧
    (kResyncWindow ≤ gap.length → ∃ e s, nextFrame first r = .error e s) := by
  have hbehind : (r.advance gap.length).rest = spec.wire ++ rest := by
    rw [ByteReader.rest_advance, hr, List.drop_left]
  cases first with
  | true =>
      obtain rfl := hfirst rfl
      exact ⟨fun _ => nextFrame_wire true spec hr, fun hle => absurd hle (by decide)⟩
  | false =>
      obtain ⟨hshort, hlong⟩ := alignToSync_gap hfree hr
      constructor
      · intro hlt
        have halign : alignToSync false (r.advance gap.length) = .ok () (r.advance gap.length) := by
          rw [alignToSync, bind_of_ok (get_run _), if_pos (atSync_wire spec hbehind)]
          rfl
        have hframe := nextFrame_wire false spec hbehind
        rw [nextFrame, bind_of_ok halign] at hframe
        rw [nextFrame, bind_of_ok (hshort hlt), hframe, List.length_append, ByteReader.advance_advance,
          ByteReader.pos_advance]
      · intro hle
        obtain ⟨e, s, halign⟩ := hlong hle
        exact ⟨e, s, bind_of_error halign⟩

/-! ### The frame loop -/

/-- The frames of a buffer, wherever they lie: no part of the decoder looks at the offset. -/
def framesOf (ps : List (Bytes × FrameSpec)) : List Frame := ps.map fun p => p.2.frame 0

theorem dispatch_frame (s : DecodeState) (spec : FrameSpec) (pos : Nat) :
    s.dispatch (spec.frame pos) = s.dispatch (spec.frame 0) := rfl

theorem decodeLoop_gapped {ps : List (Bytes × FrameSpec)} {fuel : Nat} (hfuel : ps.length < fuel)
    (hfree : ∀ p ∈ ps, SyncFree p.1 p.2.wire) (first : Bool)
    (hfirst : first = true → ∀ p ∈ ps.head?, p.1 = []) {s t : DecodeState} {r : ByteReader}
    (hr : r.rest = gapped ps) :
    (∃ r', decodeLoop fuel first s r = .ok t r') ↔
      (∀ p ∈ ps, p.1.length < kResyncWindow) ∧ s.run (framesOf ps) = .ok t := by
  induction ps generalizing fuel first s r with
  | nil =>
      cases fuel with
      | zero => exact absurd hfuel (Nat.not_lt_zero _)
      | succ fuel =>
          have heof : r.eof = true := r.eof_iff.mpr hr
          rw [decodeLoop, bind_of_ok (get_run r), if_pos heof]
          simp [framesOf, DecodeState.run, pure, EStateM.pure, Except.pure]
  | cons p ps ih =>
      cases fuel with
      | zero => exact absurd hfuel (Nat.not_lt_zero _)
      | succ fuel =>
          obtain ⟨gap, spec⟩ := p
          obtain ⟨hgap, hgaps⟩ := List.forall_mem_cons.mp hfree
          have hr : r.rest = gap ++ (spec.wire ++ gapped ps) := by
            rw [hr, gapped, List.flatMap_cons, List.append_assoc]
            rfl
          have heof : ¬ r.eof = true := by
            rw [r.eof_iff, hr]
            intro h
            have hpos := wire_length_pos spec
            rw [(List.append_eq_nil_iff.mp (List.append_eq_nil_iff.mp h).2).1] at hpos
            exact Nat.lt_irrefl 0 hpos
          have hrest : (r.advance (gap ++ spec.wire).length).rest = gapped ps := by
            rw [ByteReader.rest_advance, hr, ← List.append_assoc, List.drop_left]
          obtain ⟨hshort, hlong⟩ := nextFrame_gap hgap (fun h => hfirst h _ rfl) hr
          rw [decodeLoop, bind_of_ok (get_run r), if_neg heof, List.forall_mem_cons, framesOf,
            List.map_cons, DecodeState.run, List.foldlM_cons]
          obtain hlt | hle := Nat.lt_or_ge gap.length kResyncWindow
          · rw [bind_of_ok (hshort hlt), dispatch_frame]
            cases s.dispatch (spec.frame 0) with
            | error e => simp [bind, Except.bind]
            | ok s₁ =>
                have hloop := ih (Nat.lt_of_succ_lt_succ hfuel) hgaps false (by simp) (s := s₁) hrest
                exact hloop.trans (and_congr_left' (and_iff_right hlt).symm)
          · obtain ⟨e, r', herror⟩ := hlong hle
            rw [bind_of_error herror]
            simp [Nat.not_lt.mpr hle]

theorem decode_gapped {ps : List (Bytes × FrameSpec)} (hfirst : ∀ p ∈ ps.head?, p.1 = [])
    (hfree : ∀ p ∈ ps, SyncFree p.1 p.2.wire) (result : DecodeResult) :
    decode (gapped ps) = .ok result ↔ (∀ p ∈ ps, p.1.length < kResyncWindow) ∧
      ∃ s, ({} : DecodeState).run (framesOf ps) = .ok s ∧ s.finish = result := by
  have hlen : ps.length ≤ (gapped ps).length := by
    refine length_le_flatMap fun p _ h => ?_
    have hpos := wire_length_pos p.2
    rw [(List.append_eq_nil_iff.mp h).2] at hpos
    exact Nat.lt_irrefl 0 hpos
  rw [decode]
  split
  · next hzero =>
    obtain rfl : ps = [] := List.length_eq_zero_iff.mp (by omega)
    constructor
    · intro h
      exact ⟨nofun, {}, rfl, Except.ok.inj h⟩
    · rintro ⟨-, s, hrun, rfl⟩
      rw [← Except.ok.inj hrun]
      rfl
  · have hloop := fun s' => decodeLoop_gapped (Nat.lt_succ_of_le hlen) hfree true (fun _ => hfirst)
      (s := {}) (t := s') (r := { data := gapped ps }) rfl
    cases hrun : decodeLoop ((gapped ps).length + 1) true {} { data := gapped ps } with
    | ok s r =>
        have hs := (hloop s).mp ⟨r, hrun⟩
        constructor
        · intro h
          exact ⟨hs.1, s, hs.2, Except.ok.inj h⟩
        · rintro ⟨-, s', hs', rfl⟩
          rw [Except.ok.inj (hs.2.symm.trans hs')]
    | error e r =>
        constructor
        · intro h
          cases h
        · rintro ⟨hshort, s, hs, -⟩
          obtain ⟨r', hr'⟩ := (hloop s).mpr ⟨hshort, hs⟩
          rw [hrun] at hr'
          cases hr'

/-- Without garbage decoding is running the frame loop. -/
theorem decode_clean (ps : List (Bytes × FrameSpec)) (result : DecodeResult) :
    decode (ps.flatMap fun p => p.2.wire) = .ok result ↔
      ∃ s, ({} : DecodeState).run (framesOf ps) = .ok s ∧ s.finish = result := by
  let qs : List (Bytes × FrameSpec) := ps.map fun p => ([], p.2)
  have hnil : ∀ q ∈ qs, q.1 = [] := by
    intro q hq
    obtain ⟨p, -, rfl⟩ := List.mem_map.mp hq
    rfl
  have hgapped : gapped qs = ps.flatMap fun p => p.2.wire := List.flatMap_map ..
  have hframes : framesOf qs = framesOf ps := List.map_map ..
  have hfree : ∀ q ∈ qs, SyncFree q.1 q.2.wire := fun q hq i hi =>
    absurd hi (by simp [hnil q hq])
  have hdecode := decode_gapped (fun q hq => hnil q (List.mem_of_mem_head? hq)) hfree result
  rw [hgapped, hframes] at hdecode
  exact hdecode.trans (and_iff_right fun q hq => by simp [hnil q hq, kResyncWindow])

/-! ### Runs that stay inside the store -/

namespace Reassembler

/-- Every partial in the store can be handed out once it is complete. -/
def AllBounded (r : Reassembler) : Prop := ∀ p ∈ r.store, p.Bounded

/-- The slot that the index names for the frame's message, if it names one, is in the store. -/
def Addresses (r : Reassembler) : Call → Prop
  | .acceptData f => ∀ i, r.index[f.key]? = some i → i < r.store.length
  | .resetStream _ => True

/-- Every frame of the run finds its slot in the store. -/
def AddressedRun (r : Reassembler) : List Call → Prop
  | [] => True
  | c :: cs => r.Addresses c ∧ ∀ out r', r.call c = .ok (out, r') → r'.AddressedRun cs

theorem slotFor_store {r : Reassembler} (h : r.AllBounded) (f : Frame) :
    (r.slotFor f.key).2.AllBounded ∧
      ((r.slotFor f.key).1 < (r.slotFor f.key).2.store.length ↔ r.Addresses (.acceptData f)) := by
  rw [slotFor, Addresses]
  cases hi : r.index[f.key]? with
  | some i => exact ⟨h, by simp⟩
  | none =>
      refine ⟨fun p hp => ?_, by simp⟩
      obtain hp | hp := List.mem_append.mp hp
      · exact h p hp
      · rw [List.mem_singleton.mp hp]
        exact .fresh _ _

theorem removeSlot_returns {r : Reassembler} (h : r.AllBounded) {i : Nat} (hi : i < r.store.length)
    (k : Key) : ∃ r', r.removeSlot i k = .ok r' ∧ r'.AllBounded := by
  have hlast : r.store.getLast? = some (r.store.getLast (List.ne_nil_of_length_pos (by omega))) :=
    List.getLast?_eq_some_getLast _
  rw [removeSlot, hlast]
  dsimp only
  split
  · refine ⟨_, rfl, fun p hp => ?_⟩
    obtain hp | rfl := List.mem_or_eq_of_mem_set (List.dropLast_subset _ hp)
    · exact h p hp
    · exact h _ (List.getLast_mem _)
  · exact ⟨_, rfl, fun p hp => h p (List.dropLast_subset _ hp)⟩

/-- A DATA frame that finds its slot is accepted. -/
theorem acceptData_returns {r : Reassembler} (h : r.AllBounded) {f : Frame}
    (hf : r.Addresses (.acceptData f)) :
    ∃ out r', r.acceptData f = .ok (out, r') ∧ r'.AllBounded := by
  obtain ⟨hslot, hlt⟩ := slotFor_store h f
  have hlt := hlt.mpr hf
  rw [acceptData]
  generalize r.slotFor f.key = slot at hslot hlt ⊢
  obtain ⟨i, r₁⟩ := slot
  have hp := List.getElem?_eq_getElem hlt
  generalize r₁.store[i] = p at hp
  have hbounded : ∀ q ∈ r₁.store.set i (p.place f), q.Bounded := by
    intro q hq
    obtain hq | rfl := List.mem_or_eq_of_mem_set hq
    · exact hslot q hq
    · exact (hslot p (List.mem_of_getElem? hp)).place f
  dsimp only
  rw [hp]
  dsimp only
  cases (p.place f).isComplete with
  | false => exact ⟨none, _, rfl, hbounded⟩
  | true =>
      obtain ⟨m, hemit⟩ : ∃ m, (p.place f).emit f = .ok m :=
        ⟨_, ((hslot p (List.mem_of_getElem? hp)).place f).emit f⟩
      obtain ⟨r', hremove, hr'⟩ := removeSlot_returns (r := { r₁ with store := r₁.store.set i (p.place f) })
        hbounded (i := i) (by rwa [List.length_set]) f.key
      refine ⟨some m, r', ?_, hr'⟩
      simp only [Bool.not_true, Bool.false_eq_true, if_false, hemit, bind, Except.bind, hremove]
      rfl

/-- One that does not leaves the store. -/
theorem acceptData_undefined {r : Reassembler} (h : r.AllBounded) {f : Frame}
    (hf : ¬ r.Addresses (.acceptData f)) : r.acceptData f = .error .undefined := by
  obtain ⟨-, hlt⟩ := slotFor_store h f
  have hlt := fun hlt' => hf (hlt.mp hlt')
  rw [acceptData]
  generalize r.slotFor f.key = slot at hlt ⊢
  obtain ⟨i, r₁⟩ := slot
  have hp := List.getElem?_eq_none (Nat.le_of_not_lt hlt)
  dsimp only
  rw [hp]
  rfl

end Reassembler

namespace DecodeState

/-- The frame loop goes on behind a frame exactly if it finds its slot. -/
theorem dispatch_cases {s : DecodeState} (h : s.reassembler.AllBounded) (f : Frame) :
    (∃ s', s.dispatch f = .ok s' ∧ s'.reassembler.AllBounded ∧
        (∀ c, f.call? = some c → s.reassembler.Addresses c ∧
          ∃ out, s.reassembler.call c = .ok (out, s'.reassembler)) ∧
        (f.call? = none → s'.reassembler = s.reassembler)) ∨
      (s.dispatch f = .error .undefined ∧ ∃ c, f.call? = some c ∧ ¬ s.reassembler.Addresses c) := by
  cases ht : f.type with
  | kData =>
      have hcall : f.call? = some (.acceptData f) := by rw [Frame.call?, ht]
      by_cases hf : s.reassembler.Addresses (.acceptData f)
      · obtain ⟨out, r', hr', hbounded⟩ := Reassembler.acceptData_returns h hf
        refine .inl ⟨_, by simp only [dispatch, ht, hr', bind, Except.bind]; rfl, hbounded, ?_, ?_⟩
        · rw [hcall]
          rintro c ⟨⟩
          exact ⟨hf, out, hr'⟩
        · rw [hcall]
          intro hc
          cases hc
      · have hundefined := Reassembler.acceptData_undefined h hf
        refine .inr ⟨?_, _, hcall, hf⟩
        simp only [dispatch, ht, hundefined, bind, Except.bind]
  | kControl =>
      obtain ⟨c, hc⟩ := parseControl_ok f
      have hcall : f.call? = none := by rw [Frame.call?, ht]
      obtain ⟨s', hs', hkeep⟩ : ∃ s', s.dispatch f = .ok s' ∧ s'.reassembler = s.reassembler := by
        simp only [dispatch, ht, hc, bind, Except.bind]
        exact ⟨_, rfl, rfl⟩
      refine .inl ⟨s', hs', by rwa [hkeep], ?_, fun _ => hkeep⟩
      rw [hcall]
      intro c hc
      cases hc
  | kAck =>
      have hcall : f.call? = none := by rw [Frame.call?, ht]
      obtain ⟨s', hs', hkeep⟩ : ∃ s', s.dispatch f = .ok s' ∧ s'.reassembler = s.reassembler := by
        simp only [dispatch, ht]
        exact ⟨_, rfl, rfl⟩
      refine .inl ⟨s', hs', by rwa [hkeep], ?_, fun _ => hkeep⟩
      rw [hcall]
      intro c hc
      cases hc
  | kReset =>
      have hcall : f.call? = some (.resetStream f.streamId) := by rw [Frame.call?, ht]
      refine .inl ⟨_, by simp only [dispatch, ht]; rfl, ?_, ?_, ?_⟩
      · intro p hp
        rw [Reassembler.resetStream_store] at hp
        exact h p (List.mem_of_mem_filter hp)
      · rw [hcall]
        rintro c ⟨⟩
        exact ⟨trivial, none, rfl⟩
      · rw [hcall]
        intro hc
        cases hc

theorem run_returns_iff (fs : List Frame) {s : DecodeState} (h : s.reassembler.AllBounded) :
    (∃ s', s.run fs = .ok s') ↔ s.reassembler.AddressedRun (fs.filterMap Frame.call?) := by
  induction fs generalizing s with
  | nil => exact ⟨fun _ => trivial, fun _ => ⟨s, rfl⟩⟩
  | cons f fs ih =>
      rw [run, List.foldlM_cons]
      obtain ⟨s₁, hs₁, h₁, hsome, hnone⟩ | ⟨hundefined, c, hcall, hc⟩ := dispatch_cases h f
      · rw [hs₁]
        refine (ih h₁).trans ?_
        cases hcall : f.call? with
        | none => rw [List.filterMap_cons_none hcall, hnone hcall]
        | some c =>
            obtain ⟨hc, out, hrun⟩ := hsome c hcall
            rw [List.filterMap_cons_some hcall, Reassembler.AddressedRun]
            constructor
            · intro hrest
              refine ⟨hc, fun out' r' hr' => ?_⟩
              obtain ⟨-, rfl⟩ := Prod.mk.inj (Except.ok.inj (hrun.symm.trans hr'))
              exact hrest
            · rintro ⟨-, hrest⟩
              exact hrest out _ hrun
      · rw [hundefined, List.filterMap_cons_some hcall, Reassembler.AddressedRun]
        constructor
        · rintro ⟨s', hs'⟩
          cases hs'
        · rintro ⟨hc', -⟩
          exact absurd hc' hc

end DecodeState

/-! ### Decoding with and without the garbage -/

/-- Decoding succeeds, and does not see the garbage. -/
def Transparent (ps : List (Bytes × FrameSpec)) : Prop :=
  ∃ result, decode (gapped ps) = .ok result ∧ decode (ps.flatMap fun p => p.2.wire) = .ok result

/-- Garbage without a sync word is skipped exactly if it is shorter than the scan window, as long as
every DATA frame finds its slot in the store. -/
theorem transparent_iff (ps : List (Bytes × FrameSpec)) (hfirst : ∀ p ∈ ps.head?, p.1 = [])
    (hfree : ∀ p ∈ ps, SyncFree p.1 p.2.wire) :
    Transparent ps ↔ (∀ p ∈ ps, p.1.length < kResyncWindow) ∧
      ({} : Reassembler).AddressedRun ((framesOf ps).filterMap Frame.call?) := by
  have hrun := DecodeState.run_returns_iff (framesOf ps) (s := {}) nofun
  rw [← hrun, Transparent]
  constructor
  · rintro ⟨result, hgapped, -⟩
    obtain ⟨hshort, s, hs, -⟩ := (decode_gapped hfirst hfree result).mp hgapped
    exact ⟨hshort, s, hs⟩
  · rintro ⟨hshort, s, hs⟩
    exact ⟨s.finish, (decode_gapped hfirst hfree _).mpr ⟨hshort, s, hs, rfl⟩,
      (decode_clean ps _).mpr ⟨s, hs, rfl⟩⟩

/-- Two frames with the first byte of a sync word between them. -/
theorem transparent_iff_half_sync :
    Transparent [([], { streamId := 1 }), ([0x53], { streamId := 2 })] ↔
      (∀ p ∈ ([([], { streamId := 1 }), ([0x53], { streamId := 2 })] : List (Bytes × FrameSpec)),
        p.1.length < kResyncWindow) ∧
      ({} : Reassembler).AddressedRun
        ((framesOf [([], { streamId := 1 }), ([0x53], { streamId := 2 })]).filterMap Frame.call?) :=
  transparent_iff _ (by decide) (by decide)

/-- A gap of the whole window is not skipped: the scan never looks at the position behind it. -/
theorem not_transparent_window :
    ¬ ∀ ps : List (Bytes × FrameSpec), (∀ p ∈ ps.head?, p.1 = []) →
      (∀ p ∈ ps, p.1.length ≤ kResyncWindow ∧ SyncFree p.1 p.2.wire) → Transparent ps := by
  intro h
  let gap : Bytes := List.replicate kResyncWindow 0
  have hfree : SyncFree gap ({} : FrameSpec).wire := by
    intro i hi hprefix
    have hsync : beBytes 2 kSync.toNat = [0x53, 0xC7] := by decide
    rw [hsync, List.drop_eq_getElem_cons (by rw [List.length_append]; omega), List.cons_prefix_cons,
      List.getElem_append_left hi] at hprefix
    rw [List.getElem_replicate] at hprefix
    exact absurd hprefix.1 (by decide)
  have hall : ∀ p ∈ ([([], {}), (gap, {})] : List (Bytes × FrameSpec)),
      p.1.length ≤ kResyncWindow ∧ SyncFree p.1 p.2.wire := by
    intro p hp
    obtain rfl | rfl : p = ([], {}) ∨ p = (gap, {}) := by simpa using hp
    · exact ⟨Nat.zero_le _, nofun⟩
    · exact ⟨by rw [List.length_replicate], hfree⟩
  have hfirst : ∀ p ∈ ([([], {}), (gap, {})] : List (Bytes × FrameSpec)).head?, p.1 = [] := by
    rintro p ⟨⟩
    rfl
  obtain ⟨result, hgapped, -⟩ := h _ hfirst hall
  obtain ⟨hshort, -⟩ := (decode_gapped hfirst (fun p hp => (hall p hp).2) result).mp hgapped
  have hlt := hshort (gap, {}) (by simp)
  rw [List.length_replicate] at hlt
  exact Nat.lt_irrefl _ hlt

end Bytewright.Streamcodec
