import Bytewright.Library.Rounds
import Bytewright.Verification.Streamcodec.RoundTrip

/-! # Frames that are lost, repeated and reordered -/

namespace Bytewright.Streamcodec

open Bytewright.Common Bytewright.Library

/-! ### The frames of one message -/

/-- No two fragments of a message are the same frame. -/
theorem piece_injective {m : MessageSpec} (hlen : m.payload.length < 2 ^ 32) {i j : Nat}
    (hi : i < m.fragCount) (hj : j < m.fragCount) (h : m.piece i = m.piece j) : i = j := by
  have hstart : m.start i = m.start j := by
    rw [← (piece_frame m hlen hi 0).begin, ← (piece_frame m hlen hj 0).begin, h]
  by_cases hempty : m.payload.length = 0
  · have hone : m.fragCount = 1 := by rw [MessageSpec.fragCount, if_pos hempty]
    omega
  · have hi' := m.start_lt_succ hempty hi
    have hj' := m.start_lt_succ hempty hj
    exact m.start_unique (Nat.le_refl _) hi' (by omega) (by omega)

/-- Frames of a message are its fragments at some numbers, in any order and with any repeats. -/
theorem pieces_of_subset {m : MessageSpec} (hlen : m.payload.length < 2 ^ 32) {specs : List FrameSpec}
    (hsent : ∀ spec ∈ specs, spec ∈ m.fragments) {fs : List Frame}
    (hfs : List.Forall₂ (fun spec f => ∃ pos, f = FrameSpec.frame spec pos) specs fs) :
    ∃ is : List Nat, is.map m.piece = specs ∧ (∀ i ∈ is, i < m.fragCount) ∧
      List.Forall₂ (Piece m) is fs := by
  induction hfs with
  | nil => exact ⟨[], rfl, nofun, .nil⟩
  | @cons spec f specs fs hf _ ih =>
      rcases ih fun s hs => hsent s (List.mem_cons_of_mem spec hs) with ⟨is, rfl, hlt, hpieces⟩
      have hspec := hsent spec (List.mem_cons_self ..)
      rw [m.fragments_eq] at hspec
      rcases List.mem_map.mp hspec with ⟨i, hi, rfl⟩
      rcases hf with ⟨pos, rfl⟩
      have hi := List.mem_range.mp hi
      exact ⟨i :: is, rfl, List.forall_mem_cons.mpr ⟨hi, hlt⟩, .cons (piece_frame m hlen hi pos) hpieces⟩

/-- A message is handed out as often as its fragments get complete. -/
theorem emitted_rounds {m : MessageSpec} {is : List Nat} {fs : List Frame}
    (hfs : List.Forall₂ (Piece m) is fs) {placed : List Nat} {v : Partials}
    (hv : Assembled m placed (v.current m.key)) :
    v.emitted (fs.map .acceptData) =
      List.replicate (rounds (List.range m.fragCount) placed is) m.message := by
  induction hfs generalizing placed v with
  | nil => rfl
  | @cons i f is fs hf _ ih =>
      have hnew : Assembled m (i :: placed) ((v.current m.key).place f) := hv.place hf
      have hcomplete : ((v.current m.key).place f).isComplete = true ↔
          ∀ j ∈ List.range m.fragCount, j ∈ i :: placed := by
        rw [hnew.isComplete_iff]
        exact forall_congr' fun j => by rw [List.mem_range]
      rw [List.map_cons, Partials.emitted, Partials.call, Partials.accept, hf.key]
      by_cases hdone : ∀ j ∈ List.range m.fragCount, j ∈ i :: placed
      · -- the partial is handed out, and the next fragment begins a fresh one
        have hall : ∀ j < m.fragCount, j ∈ i :: placed := fun j hj => hdone j (List.mem_range.mpr hj)
        have hkey : (f.streamId, f.msgId) = (m.streamId, m.msgId) := hf.key
        obtain ⟨hstream, hmsg⟩ := Prod.mk.inj hkey
        have hnext : Assembled m [] (Partials.current (Function.update v m.key none) m.key) := by
          have hfresh : Partials.current (Function.update v m.key none) m.key =
              { streamId := m.streamId, msgId := m.msgId } := by simp [Partials.current, MessageSpec.key]
          rw [hfresh]
          exact .fresh m m.streamId m.msgId
        rw [rounds_cons_full hdone, List.replicate_succ]
        simp only [hcomplete.mpr hdone, if_true, hnew.data_eq hall, hnew.compressed, ih hnext]
        simp [MessageSpec.message, hstream, hmsg]
      · have hopen : ((v.current m.key).place f).isComplete = false :=
          Bool.eq_false_iff.mpr fun hc => hdone (hcomplete.mp hc)
        have hnext : Assembled m (i :: placed) (Partials.current
            (Function.update v m.key (some ((v.current m.key).place f))) m.key) := by
          simpa [Partials.current] using hnew
        rw [rounds_cons_open hdone]
        simp only [hopen, Bool.false_eq_true, if_false, Option.toList_none, List.nil_append]
        exact ih hnext

/-! ### All messages -/

/-- Frames as they were encoded, wherever they stand in the buffer. -/
abbrev Framed : List FrameSpec → List Frame → Prop :=
  List.Forall₂ fun spec f => ∃ pos, f = FrameSpec.frame spec pos

theorem Framed.filter_key {specs : List FrameSpec} {fs : List Frame} (h : Framed specs fs) (k : Key) :
    Framed (specs.filter (·.key = k)) (fs.filter (·.key = k)) := by
  refine List.rel_filter ?_ h
  rintro spec f ⟨pos, rfl⟩
  exact Iff.rfl

/-- What a receiver hands out of frames of `msgs` that were lost, repeated and reordered into `specs`. -/
structure Redelivers (msgs : List MessageSpec) (specs : List FrameSpec) (out : List Message) : Prop where
  sound : ∀ o ∈ out, ∃ m ∈ msgs, o = m.message
  complete : ∀ m ∈ msgs, m.message ∈ out ↔ ∀ spec ∈ m.fragments, spec ∈ specs
  bounded : ∀ m ∈ msgs, ∀ spec ∈ m.fragments, out.count m.message ≤ specs.count spec

theorem mem_fragments_key {m : MessageSpec} {spec : FrameSpec} (h : spec ∈ m.fragments) :
    spec.key = m.key := by
  rw [m.fragments_eq] at h
  rcases List.mem_map.mp h with ⟨i, -, rfl⟩
  exact piece_key m i

/-- A run over frames of the messages, projected onto the key of one of them. -/
theorem emitted_redelivered {msgs : List MessageSpec} (hkeys : (msgs.map MessageSpec.key).Nodup)
    (hlen : ∀ m ∈ msgs, m.payload.length < 2 ^ 32) {specs : List FrameSpec}
    (hsent : ∀ spec ∈ specs, spec ∈ msgs.flatMap MessageSpec.fragments) {fs : List Frame}
    (hfs : Framed specs fs) {v : Partials} (hv : v = fun _ => none) {m : MessageSpec} (hm : m ∈ msgs) :
    ∃ is : List Nat, is.map m.piece = specs.filter (·.key = m.key) ∧ (∀ i ∈ is, i < m.fragCount) ∧
      (v.emitted (fs.map .acceptData)).filter (·.key = m.key) =
        List.replicate (rounds (List.range m.fragCount) [] is) m.message := by
  have hown : ∀ spec ∈ specs.filter (·.key = m.key), spec ∈ m.fragments := by
    intro spec hspec
    obtain ⟨hmem, hkey⟩ := List.mem_filter.mp hspec
    rcases List.mem_flatMap.mp (hsent spec hmem) with ⟨m', hm', hfrag⟩
    have hsame : m' = m := by
      refine List.inj_on_of_nodup_map hkeys hm' hm ?_
      rw [← mem_fragments_key hfrag, of_decide_eq_true hkey]
    exact hsame ▸ hfrag
  rcases pieces_of_subset (hlen m hm) hown (hfs.filter_key m.key) with ⟨is, his, hlt, hpieces⟩
  refine ⟨is, his, hlt, ?_⟩
  have hfresh : Assembled m [] (v.current m.key) := by
    have hcur : v.current m.key = { streamId := m.streamId, msgId := m.msgId } := by
      rw [hv]
      rfl
    rw [hcur]
    exact .fresh m m.streamId m.msgId
  rw [Partials.emitted_filter (selects_key m.key) _ (fun _ _ => Eq.refl (v _)), List.filter_map]
  exact emitted_rounds hpieces hfresh

theorem Redelivers.of_emitted {msgs : List MessageSpec} (hkeys : (msgs.map MessageSpec.key).Nodup)
    (hlen : ∀ m ∈ msgs, m.payload.length < 2 ^ 32) {specs : List FrameSpec}
    (hsent : ∀ spec ∈ specs, spec ∈ msgs.flatMap MessageSpec.fragments) {fs : List Frame}
    (hfs : Framed specs fs) {v : Partials} (hv : v = fun _ => none) :
    Redelivers msgs specs (v.emitted (fs.map .acceptData)) := by
  have hcount : ∀ m ∈ msgs, ∃ is : List Nat, is.map m.piece = specs.filter (·.key = m.key) ∧
      (∀ i ∈ is, i < m.fragCount) ∧
      (v.emitted (fs.map .acceptData)).count m.message =
        rounds (List.range m.fragCount) [] is := by
    intro m hm
    rcases emitted_redelivered hkeys hlen hsent hfs hv hm with ⟨is, his, hlt, hemitted⟩
    refine ⟨is, his, hlt, ?_⟩
    have hfilter := congrArg (List.count m.message) hemitted
    rwa [List.count_filter (by simp [MessageSpec.message, Message.key, MessageSpec.key]),
      List.count_replicate_self] at hfilter
  constructor
  case sound =>
    intro o ho
    rcases filter_key_eq hkeys o.key with hnone | ⟨m, hm, hkey, -⟩
    · -- no frame has the key of `o`
      have hnil : specs.filter (·.key = o.key) = [] := by
        refine List.filter_eq_nil_iff.mpr fun spec hspec hkey => ?_
        rcases List.mem_flatMap.mp (hsent spec hspec) with ⟨m, hm, hfrag⟩
        refine List.filter_eq_nil_iff.mp hnone m hm ?_
        rw [← mem_fragments_key hfrag]
        exact hkey
      have hframes := hfs.filter_key o.key
      rw [hnil] at hframes
      have hmem : o ∈ (v.emitted (fs.map .acceptData)).filter (·.key = o.key) :=
        List.mem_filter.mpr ⟨ho, by simp⟩
      rw [Partials.emitted_filter (selects_key o.key) _ (fun _ _ => Eq.refl (v _)), List.filter_map] at hmem
      change o ∈ v.emitted ((fs.filter (fun f => decide (f.key = o.key))).map .acceptData) at hmem
      rw [List.forall₂_nil_left_iff.mp hframes] at hmem
      exact absurd hmem List.not_mem_nil
    · rcases emitted_redelivered hkeys hlen hsent hfs hv hm with ⟨is, -, -, hemitted⟩
      have hmem : o ∈ (v.emitted (fs.map .acceptData)).filter (·.key = m.key) :=
        List.mem_filter.mpr ⟨ho, by simp [hkey]⟩
      rw [hemitted] at hmem
      exact ⟨m, hm, List.eq_of_mem_replicate hmem⟩
  case complete =>
    intro m hm
    rcases hcount m hm with ⟨is, his, hlt, hcount⟩
    have harrived : (∀ spec ∈ m.fragments, spec ∈ specs) ↔ ∀ i ∈ List.range m.fragCount, i ∈ is := by
      rw [m.fragments_eq, List.forall_mem_map]
      refine forall₂_congr fun i hi => ?_
      have hi := List.mem_range.mp hi
      have hmem : m.piece i ∈ specs ↔ m.piece i ∈ is.map m.piece := by
        rw [his, List.mem_filter, piece_key, decide_eq_true rfl]
        exact (and_iff_left rfl).symm
      rw [hmem, List.mem_map]
      constructor
      · rintro ⟨j, hj, hsame⟩
        rwa [← piece_injective (hlen m hm) (hlt j hj) hi hsame]
      · exact fun hi => ⟨i, hi, rfl⟩
    rw [← List.count_pos_iff, hcount, harrived]
    rcases is with _ | ⟨i, is⟩
    · refine iff_of_false (Nat.lt_irrefl 0) fun h => ?_
      exact absurd (h 0 (List.mem_range.mpr m.fragCount_pos)) List.not_mem_nil
    · rw [rounds_pos_iff (List.cons_ne_nil i is)]
      exact forall₂_congr fun j _ => by simp
  case bounded =>
    intro m hm spec hspec
    rcases hcount m hm with ⟨is, his, -, hcount⟩
    rw [m.fragments_eq] at hspec
    rcases List.mem_map.mp hspec with ⟨i, hi, rfl⟩
    have hrounds := rounds_le_count hi [] is
    have hmap : is.count i ≤ (is.map m.piece).count (m.piece i) := List.count_le_count_map
    rw [his, List.count_filter (by simp [piece_key])] at hmap
    rw [List.count_nil, Nat.zero_add] at hrounds
    rw [hcount]
    exact hrounds.trans hmap

/-! ### Decoding -/

/-- Of the frames of messages with distinct keys, some lost, some repeated and in any order, decode makes
nothing but messages that were sent, with their payloads. It hands out those of which every fragment has
arrived, and none more often than its rarest fragment. -/
theorem decode_redelivered {msgs : List MessageSpec} (hkeys : (msgs.map MessageSpec.key).Nodup)
    (hlen : ∀ m ∈ msgs, m.payload.length < 2 ^ 32) {specs : List FrameSpec}
    (hsent : ∀ spec ∈ specs, spec ∈ msgs.flatMap MessageSpec.fragments) :
    ∃ result, decode (specs.foldl encodeFrame {}).buffer = .ok result ∧
      Redelivers msgs specs result.messages ∧ result.headerCrcBad = 0 := by
  rcases decode_fragments hsent with ⟨result, hrun, hmsgs, hbad⟩
  refine ⟨result, hrun, ?_, hbad⟩
  rw [hmsgs]
  exact .of_emitted hkeys hlen hsent (framesAt_forall₂ 0 specs) rfl

/-- Three messages: of the first one fragment is lost, the second arrives out of order with a fragment
repeated, and the third one twice. -/
def lossyMessages : List MessageSpec :=
  [{ streamId := 1, msgId := 7, payload := [1, 2, 3], maxFragment := 2 },
    { streamId := 1, msgId := 8, payload := [4, 5, 6], maxFragment := 2, withCrc := true },
    { streamId := 2, msgId := 7, payload := [], maxFragment := 0, compressed := true }]

def lossyFrames : List FrameSpec :=
  let sent := lossyMessages.flatMap MessageSpec.fragments
  [0, 3, 4, 3, 2, 4].flatMap fun i => (sent.drop i).take 1

theorem decode_redelivered_lossy :
    ∃ result, decode (lossyFrames.foldl encodeFrame {}).buffer = .ok result ∧
      Redelivers lossyMessages lossyFrames result.messages ∧ result.headerCrcBad = 0 :=
  decode_redelivered (by decide) (by decide) (by decide)

end Bytewright.Streamcodec
