import Bytewright.Verification.Streamcodec.ArrivalOrder
import Bytewright.Verification.Streamcodec.Redelivery

/-! # The delivery queue as a sorter -/

namespace Bytewright.Streamcodec

open Bytewright.Common Bytewright.Library

/-- Consecutive ids without the largest one end in front of it. -/
theorem idsFrom_bound {k : UInt32} {n : Nat} (h : ∀ id ∈ idsFrom k n, id ≠ 0xFFFFFFFF) :
    k.toNat + n < UInt32.size := by
  induction n with
  | zero => exact k.toNat_lt
  | succ n ih =>
      rw [idsFrom_append] at h
      have hbound := ih fun id hid => h id (List.mem_append_left _ hid)
      have hlast := h (k + UInt32.ofNat n) (List.mem_append_right _ (List.mem_cons_self ..))
      rw [Ne, ← UInt32.toNat_inj, toNat_add_ofNat hbound] at hlast
      have hmax : (0xFFFFFFFF : UInt32).toNat = UInt32.size - 1 := rfl
      omega

namespace StreamOrder

open DeliveryQueue

variable {s s' : StreamOrder} {k : UInt32} {released arrived : List Message}

/-- A stream that starts at `k` and has not skipped anything: the ids from `k` up to the cursor are
released, and of what arrived only the ids below `k` are gone. -/
structure Kept (s : StreamOrder) (k : UInt32) (released arrived : List Message) : Prop where
  started : s.started = true
  consecutive : released.map (·.msgId) = idsFrom k released.length
  cursor : s.nextExpected = k + UInt32.ofNat released.length
  bound : k.toNat + released.length < UInt32.size
  waiting : Waiting s
  mem_iff : ∀ m, m ∈ released ++ s.held.map Prod.snd ↔ m ∈ arrived ∧ k ≤ m.msgId

namespace Kept

theorem cursor_toNat (h : Kept s k released arrived) :
    s.nextExpected.toNat = k.toNat + released.length := by
  rw [h.cursor, toNat_add_ofNat h.bound]

theorem mem_ids (h : Kept s k released arrived) {id : UInt32} :
    id ∈ released.map (·.msgId) ↔ k ≤ id ∧ id < s.nextExpected := by
  rw [h.consecutive, mem_idsFrom (by have := h.bound; omega), UInt32.le_iff_toNat_le,
    UInt32.lt_iff_toNat_lt, h.cursor_toNat]

/-- One more arrival that the stream does not need: it is below the start, or was there before. -/
theorem ignore (h : Kept s k released arrived) {msg : Message}
    (hold : k ≤ msg.msgId → msg ∈ arrived) : Kept s k released (arrived ++ [msg]) :=
  { h with
    mem_iff := by
      intro m
      rw [h.mem_iff, List.mem_append, List.mem_singleton]
      constructor
      · exact fun ⟨hm, hk⟩ => ⟨.inl hm, hk⟩
      · rintro ⟨hm | rfl, hk⟩
        · exact ⟨hm, hk⟩
        · exact ⟨hold hk, hk⟩ }

theorem arrived_of_held (h : Kept s k released arrived) {e : UInt32 × Message} (he : e ∈ s.held) :
    e.2 ∈ arrived ∧ k ≤ e.2.msgId :=
  (h.mem_iff e.2).mp (List.mem_append_right _ (List.mem_map_of_mem he))

theorem arrived_of_released (h : Kept s k released arrived) {m : Message} (hm : m ∈ released) :
    m ∈ arrived ∧ k ≤ m.msgId :=
  (h.mem_iff m).mp (List.mem_append_left _ hm)

/-- What is released and buffered has ascending ids. -/
theorem ascending (h : Kept s k released arrived) :
    (released ++ s.held.map Prod.snd).Pairwise fun a b => a.msgId < b.msgId := by
  rw [List.pairwise_append]
  refine ⟨?_, ?_, ?_⟩
  · rw [← List.pairwise_map, h.consecutive]
    exact idsFrom_ascending (Nat.le_of_lt h.bound)
  · rw [List.pairwise_map]
    refine s.held_sorted.imp_of_mem fun ha hb hlt => ?_
    rwa [(h.waiting _ ha).2, (h.waiting _ hb).2]
  · intro a ha b hb
    rcases List.mem_map.mp hb with ⟨e, he, rfl⟩
    obtain ⟨hahead, hid⟩ := h.waiting e he
    rw [hid]
    exact UInt32.lt_trans (h.mem_ids.mp (List.mem_map_of_mem ha)).2 hahead

end Kept

end StreamOrder

namespace DeliveryQueue

open StreamOrder

variable {q q' : DeliveryQueue} {msg : Message} {k : UInt32} {window : Nat}
  {out released arrived msgs : List Message}

/-- The messages of a stream that go through a window without being forced out of it: their ids are
distinct and leave the last one unused, and all but one of them fit in the window. -/
structure Sortable (msgs : List Message) (window : Nat) : Prop where
  nodup : (msgs.map (·.msgId)).Nodup
  unwrapped : ∀ m ∈ msgs, m.msgId ≠ 0xFFFFFFFF
  room : msgs.length ≤ window + 1

theorem offer_late (h : msg.msgId < (q.entry msg).nextExpected) :
    q.offer msg = .ok ([], { q.put msg.streamId (q.entry msg) with duplicates := q.duplicates + 1 }) := by
  simp [offer, h, pure, Except.pure]

theorem offer_repeated (h : (q.entry msg).nextExpected < msg.msgId)
    (hheld : (q.entry msg).pending.contains msg.msgId = true) :
    q.offer msg = .ok ([], { q.put msg.streamId (q.entry msg) with duplicates := q.duplicates + 1 }) := by
  have hlate : ¬ msg.msgId < (q.entry msg).nextExpected := fun h' =>
    UInt32.lt_irrefl _ (UInt32.lt_trans h h')
  have hdue : msg.msgId ≠ (q.entry msg).nextExpected := fun h' => UInt32.lt_irrefl _ (h' ▸ h)
  simp [offer, hlate, hdue, hheld, pure, Except.pure]

/-- A message at the cursor is released, and so is what waited for it. -/
theorem kept_due (h : Kept (q.entry msg) k released arrived) (hdue : msg.msgId = (q.entry msg).nextExpected)
    (hmax : ∀ m ∈ arrived ++ [msg], m.msgId ≠ 0xFFFFFFFF) :
    ∃ out q', q.offer msg = .ok (out, q') ∧ out ≠ [] ∧
      Kept (q'.slot msg.streamId) k (released ++ out) (arrived ++ [msg]) := by
  rcases drain_run { q.entry msg with nextExpected := (q.entry msg).nextExpected + 1 } [msg] with
    ⟨run, s', hrun, hreleases, hstuck, hholes⟩
  rcases hreleases.consecutive hholes with ⟨hids, hnext⟩
  have hheld : (q.entry msg).held = run ++ s'.held := hreleases.held_eq
  have hkeyed : ∀ e ∈ run ++ s'.held, e.2.msgId = e.1 := by
    rw [← hheld]
    exact fun e he => (h.waiting e he).2
  have hlow : k ≤ msg.msgId := by
    rw [hdue, UInt32.le_iff_toNat_le, h.cursor_toNat]
    omega
  have hmem : ∀ m, m ∈ released ++ (msg :: run.map Prod.snd) ++ s'.held.map Prod.snd ↔
      m ∈ arrived ++ [msg] ∧ k ≤ m.msgId := by
    intro m
    have hold := h.mem_iff m
    rw [hheld, List.map_append, List.mem_append, List.mem_append] at hold
    rw [List.mem_append, List.mem_append, List.mem_cons, List.mem_append, List.mem_singleton]
    constructor
    · rintro ((hm | rfl | hm) | hm)
      · exact ⟨.inl (hold.mp (.inl hm)).1, (hold.mp (.inl hm)).2⟩
      · exact ⟨.inr rfl, hlow⟩
      · exact ⟨.inl (hold.mp (.inr (.inl hm))).1, (hold.mp (.inr (.inl hm))).2⟩
      · exact ⟨.inl (hold.mp (.inr (.inr hm))).1, (hold.mp (.inr (.inr hm))).2⟩
    · rintro ⟨hm | rfl, hk⟩
      · rcases hold.mpr ⟨hm, hk⟩ with hm | hm | hm
        · exact .inl (.inl hm)
        · exact .inl (.inr (.inr hm))
        · exact .inr hm
      · exact .inl (.inr (.inl rfl))
  have hlength : (released ++ (msg :: run.map Prod.snd)).length = released.length + 1 + run.length := by
    simp only [List.length_append, List.length_cons, List.length_map]
    omega
  have hconsecutive : (released ++ (msg :: run.map Prod.snd)).map (·.msgId) =
      idsFrom k (released ++ (msg :: run.map Prod.snd)).length := by
    rw [hlength, Nat.add_assoc, idsFrom_append, ← h.consecutive, List.map_append, List.map_cons,
      map_msgId_of_keyed fun e he => hkeyed e (List.mem_append_left _ he), hids, hdue, ← h.cursor,
      Nat.add_comm 1, idsFrom]
  refine ⟨msg :: run.map Prod.snd, q.put msg.streamId s', ?_, List.cons_ne_nil _ _, ?_⟩
  · rw [offer_due hdue, hrun]
    rfl
  · rw [slot_put_self]
    constructor
    case started => exact hreleases.started_eq.trans h.started
    case consecutive => exact hconsecutive
    case cursor =>
      rw [hnext, hlength, h.cursor, Nat.add_assoc, UInt32.ofNat_add, ← UInt32.add_assoc,
        UInt32.ofNat_add, ← UInt32.add_assoc]
      rfl
    case bound =>
      refine idsFrom_bound fun id hid => ?_
      rw [← hconsecutive] at hid
      rcases List.mem_map.mp hid with ⟨m, hm, rfl⟩
      exact hmax m ((hmem m).mp (List.mem_append_left _ hm)).1
    case waiting =>
      have hahead := hreleases.ahead_of_next (fun e he => (h.waiting e he).1) rfl hstuck
      exact fun e he => ⟨hahead e he, hkeyed e (List.mem_append_right _ he)⟩
    case mem_iff => exact hmem

/-- A new message ahead of the cursor is buffered, and nothing is forced out if there is room for it. -/
theorem kept_ahead (h : Kept (q.entry msg) k released arrived)
    (hahead : (q.entry msg).nextExpected < msg.msgId)
    (hcontains : (q.entry msg).pending.contains msg.msgId = false)
    (hroom : (q.entry msg).held.length < q.window) :
    ∃ q', q.offer msg = .ok ([], q') ∧
      Kept (q'.slot msg.streamId) k released (arrived ++ [msg]) := by
  let s : StreamOrder := { q.entry msg with pending := (q.entry msg).pending.insert msg.msgId msg }
  have hinsert : s.held.Perm ((msg.msgId, msg) :: (q.entry msg).held) := held_insert _ hcontains
  have hsize : s.pending.size ≤ q.window := by
    rw [← StreamOrder.length_held, hinsert.length_eq]
    exact hroom
  have hlow : k ≤ msg.msgId := by
    rw [UInt32.lt_iff_toNat_lt, h.cursor_toNat] at hahead
    rw [UInt32.le_iff_toNat_le]
    omega
  refine ⟨q.put msg.streamId s, ?_, ?_⟩
  · rw [offer_ahead hahead hcontains]
    simp only [advanceLoop, s, if_pos hsize, bind, Except.bind, pure, Except.pure]
    rfl
  · rw [slot_put_self]
    refine { h with waiting := fun e he => ?_, mem_iff := fun m => ?_ }
    · rcases List.mem_cons.mp (hinsert.mem_iff.mp he) with rfl | he
      · exact ⟨hahead, rfl⟩
      · exact h.waiting e he
    · have hold := h.mem_iff m
      rw [List.mem_append] at hold
      rw [List.mem_append, (hinsert.map Prod.snd).mem_iff, List.map_cons, List.mem_cons, List.mem_append,
        List.mem_singleton]
      constructor
      · rintro (hm | rfl | hm)
        · exact ⟨.inl (hold.mp (.inl hm)).1, (hold.mp (.inl hm)).2⟩
        · exact ⟨.inr rfl, hlow⟩
        · exact ⟨.inl (hold.mp (.inr hm)).1, (hold.mp (.inr hm)).2⟩
      · rintro ⟨hm | rfl, hk⟩
        · rcases hold.mpr ⟨hm, hk⟩ with hm | hm
          · exact .inl hm
          · exact .inr (.inr hm)
        · exact .inr (.inl rfl)

/-! ### Runs -/

/-- Where a stream stands, before and behind its first message. -/
def Sorts (s : StreamOrder) (released arrived : List Message) : Prop :=
  (s.started = false ∧ s.held = [] ∧ released = [] ∧ arrived = []) ∨
    ∃ k, arrived.head?.map (·.msgId) = some k ∧ released ≠ [] ∧ Kept s k released arrived

/-- The first message of a stream. -/
theorem Sorts.first (hstarted : (q.slot msg.streamId).started = false)
    (hempty : (q.slot msg.streamId).held = []) (hmax : msg.msgId ≠ 0xFFFFFFFF) :
    ∃ out q', q.offer msg = .ok (out, q') ∧ Sorts (q'.slot msg.streamId) out [msg] := by
  have hheld : (q.entry msg).held = [] := (held_entry q msg).trans hempty
  have hentry : q.entry msg = { q.slot msg.streamId with started := true, nextExpected := msg.msgId } := by
    rcases entry_cases q msg with ⟨htrue, -⟩ | ⟨-, hentry⟩
    · exact absurd (hstarted.symm.trans htrue) Bool.false_ne_true
    · exact hentry
  have hkept : Kept (q.entry msg) msg.msgId [] [] := by
    constructor
    case started => rw [hentry]
    case consecutive => rfl
    case cursor => rw [hentry]; simp
    case bound => exact msg.msgId.toNat_lt
    case waiting => simp [Waiting, hheld]
    case mem_iff => simp [hheld]
  rcases kept_due hkept (by rw [hentry]) (by simpa using hmax) with ⟨out, q', hrun, hne, hnext⟩
  exact ⟨out, q', hrun, .inr ⟨msg.msgId, rfl, hne, hnext⟩⟩

/-- Any further message of a stream. -/
theorem Kept.offer (h : Kept (q.slot msg.streamId) k released arrived) (hne : released ≠ [])
    (hmsgs : Sortable msgs q.window) (hsub : ∀ m ∈ arrived ++ [msg], m ∈ msgs) :
    ∃ out q', q.offer msg = .ok (out, q') ∧
      Kept (q'.slot msg.streamId) k (released ++ out) (arrived ++ [msg]) := by
  have hsame : ∀ m ∈ arrived, m.msgId = msg.msgId → m = msg := fun m hm hid =>
    List.inj_on_of_nodup_map hmsgs.nodup (hsub m (List.mem_append_left _ hm))
      (hsub msg (List.mem_append_right _ (List.mem_singleton_self msg))) hid
  rw [← entry_of_started h.started] at h
  by_cases hlate : msg.msgId < (q.entry msg).nextExpected
  · -- it was released before, or is below the start
    refine ⟨[], _, offer_late hlate, ?_⟩
    rw [List.append_nil]
    refine (slot_put_self q msg.streamId (q.entry msg)).symm ▸ h.ignore fun hlow => ?_
    rcases List.mem_map.mp (h.mem_ids.mpr ⟨hlow, hlate⟩) with ⟨r, hr, hid⟩
    have harrived := (h.arrived_of_released hr).1
    rwa [← hsame r harrived hid]
  · by_cases hdue : msg.msgId = (q.entry msg).nextExpected
    · rcases kept_due h hdue fun m hm => hmsgs.unwrapped m (hsub m hm) with ⟨out, q', hrun, -, hnext⟩
      exact ⟨out, q', hrun, hnext⟩
    · have hahead : (q.entry msg).nextExpected < msg.msgId :=
        UInt32.lt_of_le_of_ne (UInt32.not_lt.mp hlate) (Ne.symm hdue)
      cases hcontains : (q.entry msg).pending.contains msg.msgId with
      | true =>
          refine ⟨[], _, offer_repeated hahead hcontains, ?_⟩
          rw [List.append_nil]
          refine (slot_put_self q msg.streamId (q.entry msg)).symm ▸ h.ignore fun _ => ?_
          rcases (contains_iff _ _).mp hcontains with ⟨e, he, hid⟩
          have harrived := (h.arrived_of_held he).1
          rwa [← hsame e.2 harrived ((h.waiting e he).2.trans hid)]
      | false =>
          have hnew : msg ∉ released ++ (q.entry msg).held.map Prod.snd := by
            intro hmem
            rcases List.mem_append.mp hmem with hmem | hmem
            · exact hlate (h.mem_ids.mp (List.mem_map_of_mem hmem)).2
            · rcases List.mem_map.mp hmem with ⟨e, he, rfl⟩
              have hheld := (contains_iff _ _).mpr ⟨e, he, (h.waiting e he).2.symm⟩
              rw [hcontains] at hheld
              exact Bool.false_ne_true hheld
          have hroom : (q.entry msg).held.length < q.window := by
            have hdistinct : (released ++ (q.entry msg).held.map Prod.snd).Nodup :=
              h.ascending.imp fun {a b} hlt heq => UInt32.ne_of_lt hlt (congrArg Message.msgId heq)
            have hnodup : (msg :: (released ++ (q.entry msg).held.map Prod.snd)).Nodup :=
              List.nodup_cons.mpr ⟨hnew, hdistinct⟩
            have hincl : msg :: (released ++ (q.entry msg).held.map Prod.snd) ⊆ msgs := by
              refine List.cons_subset.mpr ⟨hsub msg (by simp), fun m hm => ?_⟩
              exact hsub m (List.mem_append_left _ ((h.mem_iff m).mp hm).1)
            have hle := (hnodup.subperm hincl).length_le
            have hpos := List.length_pos_iff.mpr hne
            have hwindow := hmsgs.room
            rw [List.length_cons, List.length_append, List.length_map] at hle
            omega
          rcases kept_ahead h hahead hcontains hroom with ⟨q', hrun, hnext⟩
          exact ⟨[], q', hrun, by rwa [List.append_nil]⟩

theorem Sorts.offer (h : Sorts (q.slot msg.streamId) released arrived) (hmsgs : Sortable msgs q.window)
    (hsub : ∀ m ∈ arrived ++ [msg], m ∈ msgs) :
    ∃ out q', q.offer msg = .ok (out, q') ∧
      Sorts (q'.slot msg.streamId) (released ++ out) (arrived ++ [msg]) := by
  rcases h with ⟨hstarted, hempty, rfl, rfl⟩ | ⟨k, hfirst, hne, h⟩
  · exact Sorts.first hstarted hempty (hmsgs.unwrapped msg (hsub msg (List.mem_singleton_self msg)))
  · rcases Kept.offer h hne hmsgs hsub with ⟨out, q', hrun, hnext⟩
    refine ⟨out, q', hrun, .inr ⟨k, ?_, List.append_ne_nil_of_left_ne_nil hne _, hnext⟩⟩
    cases arrived with
    | nil => cases hfirst
    | cons m arrived => exact hfirst

/-- Offers to a stream, among offers to other streams. -/
theorem Sorts.calls {id : UInt16} {todo : List Message} (hq : AllKeyed q)
    (h : Sorts (q.slot id) released arrived) (hmsgs : Sortable msgs q.window)
    (hsub : ∀ m ∈ arrived ++ ofStream id todo, m ∈ msgs) :
    ∃ out q', q.calls (todo.map .offer) = .ok (out, q') ∧
      Sorts (q'.slot id) (released ++ ofStream id out) (arrived ++ ofStream id todo) := by
  induction todo generalizing q released arrived with
  | nil => exact ⟨[], q, rfl, by simpa [ofStream] using h⟩
  | cons m todo ih =>
      rcases call_run q (.offer m) with ⟨out₁, q₁, hcall, hcalls⟩
      have hlocal : Local q m.streamId out₁ q₁ := hcalls.local hq
      have hwindow := hcalls.window_eq
      by_cases hid : m.streamId = id
      · have hcons : ofStream id (m :: todo) = m :: ofStream id todo :=
          List.filter_cons_of_pos (decide_eq_true hid)
        rw [hcons, List.append_cons] at hsub
        subst hid
        rcases h.offer hmsgs fun m' hm' => hsub m' (List.mem_append_left _ hm') with
          ⟨out, q', hoffer, hnext⟩
        obtain ⟨rfl, rfl⟩ := Prod.mk.inj (Except.ok.inj (hcall.symm.trans hoffer))
        rcases ih hlocal.keyed hnext (hwindow ▸ hmsgs) hsub with ⟨out₂, q₂, hrun, hend⟩
        refine ⟨out₁ ++ out₂, q₂, calls_cons hcall hrun, ?_⟩
        rw [hcons, List.append_cons, ofStream_append, ofStream_own hlocal.own, ← List.append_assoc]
        exact hend
      · have hskip : ofStream id (m :: todo) = ofStream id todo :=
          List.filter_cons_of_neg (by simpa using hid)
        have hother : ofStream id out₁ = [] :=
          ofStream_other fun m' hm' heq => hid ((hlocal.own m' hm').symm.trans heq)
        rw [← hlocal.others id (Ne.symm hid)] at h
        rw [hskip] at hsub ⊢
        rcases ih hlocal.keyed h (hwindow ▸ hmsgs) hsub with ⟨out₂, q₂, hrun, hend⟩
        refine ⟨out₁ ++ out₂, q₂, calls_cons hcall hrun, ?_⟩
        rw [ofStream_append, hother, List.nil_append]
        exact hend

/-- A flush at the end hands out the rest: all that arrived from the first id on, in ascending order. -/
theorem Sorts.flush {id : UInt16} (h : Sorts (q.slot id) released arrived) :
    ∃ out q', q.flushStream id = .ok (out, q') ∧
      (released ++ out).Pairwise (fun a b => a.msgId < b.msgId) ∧
      ∀ m, m ∈ released ++ out ↔ m ∈ arrived ∧ ∀ first ∈ arrived.head?, first.msgId ≤ m.msgId := by
  rcases flushStream_run q id with ⟨out, q', hrun, hflush⟩
  have hout : out = (q.slot id).held.map Prod.snd := by
    cases hflush with
    | unknown hnone => rw [slot_eq_of_none hnone]; rfl
    | flushed hs hreleases hempty =>
        rw [slot_eq_of_getElem? hs, hreleases.held_eq, hempty, List.append_nil]
  refine ⟨out, q', hrun, ?_⟩
  rw [hout]
  rcases h with ⟨-, hheld, rfl, rfl⟩ | ⟨k, hfirst, -, h⟩
  · rw [hheld]
    simp
  · refine ⟨h.ascending, fun m => ?_⟩
    rw [h.mem_iff]
    refine and_congr_right fun _ => ?_
    rcases Option.map_eq_some_iff.mp hfirst with ⟨first, hhead, rfl⟩
    rw [hhead]
    simp

end DeliveryQueue

/-! ### From the wire to the messages in order -/

/-- What a receiver hands on for one stream: all that decode finds is offered to a fresh queue, and the
stream is flushed behind the last offer. -/
def deliver (window : Nat) (data : Bytes) (id : UInt16) : Outcome (List Message) := do
  let result ← decode data
  let (out, q) ← (DeliveryQueue.make window).calls (result.messages.map .offer)
  let (rest, _) ← q.flushStream id
  return DeliveryQueue.ofStream id out ++ rest

theorem sortable_messages {msgs : List MessageSpec} (hkeys : (msgs.map MessageSpec.key).Nodup)
    (hids : ∀ m ∈ msgs, m.msgId ≠ 0xFFFFFFFF) {window : Nat} {id : UInt16}
    (hroom : (msgs.filter (·.streamId = id)).length ≤ window + 1) :
    DeliveryQueue.Sortable ((msgs.filter (·.streamId = id)).map MessageSpec.message) window := by
  constructor
  case nodup =>
    rw [List.map_map]
    refine List.Nodup.map_on ?_ ((List.Nodup.of_map _ hkeys).filter _)
    intro m hm m' hm' hsame
    obtain ⟨hm, hstream⟩ := List.mem_filter.mp hm
    obtain ⟨hm', hstream'⟩ := List.mem_filter.mp hm'
    refine List.inj_on_of_nodup_map hkeys hm hm' ?_
    rw [MessageSpec.key, MessageSpec.key, of_decide_eq_true hstream, of_decide_eq_true hstream']
    exact congrArg _ hsame
  case unwrapped =>
    intro o ho
    rcases List.mem_map.mp ho with ⟨m, hm, rfl⟩
    exact hids m (List.mem_filter.mp hm).1
  case room => rwa [List.length_map]

/-- Frames that were lost, repeated and reordered come out of the receiver as messages that were sent, in
ascending order and each at most once. Of a stream that fits in the window only those messages are
missing of which a fragment was lost, or whose id is below that of the message completed first. -/
theorem deliver_redelivered {msgs : List MessageSpec} (hkeys : (msgs.map MessageSpec.key).Nodup)
    (hlen : ∀ m ∈ msgs, m.payload.length < 2 ^ 32) (hids : ∀ m ∈ msgs, m.msgId ≠ 0xFFFFFFFF)
    {specs : List FrameSpec} (hsent : ∀ spec ∈ specs, spec ∈ msgs.flatMap MessageSpec.fragments)
    (window : Nat) (id : UInt16) (hroom : (msgs.filter (·.streamId = id)).length ≤ window + 1) :
    ∃ result out, decode (specs.foldl encodeFrame {}).buffer = .ok result ∧
      deliver window (specs.foldl encodeFrame {}).buffer id = .ok out ∧
      out.Pairwise (fun a b => a.msgId < b.msgId) ∧
      (∀ o ∈ out, ∃ m ∈ msgs, m.streamId = id ∧ o = m.message) ∧
      ∀ m ∈ msgs, m.streamId = id → (m.message ∈ out ↔ (∀ spec ∈ m.fragments, spec ∈ specs) ∧
        ∀ first ∈ (result.messages.filter (·.streamId = id)).head?, first.msgId ≤ m.msgId) := by
  rcases decode_redelivered hkeys hlen hsent with ⟨result, hdecode, hredelivers, -⟩
  have hwindow : window ≤ (DeliveryQueue.make window).window := by
    change window ≤ if window = 0 then 1 else window
    split <;> omega
  have hstart : DeliveryQueue.Sorts ((DeliveryQueue.make window).slot id) [] [] :=
    .inl (by rw [DeliveryQueue.slot_make]; simp; rfl)
  have hsub : ∀ o ∈ [] ++ DeliveryQueue.ofStream id result.messages,
      o ∈ (msgs.filter (·.streamId = id)).map MessageSpec.message := by
    intro o ho
    obtain ⟨ho, hstream⟩ := List.mem_filter.mp ho
    rcases hredelivers.sound o ho with ⟨m, hm, rfl⟩
    exact List.mem_map_of_mem (List.mem_filter.mpr ⟨hm, hstream⟩)
  rcases hstart.calls (DeliveryQueue.Accounts.make window).keyed
    (sortable_messages hkeys hids (hroom.trans (by omega))) hsub with ⟨out, q, hcalls, hsorts⟩
  rcases hsorts.flush with ⟨rest, q', hflush, hascending, hmem⟩
  rw [List.nil_append, List.nil_append] at hmem
  refine ⟨result, DeliveryQueue.ofStream id out ++ rest, hdecode, ?_, hascending, fun o ho => ?_,
    fun m hm hstream => ?_⟩
  · simp only [deliver, hdecode, hcalls, hflush, bind, Except.bind]
    rfl
  · obtain ⟨ho, -⟩ := (hmem o).mp ho
    rcases List.mem_map.mp (hsub o ho) with ⟨m, hm, rfl⟩
    obtain ⟨hm, hstream⟩ := List.mem_filter.mp hm
    exact ⟨m, hm, of_decide_eq_true hstream, rfl⟩
  · rw [hmem, ← hredelivers.complete m hm]
    refine and_congr_left' ?_
    rw [DeliveryQueue.ofStream, List.mem_filter, decide_eq_true (show m.message.streamId = id from hstream)]
    exact and_iff_left rfl

/-- Two messages in two fragments each: the end of the second one first, and every other fragment twice. -/
def repeatedMessages : List MessageSpec :=
  [{ streamId := 1, msgId := 7, payload := [1, 2, 3], maxFragment := 2 },
    { streamId := 1, msgId := 9, payload := [4, 5, 6], maxFragment := 2 }]

def repeatedFrames : List FrameSpec :=
  let sent := repeatedMessages.flatMap MessageSpec.fragments
  [3, 0, 1, 2, 0, 2, 1].flatMap fun i => (sent.drop i).take 1

theorem deliver_redelivered_repeated :
    ∃ out, deliver 1 (repeatedFrames.foldl encodeFrame {}).buffer 1 = .ok out ∧
      out.Pairwise (fun a b => a.msgId < b.msgId) := by
  rcases @deliver_redelivered repeatedMessages (by decide) (by decide) (by decide) repeatedFrames (by decide)
    1 1 (by decide) with ⟨-, out, -, hrun, hascending, -⟩
  exact ⟨out, hrun, hascending⟩

end Bytewright.Streamcodec
