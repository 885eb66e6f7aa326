import Bytewright.Verification.Streamcodec.Delivery

/-! # Ordered delivery -/

namespace Bytewright.Streamcodec

open Bytewright.Common Bytewright.Library

/-! ### The invariant of one stream -/

namespace StreamOrder

variable {s s' : StreamOrder} {released offered : List UInt32} {run : List (UInt32 × Message)}

/-- The ids released and offered so far, next to the entry of their stream: what was released is
behind the cursor and what is buffered ahead of it. -/
structure Ordered (s : StreamOrder) (released offered : List UInt32) : Prop where
  ascending : released.Pairwise (· < ·)
  behind : ∀ r ∈ released, ∀ e ∈ s.held, r < e.1
  cursor : ∀ last ∈ released.getLast?, s.nextExpected = last + 1
  ahead : ∀ e ∈ s.held, s.nextExpected < e.1
  started : s.started = true ↔ released ≠ []
  fresh : s.started = false → s.held = []
  accounted : ∀ o ∈ offered, (∃ r ∈ released, o ≤ r) ∨ ∃ e ∈ s.held, e.1 = o

theorem Ordered.unknown : Ordered {} [] [] where
  ascending := .nil
  behind := nofun
  cursor := nofun
  ahead := nofun
  started := by decide
  fresh := fun _ => rfl
  accounted := nofun

/-- The last id released is the largest. -/
theorem Ordered.le_last (h : Ordered s released offered) {last : UInt32}
    (hlast : released.getLast? = some last) : ∀ r ∈ released, r ≤ last := by
  obtain ⟨front, hfront⟩ := List.getLast?_eq_some_iff.mp hlast
  have hasc := h.ascending
  rw [hfront, List.pairwise_append] at hasc
  intro r hr
  rw [hfront, List.mem_append, List.mem_singleton] at hr
  obtain hr | rfl := hr
  · exact UInt32.le_of_lt (hasc.2.2 r hr last (List.mem_singleton_self last))
  · exact UInt32.le_refl _

/-- Releasing the front of the buffer keeps the order, if the stream is stuck behind it. -/
theorem Ordered.of_releases (hrun : Releases s run s') (hstuck : s'.Stuck)
    (hasc : released.Pairwise (· < ·)) (hbehind : ∀ r ∈ released, ∀ e ∈ s.held, r < e.1)
    (hcursor : ∀ last ∈ released.getLast?, s.nextExpected = last + 1)
    (hstarted : s.started = true) (hne : released ++ run.map Prod.fst ≠ [])
    (hacc : ∀ o ∈ offered, (∃ r ∈ released, o ≤ r) ∨ ∃ e ∈ s.held, e.1 = o) :
    Ordered s' (released ++ run.map Prod.fst) offered := by
  have hheld := hrun.held_eq
  have hsorted := s.held_sorted
  rw [hheld, List.pairwise_append] at hsorted
  have hbehind' : ∀ r ∈ released ++ run.map Prod.fst, ∀ e ∈ s'.held, r < e.1 := by
    intro r hr e he
    obtain hr | hr := List.mem_append.mp hr
    · exact hbehind r hr e (by rw [hheld]; exact List.mem_append_right run he)
    · obtain ⟨e', he', rfl⟩ := List.mem_map.mp hr
      exact hsorted.2.2 e' he' e he
  have hcursor' := hrun.cursor hcursor
  constructor
  case ascending =>
    rw [List.pairwise_append, List.pairwise_map]
    refine ⟨hasc, hsorted.1, fun r hr id hid => ?_⟩
    obtain ⟨e, he, rfl⟩ := List.mem_map.mp hid
    exact hbehind r hr e (by rw [hheld]; exact List.mem_append_left _ he)
  case behind => exact hbehind'
  case cursor => exact hcursor'
  case ahead =>
    have hlast := List.getLast?_eq_some_getLast hne
    exact ahead_of_stuck (hbehind' _ (List.mem_of_getLast? hlast)) (hcursor' _ hlast) hstuck
  case started =>
    rw [hrun.started_eq, hstarted]
    exact iff_of_true rfl hne
  case fresh =>
    intro hfalse
    rw [hrun.started_eq, hstarted] at hfalse
    cases hfalse
  case accounted =>
    intro o ho
    obtain ⟨r, hr, hle⟩ | ⟨e, he, rfl⟩ := hacc o ho
    · exact .inl ⟨r, List.mem_append_left _ hr, hle⟩
    · rw [hheld, List.mem_append] at he
      obtain he | he := he
      · exact .inl ⟨e.1, List.mem_append_right _ (List.mem_map_of_mem he), UInt32.le_refl _⟩
      · exact .inr ⟨e, he, rfl⟩

/-- An id that is not beyond everything released, or is buffered, may be offered again. -/
theorem Ordered.offer (h : Ordered s released offered) {id : UInt32}
    (hid : (∃ r ∈ released, id ≤ r) ∨ ∃ e ∈ s.held, e.1 = id) :
    Ordered s released (offered ++ [id]) :=
  { h with
    accounted := by
      intro o ho
      obtain ho | ho := List.mem_append.mp ho
      · exact h.accounted o ho
      · rw [List.mem_singleton.mp ho]
        exact hid }

/-- The cursor has run past the largest id. -/
def Wrapped (s : StreamOrder) : Prop := s.started = true ∧ s.nextExpected = 0

instance (s : StreamOrder) : Decidable s.Wrapped := inferInstanceAs (Decidable (_ ∧ _))

theorem Ordered.exists_last (h : Ordered s released offered) (hstarted : s.started = true) :
    ∃ last, released.getLast? = some last ∧ s.nextExpected = last + 1 := by
  have hlast := List.getLast?_eq_some_getLast (h.started.mp hstarted)
  exact ⟨_, hlast, h.cursor _ hlast⟩

/-- Of a stream that is started and not wrapped, the cursor is beyond exactly the ids that are not
beyond the last one released. -/
theorem Ordered.lt_cursor_iff (h : Ordered s released offered) (hstarted : s.started = true)
    (hwrapped : ¬ s.Wrapped) (id : UInt32) : id < s.nextExpected ↔ ∃ r ∈ released, id ≤ r := by
  obtain ⟨last, hlast, hnext⟩ := h.exists_last hstarted
  have hne : last + 1 ≠ 0 := fun hzero => hwrapped ⟨hstarted, hnext.trans hzero⟩
  rw [hnext, lt_next_iff hne]
  constructor
  · exact fun hle => ⟨last, List.mem_of_getLast? hlast, hle⟩
  · rintro ⟨r, hr, hle⟩
    exact UInt32.le_trans hle (h.le_last hlast r hr)

end StreamOrder

/-! ### The invariant of the queue -/

namespace DeliveryQueue

open StreamOrder

variable {q q' : DeliveryQueue} {msg : Message} {out released offered : List Message}

/-- The ids of the messages of one stream. -/
def idsOf (streamId : UInt16) (ms : List Message) : List UInt32 :=
  (ms.filter (·.streamId = streamId)).map (·.msgId)

theorem idsOf_append (streamId : UInt16) (ms ms' : List Message) :
    idsOf streamId (ms ++ ms') = idsOf streamId ms ++ idsOf streamId ms' := by
  rw [idsOf, List.filter_append, List.map_append]
  rfl

theorem mem_idsOf {streamId : UInt16} {id : UInt32} {ms : List Message} :
    id ∈ idsOf streamId ms ↔ ∃ m ∈ ms, m.streamId = streamId ∧ m.msgId = id := by
  simp only [idsOf, List.mem_map, List.mem_filter, decide_eq_true_eq, and_assoc]

/-- The buffer of a stream holds messages of the stream, each under its own id. -/
def Keyed (s : StreamOrder) (streamId : UInt16) : Prop :=
  ∀ e ∈ s.held, e.2.streamId = streamId ∧ e.2.msgId = e.1

/-- What holds of every stream after messages were offered and released. -/
structure Invariant (q : DeliveryQueue) (released offered : List Message) : Prop where
  ordered : ∀ id, (q.slot id).Ordered (idsOf id released) (idsOf id offered)
  keyed : ∀ id, Keyed (q.slot id) id

theorem slot_put (q : DeliveryQueue) (streamId id : UInt16) (s : StreamOrder) :
    (q.put streamId s).slot id = if streamId = id then s else q.slot id := by
  simp only [slot, put, Std.ExtTreeMap.getD_eq_getD_getElem?, getElem?_insert_eq]
  split <;> rfl

/-- Messages of another stream do not count. -/
theorem idsOf_other {streamId id : UInt16} (hid : streamId ≠ id) {ms : List Message}
    (hms : ∀ m ∈ ms, m.streamId = streamId) : idsOf id ms = [] := by
  rw [idsOf, List.filter_eq_nil_iff.mpr, List.map_nil]
  intro m hm hid'
  exact hid ((hms m hm).symm.trans (of_decide_eq_true hid'))

theorem idsOf_run {streamId : UInt16} {run : List (UInt32 × Message)}
    (hkeyed : ∀ e ∈ run, e.2.streamId = streamId ∧ e.2.msgId = e.1) :
    idsOf streamId (run.map Prod.snd) = run.map Prod.fst := by
  induction run with
  | nil => rfl
  | cons e run ih =>
      obtain ⟨hstream, hid⟩ := hkeyed e (List.mem_cons_self ..)
      have ih := ih fun e' he' => hkeyed e' (List.mem_cons_of_mem e he')
      rw [idsOf, List.map_cons, List.filter_cons_of_pos (by simpa using hstream), List.map_cons,
        List.map_cons, hid]
      exact congrArg (e.1 :: ·) ih

theorem idsOf_single (msg : Message) : idsOf msg.streamId [msg] = [msg.msgId] := by
  simp [idsOf]

theorem streamId_of_run {streamId : UInt16} {run : List (UInt32 × Message)}
    (hkeyed : ∀ e ∈ run, e.2.streamId = streamId ∧ e.2.msgId = e.1) :
    ∀ m ∈ run.map Prod.snd, m.streamId = streamId := by
  intro m hm
  obtain ⟨e, he, rfl⟩ := List.mem_map.mp hm
  exact (hkeyed e he).1

/-- A change to one stream, by messages of that stream only, keeps the invariant if the stream's own
part of it holds again. -/
theorem Invariant.put (h : Invariant q released offered) {streamId : UInt16} (s' : StreamOrder)
    {ms out : List Message} (hslot : ∀ id, q'.slot id = (q.put streamId s').slot id)
    (hms : ∀ m ∈ ms, m.streamId = streamId) (hout : ∀ m ∈ out, m.streamId = streamId)
    (hordered : s'.Ordered (idsOf streamId released ++ idsOf streamId out)
      (idsOf streamId offered ++ idsOf streamId ms))
    (hkeyed : Keyed s' streamId) : Invariant q' (released ++ out) (offered ++ ms) := by
  constructor
  case ordered =>
    intro id
    rw [hslot, slot_put, idsOf_append, idsOf_append]
    by_cases hid : streamId = id
    · rw [if_pos hid, ← hid]
      exact hordered
    · rw [if_neg hid, idsOf_other hid hms, idsOf_other hid hout, List.append_nil, List.append_nil]
      exact h.ordered id
  case keyed =>
    intro id
    rw [hslot, slot_put]
    by_cases hid : streamId = id
    · rw [if_pos hid, ← hid]
      exact hkeyed
    · rw [if_neg hid]
      exact h.keyed id

/-- The call does not offer to a stream whose cursor has wrapped around. -/
def SafeCall (q : DeliveryQueue) : Call → Prop
  | .offer msg => ¬ (q.slot msg.streamId).Wrapped
  | .flushStream _ => True

/-- Every call of the sequence is safe in the state it finds. -/
def SafeRun (q : DeliveryQueue) : List Call → Prop
  | [] => True
  | c :: cs => q.SafeCall c ∧ ∀ out q', q.call c = .ok (out, q') → SafeRun q' cs

/-- The entry that an offer works on: the slot of its stream, with its starting point set. -/
theorem entry_cases (q : DeliveryQueue) (msg : Message) :
    ((q.slot msg.streamId).started = true ∧ q.entry msg = q.slot msg.streamId) ∨
      ((q.slot msg.streamId).started = false ∧
        q.entry msg = { q.slot msg.streamId with started := true, nextExpected := msg.msgId }) := by
  have hentry : q.entry msg = if !(q.slot msg.streamId).started then
      { q.slot msg.streamId with started := true, nextExpected := msg.msgId }
    else q.slot msg.streamId := rfl
  cases hstarted : (q.slot msg.streamId).started with
  | true => exact .inl ⟨rfl, by rw [hentry, hstarted]; rfl⟩
  | false => exact .inr ⟨rfl, by rw [hentry, hstarted]; rfl⟩

theorem entry_of_started (h : (q.slot msg.streamId).started = true) :
    q.entry msg = q.slot msg.streamId := by
  obtain ⟨-, hentry⟩ | ⟨hfalse, -⟩ := entry_cases q msg
  · exact hentry
  · exact absurd (hfalse.symm.trans h) Bool.false_ne_true

/-- A started stream has an entry, which may be put again. -/
theorem put_slot {streamId : UInt16} (h : (q.slot streamId).started = true) :
    q.put streamId (q.slot streamId) = q := by
  have hstreams : q.streams.insert streamId (q.slot streamId) = q.streams := by
    apply Std.ExtTreeMap.ext_getElem?
    intro id
    rw [getElem?_insert_eq]
    split
    · next hid =>
      rw [← hid]
      rw [slot, Std.ExtTreeMap.getD_eq_getD_getElem?] at h ⊢
      cases hs : q.streams[streamId]? with
      | none =>
          rw [hs] at h
          cases h
      | some s => rfl
    · rfl
  rw [DeliveryQueue.put, hstreams]

/-- What the invariant says of the entry that an offer works on. -/
structure Entered (s : StreamOrder) (released : List UInt32) : Prop where
  started : s.started = true
  below : ∀ r ∈ released, r < s.nextExpected
  cursor : ∀ last ∈ released.getLast?, s.nextExpected = last + 1
  behind : ∀ r ∈ released, ∀ e ∈ s.held, r < e.1
  ahead : ∀ e ∈ s.held, s.nextExpected < e.1

theorem Invariant.entered (h : Invariant q released offered)
    (hsafe : ¬ (q.slot msg.streamId).Wrapped) :
    Entered (q.entry msg) (idsOf msg.streamId released) := by
  have hslot := h.ordered msg.streamId
  obtain ⟨hstarted, hentry⟩ | ⟨hstarted, hentry⟩ := entry_cases q msg
  · rw [hentry]
    exact { started := hstarted
            below := fun r hr =>
              (hslot.lt_cursor_iff hstarted hsafe r).mpr ⟨r, hr, UInt32.le_refl r⟩
            cursor := hslot.cursor
            behind := hslot.behind
            ahead := hslot.ahead }
  · have hnone : idsOf msg.streamId released = [] := by
      by_contra hne
      exact Bool.false_ne_true (hstarted.symm.trans (hslot.started.mpr hne))
    have hheld : (q.entry msg).held = [] := (held_entry q msg).trans (hslot.fresh hstarted)
    rw [hnone]
    exact { started := by rw [hentry]
            below := nofun
            cursor := nofun
            behind := nofun
            ahead := by rw [hheld]; exact nofun }

/-- A message that is not at the cursor finds its stream started. -/
theorem entry_of_ne (q : DeliveryQueue) (msg : Message) (hne : msg.msgId ≠ (q.entry msg).nextExpected) :
    (q.slot msg.streamId).started = true ∧ q.entry msg = q.slot msg.streamId := by
  obtain h | ⟨-, hentry⟩ := entry_cases q msg
  · exact h
  · exact absurd (by rw [hentry]) hne

/-- A message that is dropped leaves its stream as it was. -/
theorem Invariant.dropped (h : Invariant q released offered)
    (hentry : q.entry msg = q.slot msg.streamId)
    (hid : (∃ r ∈ idsOf msg.streamId released, msg.msgId ≤ r) ∨
      ∃ e ∈ (q.slot msg.streamId).held, e.1 = msg.msgId)
    (hq' : ∀ id, q'.slot id = (q.put msg.streamId (q.entry msg)).slot id) :
    Invariant q' (released ++ []) (offered ++ [msg]) := by
  refine h.put _ hq' (by simp) (by simp) ?_ ?_
  · rw [idsOf_single, hentry, show idsOf msg.streamId [] = [] from rfl, List.append_nil]
    exact (h.ordered msg.streamId).offer hid
  · rw [hentry]
    exact h.keyed msg.streamId

/-- A message at the cursor is released, and the run of the buffer behind it. -/
theorem Invariant.due (h : Invariant q released offered) (hsafe : ¬ (q.slot msg.streamId).Wrapped)
    {run : List (UInt32 × Message)} {s' : StreamOrder}
    (hdue : msg.msgId = (q.entry msg).nextExpected)
    (hrun : Releases { q.entry msg with nextExpected := (q.entry msg).nextExpected + 1 } run s')
    (hstuck : s'.Stuck) :
    Invariant (q.put msg.streamId s') (released ++ (msg :: run.map Prod.snd)) (offered ++ [msg]) := by
  have hslot := h.ordered msg.streamId
  have hkeyed := h.keyed msg.streamId
  have hentered := h.entered hsafe
  have hheld := held_entry q msg
  have hsplit : (q.slot msg.streamId).held = run ++ s'.held := hheld.symm.trans hrun.held_eq
  have hruns : ∀ e ∈ run, e.2.streamId = msg.streamId ∧ e.2.msgId = e.1 := fun e he =>
    hkeyed e (by rw [hsplit]; exact List.mem_append_left _ he)
  have hids : idsOf msg.streamId (msg :: run.map Prod.snd) = msg.msgId :: run.map Prod.fst := by
    rw [← List.singleton_append, idsOf_append, idsOf_single, idsOf_run hruns]
    rfl
  refine h.put s' (fun id => rfl) (by simp)
    (List.forall_mem_cons.mpr ⟨rfl, streamId_of_run hruns⟩) ?_ ?_
  · rw [hids, idsOf_single, List.append_cons]
    apply Ordered.of_releases hrun hstuck
    · rw [List.pairwise_append]
      refine ⟨hslot.ascending, List.pairwise_singleton _ _, fun r hr id hid => ?_⟩
      rw [List.mem_singleton.mp hid, hdue]
      exact hentered.below r hr
    · intro r hr e he
      obtain hr | hr := List.mem_append.mp hr
      · exact hentered.behind r hr e he
      · rw [List.mem_singleton.mp hr, hdue]
        exact hentered.ahead e he
    · intro last hlast
      rw [Option.mem_def, List.getLast?_concat] at hlast
      rw [← Option.some.inj hlast, hdue]
    · exact hentered.started
    · simp
    · intro o ho
      obtain ho | ho := List.mem_append.mp ho
      · obtain ⟨r, hr, hle⟩ | hheld' := hslot.accounted o ho
        · exact .inl ⟨r, List.mem_append_left _ hr, hle⟩
        · rw [← hheld] at hheld'
          exact .inr hheld'
      · exact .inl ⟨msg.msgId, by simp, by rw [List.mem_singleton.mp ho]; exact UInt32.le_refl _⟩
  · exact fun e he => hkeyed e (by rw [hsplit]; exact List.mem_append_right _ he)

/-- A message ahead of the cursor is buffered, and the front of the buffer may be forced out. -/
theorem Invariant.ahead (h : Invariant q released offered)
    (hsafe : ¬ (q.slot msg.streamId).Wrapped) {run : List (UInt32 × Message)} {s' : StreamOrder}
    (hahead : (q.entry msg).nextExpected < msg.msgId)
    (hcontains : (q.entry msg).pending.contains msg.msgId = false)
    (hrun : Releases { q.entry msg with pending := (q.entry msg).pending.insert msg.msgId msg } run s')
    (hstuck : run = [] ∨ s'.Stuck) (gaps : UInt64) :
    Invariant { q.put msg.streamId s' with gaps } (released ++ run.map Prod.snd)
      (offered ++ [msg]) := by
  have hslot := h.ordered msg.streamId
  have hentered := h.entered hsafe
  have hheld := held_entry q msg
  have hinsert := held_insert (q.entry msg) hcontains
  obtain ⟨hstarted, hentry⟩ := entry_of_ne q msg (UInt32.ne_of_lt hahead).symm
  have hmem : ∀ e, e ∈ run ++ s'.held ↔ e = (msg.msgId, msg) ∨ e ∈ (q.slot msg.streamId).held := by
    intro e
    rw [← hrun.held_eq, hinsert.mem_iff, List.mem_cons, hheld]
  have hkeys : ∀ e ∈ run ++ s'.held, e.2.streamId = msg.streamId ∧ e.2.msgId = e.1 := by
    intro e he
    obtain rfl | he := (hmem e).mp he
    · exact ⟨rfl, rfl⟩
    · exact h.keyed msg.streamId e he
  have hruns : ∀ e ∈ run, e.2.streamId = msg.streamId ∧ e.2.msgId = e.1 := fun e he =>
    hkeys e (List.mem_append_left _ he)
  have hbeyond : ∀ e ∈ run ++ s'.held, (q.entry msg).nextExpected < e.1 := by
    intro e he
    obtain rfl | he := (hmem e).mp he
    · exact hahead
    · exact hentered.ahead e (by rwa [hheld])
  have hstuck : s'.Stuck := by
    obtain rfl | hstuck := hstuck
    · cases hrun with
      | nil =>
          intro e he
          exact (UInt32.ne_of_lt (hbeyond e (List.mem_of_mem_head? he))).symm
    · exact hstuck
  refine h.put s' (fun id => rfl) (by simp) (streamId_of_run hruns) ?_ ?_
  · rw [idsOf_run hruns, idsOf_single]
    apply Ordered.of_releases hrun hstuck hslot.ascending
    · intro r hr e he
      rw [hrun.held_eq] at he
      exact UInt32.lt_trans (hentered.below r hr) (hbeyond e he)
    · exact hentered.cursor
    · exact hentered.started
    · have hne := hslot.started.mp hstarted
      simp [hne]
    · intro o ho
      rw [hrun.held_eq]
      obtain ho | ho := List.mem_append.mp ho
      · obtain hreleased | ⟨e, he, heq⟩ := hslot.accounted o ho
        · exact .inl hreleased
        · exact .inr ⟨e, (hmem e).mpr (.inr he), heq⟩
      · exact .inr ⟨(msg.msgId, msg), (hmem _).mpr (.inl rfl), (List.mem_singleton.mp ho).symm⟩
  · exact fun e he => hkeys e (List.mem_append_right _ he)

/-- An offer to a stream that has not wrapped around keeps the invariant. -/
theorem Invariant.offer (h : Invariant q released offered) (hsafe : ¬ (q.slot msg.streamId).Wrapped)
    (hoffers : Offers q msg out q') : Invariant q' (released ++ out) (offered ++ [msg]) := by
  cases hoffers with
  | late hlate =>
      obtain ⟨hstarted, hentry⟩ := entry_of_ne q msg (UInt32.ne_of_lt hlate)
      rw [hentry] at hlate
      have hreleased := ((h.ordered msg.streamId).lt_cursor_iff hstarted hsafe _).mp hlate
      exact h.dropped hentry (.inl hreleased) fun id => rfl
  | repeated hahead hcontains =>
      obtain ⟨-, hentry⟩ := entry_of_ne q msg (UInt32.ne_of_lt hahead).symm
      rw [hentry] at hcontains
      exact h.dropped hentry (.inr ((contains_iff _ _).mp hcontains)) fun id => rfl
  | due hdue hrun hstuck => exact h.due hsafe hdue hrun hstuck
  | ahead hahead hcontains hrun hwindow hstuck => exact h.ahead hsafe hahead hcontains hrun hstuck _

/-- A flush keeps the invariant. -/
theorem Invariant.flushStream (h : Invariant q released offered) {streamId : UInt16}
    (hflush : Flushes q streamId out q') : Invariant q' (released ++ out) offered := by
  cases hflush with
  | unknown hnone =>
      rw [List.append_nil]
      exact h
  | @flushed s run s' gaps hs hrun hempty =>
      have hslot := slot_eq_of_getElem? hs
      have hordered := h.ordered streamId
      have hkeyed := h.keyed streamId
      rw [hslot] at hordered hkeyed
      have hheld := hrun.held_eq
      rw [hempty, List.append_nil] at hheld
      have hruns : ∀ e ∈ run, e.2.streamId = streamId ∧ e.2.msgId = e.1 := by
        rw [← hheld]
        exact hkeyed
      have hkeep : Keyed s' streamId := by
        intro e he
        rw [hempty] at he
        exact absurd he List.not_mem_nil
      rw [← List.append_nil offered]
      refine h.put s' (fun id => rfl) (by simp) (streamId_of_run hruns) ?_ hkeep
      rw [idsOf_run hruns, show idsOf streamId [] = [] from rfl, List.append_nil]
      cases hrun with
      | nil =>
          rw [List.map_nil, List.append_nil]
          exact hordered
      | @cons _ _ e l run hhead hrun =>
          have hstarted : s.started = true := by
            by_contra hfalse
            have hnil := hordered.fresh (Bool.eq_false_iff.mpr hfalse)
            rw [hnil] at hhead
            cases hhead
          refine Ordered.of_releases (.cons hhead hrun) ?_ hordered.ascending hordered.behind
            hordered.cursor hstarted (by simp) hordered.accounted
          intro e' he'
          rw [hempty] at he'
          cases he'

/-- A safe call keeps the invariant. -/
theorem Invariant.call (h : Invariant q released offered) {c : Call} (hsafe : q.SafeCall c)
    (hcall : Calls q c out q') : Invariant q' (released ++ out) (offered ++ c.offered) := by
  cases hcall with
  | offer hoffers => exact h.offer hsafe hoffers
  | flushStream hflush =>
      have h := h.flushStream hflush
      rwa [← List.append_nil offered] at h

/-! ### Runs -/

theorem Invariant.make (window : Nat) : Invariant (make window) [] [] := by
  constructor
  case ordered =>
    intro id
    rw [slot_make]
    exact .unknown
  case keyed =>
    intro id e he
    rw [slot_make] at he
    exact absurd he List.not_mem_nil

theorem Invariant.calls (h : Invariant q released offered) {cs : List Call} (hsafe : q.SafeRun cs) :
    ∀ out q', q.calls cs = .ok (out, q') →
      Invariant q' (released ++ out) (offered ++ cs.flatMap Call.offered) := by
  induction cs generalizing q released offered with
  | nil =>
      intro out q' hrun
      obtain ⟨rfl, rfl⟩ := Prod.mk.inj (Except.ok.inj hrun)
      simpa using h
  | cons c cs ih =>
      intro out q' hrun
      obtain ⟨out₁, q₁, hcall, hcases⟩ := call_run q c
      obtain ⟨out₂, q₂, hrest⟩ := calls_returns q₁ cs
      obtain ⟨rfl, rfl⟩ := Prod.mk.inj (Except.ok.inj (hrun.symm.trans (calls_cons hcall hrest)))
      have hstep := ih (h.call hsafe.1 hcases) (hsafe.2 _ _ hcall) out₂ q' hrest
      rwa [List.append_assoc, List.append_assoc] at hstep

/-- The message is at or behind one that was released in its stream, or was offered before. -/
def Stale (released offered : List Message) (msg : Message) : Prop :=
  (∃ r ∈ released, r.streamId = msg.streamId ∧ msg.msgId ≤ r.msgId) ∨
    ∃ o ∈ offered, o.streamId = msg.streamId ∧ o.msgId = msg.msgId

/-- Dropped and counted: the call returns nothing and changes nothing but the counter. -/
def Drops (q : DeliveryQueue) (msg : Message) : Prop :=
  q.offer msg = .ok ([], { q with duplicates := q.duplicates + 1 })

/-- A stale message is dropped and counted, unless its stream has wrapped around. -/
theorem Invariant.drops (h : Invariant q released offered) (hsafe : ¬ (q.slot msg.streamId).Wrapped)
    (hstale : Stale released offered msg) : q.Drops msg := by
  have hslot := h.ordered msg.streamId
  have hid : (∃ r ∈ idsOf msg.streamId released, msg.msgId ≤ r) ∨
      ∃ e ∈ (q.slot msg.streamId).held, e.1 = msg.msgId := by
    obtain ⟨r, hr, hstream, hle⟩ | ⟨o, ho, hstream, hid⟩ := hstale
    · exact .inl ⟨r.msgId, mem_idsOf.mpr ⟨r, hr, hstream, rfl⟩, hle⟩
    · exact hslot.accounted _ (mem_idsOf.mpr ⟨o, ho, hstream, hid⟩)
  have hstarted : (q.slot msg.streamId).started = true := by
    by_contra hfalse
    have hfalse := Bool.eq_false_iff.mpr hfalse
    obtain ⟨r, hr, -⟩ | ⟨e, he, -⟩ := hid
    · have hstarted := hslot.started.mpr (List.ne_nil_of_mem hr)
      exact Bool.false_ne_true (hfalse.symm.trans hstarted)
    · rw [hslot.fresh hfalse] at he
      exact absurd he List.not_mem_nil
  have hentry := entry_of_started hstarted
  have hput : q.put msg.streamId (q.entry msg) = q := by rw [hentry, put_slot hstarted]
  rw [Drops, ← hput]
  obtain ⟨out, q', hrun, hoffers⟩ := offer_run q msg
  rw [hput, hrun]
  cases hoffers with
  | late hlate => rw [hput]
  | repeated hahead hcontains => rw [hput]
  | due hdue hrun hstuck =>
      rw [hentry] at hdue
      obtain hreleased | ⟨e, he, heq⟩ := hid
      · have hlt := (hslot.lt_cursor_iff hstarted hsafe msg.msgId).mpr hreleased
        exact absurd hdue (UInt32.ne_of_lt hlt)
      · have hlt := hslot.ahead e he
        rw [heq] at hlt
        exact absurd hdue.symm (UInt32.ne_of_lt hlt)
  | ahead hahead hcontains hrun hwindow hstuck =>
      rw [hentry] at hahead hcontains
      obtain hreleased | hheld := hid
      · have hlt := (hslot.lt_cursor_iff hstarted hsafe msg.msgId).mpr hreleased
        exact absurd (UInt32.lt_trans hlt hahead) (UInt32.lt_irrefl _)
      · exact absurd (hcontains.symm.trans ((contains_iff _ _).mpr hheld)) Bool.false_ne_true

/-- On a stream that has wrapped around every message is stale, and none is dropped. -/
theorem Invariant.not_drops (h : Invariant q released offered) (hwrapped : (q.slot msg.streamId).Wrapped) :
    Stale released offered msg ∧ ¬ q.Drops msg := by
  have hslot := h.ordered msg.streamId
  obtain ⟨last, hlast, hnext⟩ := hslot.exists_last hwrapped.1
  have hle := le_of_next_eq_zero (hnext.symm.trans hwrapped.2)
  obtain ⟨r, hr, hstream, hid⟩ := mem_idsOf.mp (List.mem_of_getLast? hlast)
  refine ⟨.inl ⟨r, hr, hstream, by rw [hid]; exact hle _⟩, fun hdrops => ?_⟩
  have hentry := entry_of_started hwrapped.1
  have hempty : (q.slot msg.streamId).held = [] := by
    rw [List.eq_nil_iff_forall_not_mem]
    intro e he
    have hlt := hslot.behind last (List.mem_of_getLast? hlast) e he
    exact absurd hlt (UInt32.not_lt.mpr (hle e.1))
  obtain ⟨out, q', hrun, hoffers⟩ := offer_run q msg
  obtain ⟨hout, hq'⟩ := Prod.mk.inj (Except.ok.inj (hrun.symm.trans hdrops))
  cases hoffers with
  | late hlate =>
      rw [hentry, hwrapped.2] at hlate
      exact UInt32.not_lt_zero hlate
  | due hdue hrun hstuck => cases hout
  | repeated hahead hcontains =>
      rw [hentry] at hcontains
      obtain ⟨e, he, -⟩ := (contains_iff _ _).mp hcontains
      rw [hempty] at he
      exact absurd he List.not_mem_nil
  | ahead hahead hcontains hrun hwindow hstuck =>
      have hcount : q.duplicates = q.duplicates + 1 := congrArg DeliveryQueue.duplicates hq'
      exact absurd (UInt64.left_eq_add.mp hcount) (by decide)

/-- Ordered exactly-once delivery: the ids released for a stream are strictly ascending, and every
late or repeated message is dropped and counted. -/
structure DeliversInOrder (window : Nat) (cs : List Call) : Prop where
  returns : ∃ out q, (make window).calls cs = .ok (out, q)
  ascending : ∀ out q, (make window).calls cs = .ok (out, q) → ∀ id, (idsOf id out).Pairwise (· < ·)
  drops : ∀ before msg rest out q, cs = before ++ .offer msg :: rest →
    (make window).calls before = .ok (out, q) → Stale out (before.flatMap Call.offered) msg →
    q.Drops msg

theorem safeRun_of_drops (h : Invariant q released offered) (cs : List Call)
    (hdrops : ∀ before msg rest out q', cs = before ++ .offer msg :: rest →
      q.calls before = .ok (out, q') →
      Stale (released ++ out) (offered ++ before.flatMap Call.offered) msg → q'.Drops msg) :
    q.SafeRun cs := by
  induction cs generalizing q released offered with
  | nil => trivial
  | cons c cs ih =>
      have hsafe : q.SafeCall c := by
        cases c with
        | flushStream streamId => trivial
        | offer msg =>
            intro hwrapped
            obtain ⟨hstale, hnot⟩ := h.not_drops hwrapped
            exact hnot (hdrops [] msg cs [] q rfl rfl (by simpa using hstale))
      obtain ⟨out, q₁, hcall, hcases⟩ := call_run q c
      refine ⟨hsafe, fun out' q' hcall' => ?_⟩
      obtain ⟨rfl, rfl⟩ := Prod.mk.inj (Except.ok.inj (hcall.symm.trans hcall'))
      refine ih (h.call hsafe hcases) fun before msg rest out' q' hcs hrun hstale => ?_
      refine hdrops (c :: before) msg rest (out ++ out') q' (by rw [hcs]; rfl) (calls_cons hcall hrun) ?_
      rwa [List.flatMap_cons, ← List.append_assoc, ← List.append_assoc]

theorem safeRun_split {cs ds : List Call} (hsafe : q.SafeRun (cs ++ ds)) :
    q.SafeRun cs ∧ ∀ out q', q.calls cs = .ok (out, q') → q'.SafeRun ds := by
  induction cs generalizing q with
  | nil =>
      refine ⟨trivial, fun out q' hrun => ?_⟩
      obtain ⟨rfl, rfl⟩ := Prod.mk.inj (Except.ok.inj hrun)
      exact hsafe
  | cons c cs ih =>
      obtain ⟨out, q₁, hcall, -⟩ := call_run q c
      obtain ⟨out', q₂, hrest⟩ := calls_returns q₁ cs
      obtain ⟨hcs, hds⟩ := ih (hsafe.2 _ _ hcall)
      refine ⟨⟨hsafe.1, fun out'' q'' hcall' => ?_⟩, fun out'' q'' hrun => ?_⟩
      · obtain ⟨rfl, rfl⟩ := Prod.mk.inj (Except.ok.inj (hcall.symm.trans hcall'))
        exact hcs
      · obtain ⟨rfl, rfl⟩ := Prod.mk.inj (Except.ok.inj (hrun.symm.trans (calls_cons hcall hrest)))
        exact hds _ _ hrest

/-- Delivery is in order exactly in the runs that offer nothing to a stream whose cursor has wrapped
around. -/
theorem deliversInOrder_iff (window : Nat) (cs : List Call) :
    DeliversInOrder window cs ↔ (make window).SafeRun cs := by
  constructor
  · intro h
    refine safeRun_of_drops (.make window) cs fun before msg rest out q hcs hrun hstale => ?_
    exact h.drops before msg rest out q hcs hrun (by simpa using hstale)
  · intro hsafe
    constructor
    case returns => exact calls_returns _ cs
    case ascending =>
      intro out q hrun id
      have hinvariant := (Invariant.make window).calls hsafe out q hrun
      exact (hinvariant.ordered id).ascending
    case drops =>
      intro before msg rest out q hcs hrun hstale
      rw [hcs] at hsafe
      obtain ⟨hbefore, hafter⟩ := safeRun_split hsafe
      have hinvariant := (Invariant.make window).calls hbefore out q hrun
      exact hinvariant.drops (hafter out q hrun).1 hstale

/-- Behind the largest id the cursor is at zero: id 0 counts as new, and the largest id is buffered
and released a second time. -/
theorem not_deliversInOrder_last_id :
    ¬ DeliversInOrder 64
      [.offer ⟨1, 0xFFFFFFFF, false, []⟩, .offer ⟨1, 0, false, []⟩, .offer ⟨1, 0xFFFFFFFF, false, []⟩,
        .flushStream 1] := by
  intro h
  obtain ⟨out, q, hrun⟩ := h.returns
  have hids : (fun r : List Message × DeliveryQueue => idsOf 1 r.1) <$> (make 64).calls
      [.offer ⟨1, 0xFFFFFFFF, false, []⟩, .offer ⟨1, 0, false, []⟩, .offer ⟨1, 0xFFFFFFFF, false, []⟩,
        .flushStream 1] = .ok [0xFFFFFFFF, 0, 0xFFFFFFFF] := by decide +kernel
  have hascending := h.ascending out q hrun 1
  rw [hrun] at hids
  have hids : idsOf 1 out = [0xFFFFFFFF, 0, 0xFFFFFFFF] := Except.ok.inj hids
  rw [hids] at hascending
  exact absurd hascending (by decide)

end DeliveryQueue

end Bytewright.Streamcodec
