import Mathlib.Algebra.BigOperators.Group.Finset.Basic
import Bytewright.Library.Counting
import Bytewright.Verification.Streamcodec.Ordering

/-! # The gaps that the delivery queue reports -/

namespace Bytewright.Streamcodec

open Bytewright.Common Bytewright.Library

/-! ### Holes in a release sequence -/

/-- The neighbours of a release sequence of which the second is not next to the first. -/
def skips (ids : List UInt32) : Nat := (neighbours ids).countP fun p => p.2 ≠ p.1 + 1

theorem skips_concat (front : List UInt32) (last id : UInt32) :
    skips (front ++ [last] ++ [id]) = skips (front ++ [last]) + if id = last + 1 then 0 else 1 := by
  rw [skips, neighbours_append, List.getLast?_concat, List.countP_append]
  by_cases hid : id = last + 1 <;> simp [skips, hid]

theorem skips_append (front : List UInt32) (last : UInt32) (ids : List UInt32) :
    skips (front ++ [last] ++ ids) = skips (front ++ [last]) + StreamOrder.holes (last + 1) ids := by
  induction ids generalizing front last with
  | nil => simp [StreamOrder.holes]
  | cons id ids ih =>
      rw [List.append_cons, ih, skips_concat, StreamOrder.holes, Nat.add_assoc]

/-- What a stream releases next adds the holes it leaves behind the cursor. -/
theorem skips_released {next : UInt32} {released ids : List UInt32}
    (hcursor : ∀ last ∈ released.getLast?, next = last + 1)
    (hfirst : released = [] → ∀ id ∈ ids.head?, id = next) :
    skips (released ++ ids) = skips released + StreamOrder.holes next ids := by
  rcases List.eq_nil_or_concat released with rfl | ⟨front, last, rfl⟩
  · cases ids with
    | nil => rfl
    | cons id ids =>
        have hid : id = next := hfirst rfl id rfl
        have h := skips_append [] id ids
        rw [StreamOrder.holes, if_pos hid]
        simpa [skips, neighbours] using h
  · have hnext : next = last + 1 := hcursor last (by simp)
    rw [List.concat_eq_append, skips_append, hnext]

/-- The holes behind the last id released are those that come with the new ids. -/
theorem skips_last {next : UInt32} {released ids : List UInt32}
    (hcursor : ∀ last ∈ released.getLast?, next = last + 1)
    (hfirst : released = [] → ∀ id ∈ ids.head?, id = next) :
    skips (released.getLast?.toList ++ ids) = StreamOrder.holes next ids := by
  have hlast : skips released.getLast?.toList = 0 := by cases released.getLast? <;> rfl
  rw [@skips_released next, hlast, Nat.zero_add]
  · cases hgetLast : released.getLast? with
    | none => exact nofun
    | some last => simpa using hcursor last hgetLast
  · intro hnil
    exact hfirst (by simpa using hnil)

/-! ### The invariant of one stream -/

namespace StreamOrder

variable {s s' : StreamOrder} {released : List UInt32} {run : List (UInt32 × Message)}

/-- Behind every call, whether or not ids have wrapped around: the cursor is next to the last id
released, and in front of everything buffered. -/
structure Tracks (s : StreamOrder) (released : List UInt32) : Prop where
  cursor : ∀ last ∈ released.getLast?, s.nextExpected = last + 1
  ahead : ∀ e ∈ s.held, s.nextExpected < e.1
  started : s.started = true ↔ released ≠ []
  fresh : s.started = false → s.held = []

theorem Tracks.unknown : Tracks {} [] where
  cursor := nofun
  ahead := nofun
  started := by decide
  fresh := fun _ => rfl

/-- Releasing a run keeps the cursor next to the last id released. -/
theorem Tracks.of_releases (hrun : Releases s run s')
    (hcursor : ∀ last ∈ released.getLast?, s.nextExpected = last + 1)
    (hahead : ∀ e ∈ s'.held, s'.nextExpected < e.1) (hstarted : s.started = true)
    (hne : released ++ run.map Prod.fst ≠ []) : Tracks s' (released ++ run.map Prod.fst) := by
  have hstarted' : s'.started = true := hrun.started_eq.trans hstarted
  constructor
  case cursor => exact hrun.cursor hcursor
  case ahead => exact hahead
  case started => exact iff_of_true hstarted' hne
  case fresh => exact fun hfalse => absurd (hfalse.symm.trans hstarted') Bool.false_ne_true

end StreamOrder

namespace DeliveryQueue

open StreamOrder

variable {q q' : DeliveryQueue} {msg : Message} {c : Call} {out released : List Message}

/-! ### One call -/

/-- The stream a call is about. -/
def Call.streamId : Call → UInt16
  | offer msg => msg.streamId
  | flushStream streamId => streamId

/-- The entry of that stream, as the call finds it. -/
def callEntry (q : DeliveryQueue) : Call → StreamOrder
  | .offer msg => q.entry msg
  | .flushStream streamId => q.slot streamId

theorem call_spec (q : DeliveryQueue) (c : Call) :
    ∃ out q', q.call c = .ok (out, q') ∧ Calls q c out q' ∧
      (Waiting (q.callEntry c) → q'.gaps = q.gaps +
        UInt64.ofNat (holes (q.callEntry c).nextExpected (out.map (·.msgId)))) := by
  cases c with
  | offer msg =>
      obtain ⟨out, q', hrun, h, hgaps⟩ := offer_spec q msg
      exact ⟨out, q', hrun, .offer h, hgaps⟩
  | flushStream streamId =>
      obtain ⟨out, q', hrun, h, hgaps⟩ := flushStream_spec q streamId
      exact ⟨out, q', hrun, .flushStream h, hgaps⟩

/-- Every buffer holds messages of its own stream, each under its own id. -/
def AllKeyed (q : DeliveryQueue) : Prop := ∀ id, Keyed (q.slot id) id

/-- What a call does to the streams: it releases messages of its own stream only, and changes the
entry of no other. -/
structure Local (q : DeliveryQueue) (streamId : UInt16) (out : List Message) (q' : DeliveryQueue) :
    Prop where
  own : ∀ m ∈ out, m.streamId = streamId
  keyed : AllKeyed q'
  others : ∀ id, id ≠ streamId → q'.slot id = q.slot id

theorem local_put {streamId : UInt16} {s' : StreamOrder} (hq : AllKeyed q)
    (hslot : ∀ id, q'.slot id = (q.put streamId s').slot id)
    (hown : ∀ m ∈ out, m.streamId = streamId) (hkeyed : Keyed s' streamId) :
    Local q streamId out q' := by
  constructor
  case own => exact hown
  case keyed =>
    intro id
    rw [hslot, slot_put]
    by_cases hid : streamId = id
    · rw [if_pos hid, ← hid]
      exact hkeyed
    · rw [if_neg hid]
      exact hq id
  case others =>
    intro id hid
    rw [hslot, slot_put, if_neg (Ne.symm hid)]

theorem keyed_entry (hq : AllKeyed q) (msg : Message) : Keyed (q.entry msg) msg.streamId := by
  intro e he
  rw [held_entry] at he
  exact hq msg.streamId e he

/-- Of a keyed buffer, what is released and what remains is keyed. -/
theorem keyed_releases {s s' : StreamOrder} {run : List (UInt32 × Message)} {streamId : UInt16}
    (hrun : Releases s run s') (hs : Keyed s streamId) :
    (∀ e ∈ run, e.2.streamId = streamId ∧ e.2.msgId = e.1) ∧ Keyed s' streamId := by
  have hheld := hrun.held_eq
  constructor
  · intro e he
    exact hs e (by rw [hheld]; exact List.mem_append_left _ he)
  · intro e he
    exact hs e (by rw [hheld]; exact List.mem_append_right _ he)

theorem keyed_insert {s : StreamOrder} {streamId : UInt16} (hs : Keyed s streamId)
    (hstream : msg.streamId = streamId) (hnew : s.pending.contains msg.msgId = false) :
    Keyed { s with pending := s.pending.insert msg.msgId msg } streamId := by
  intro e he
  rcases List.mem_cons.mp ((held_insert s hnew).mem_iff.mp he) with rfl | he
  · exact ⟨hstream, rfl⟩
  · exact hs e he

theorem Offers.local (h : Offers q msg out q') (hq : AllKeyed q) : Local q msg.streamId out q' := by
  have hentry := keyed_entry hq msg
  cases h with
  | late => exact local_put hq (fun id => rfl) nofun hentry
  | due hdue hrun =>
      have hkeyed := keyed_releases hrun hentry
      exact local_put hq (fun id => rfl)
        (List.forall_mem_cons.mpr ⟨rfl, streamId_of_run hkeyed.1⟩) hkeyed.2
  | repeated => exact local_put hq (fun id => rfl) nofun hentry
  | ahead hahead hnew hrun =>
      have hkeyed := keyed_releases hrun (keyed_insert hentry rfl hnew)
      exact local_put hq (fun id => rfl) (streamId_of_run hkeyed.1) hkeyed.2

theorem Calls.local (h : Calls q c out q') (hq : AllKeyed q) : Local q c.streamId out q' := by
  cases h with
  | offer h => exact h.local hq
  | flushStream h =>
      cases h with
      | unknown => exact { own := nofun, keyed := hq, others := fun _ _ => rfl }
      | flushed hs hrun =>
          have hkeyed := keyed_releases hrun (slot_eq_of_getElem? hs ▸ hq _)
          exact local_put hq (fun id => rfl) (streamId_of_run hkeyed.1) hkeyed.2

/-- What the invariant of a stream says of the entry that an offer works on. -/
structure Enters (s : StreamOrder) (ids : List UInt32) (id : UInt32) : Prop where
  cursor : ∀ last ∈ ids.getLast?, s.nextExpected = last + 1
  ahead : ∀ e ∈ s.held, s.nextExpected < e.1
  started : s.started = true
  first : ids = [] → id = s.nextExpected

theorem enters_entry {ids : List UInt32} (hs : (q.slot msg.streamId).Tracks ids) :
    Enters (q.entry msg) ids msg.msgId := by
  rcases entry_cases q msg with ⟨hstarted, hentry⟩ | ⟨hstarted, hentry⟩
  · rw [hentry]
    exact { cursor := hs.cursor
            ahead := hs.ahead
            started := hstarted
            first := fun hnil => absurd hnil (hs.started.mp hstarted) }
  · have hnil : ids = [] := by
      by_contra hne
      exact Bool.false_ne_true (hstarted.symm.trans (hs.started.mpr hne))
    have hheld : (q.entry msg).held = [] := (held_entry q msg).trans (hs.fresh hstarted)
    constructor
    case cursor => rw [hnil]; exact nofun
    case ahead => rw [hheld]; exact nofun
    case started => rw [hentry]
    case first => rw [hentry]; exact fun _ => rfl

theorem slot_put_self (q : DeliveryQueue) (streamId : UInt16) (s : StreamOrder) :
    (q.put streamId s).slot streamId = s := by
  rw [slot_put, if_pos rfl]

/-- A message that is dropped leaves its stream as it was. -/
theorem tracks_dropped {ids : List UInt32} (hs : (q.slot msg.streamId).Tracks ids)
    (hne : msg.msgId ≠ (q.entry msg).nextExpected) : (q.entry msg).Tracks (ids ++ []) := by
  rw [(entry_of_ne q msg hne).2, List.append_nil]
  exact hs

theorem Offers.tracks {ids : List UInt32} (h : Offers q msg out q') (hq : AllKeyed q)
    (hs : (q.slot msg.streamId).Tracks ids) :
    (q'.slot msg.streamId).Tracks (ids ++ out.map (·.msgId)) := by
  have henters := enters_entry hs
  have hentry := keyed_entry hq msg
  cases h with
  | late hlate =>
      exact (slot_put_self q _ _).symm ▸ tracks_dropped hs (UInt32.ne_of_lt hlate)
  | @due run s' hdue hrun hstuck =>
      have hkeyed := (keyed_releases hrun hentry).1
      have hahead := hrun.ahead_of_next henters.ahead rfl hstuck
      rw [slot_put_self, List.map_cons, map_msgId_of_keyed fun e he => (hkeyed e he).2, List.append_cons]
      refine Tracks.of_releases hrun ?_ hahead henters.started (by simp)
      simp [hdue]
  | repeated hahead =>
      exact (slot_put_self q _ _).symm ▸ tracks_dropped hs (UInt32.ne_of_lt hahead).symm
  | @ahead run s' gaps hahead hnew hrun hwindow hstuck =>
      have hkeyed := (keyed_releases hrun (keyed_insert hentry rfl hnew)).1
      have hwaits : ∀ e ∈ s'.held, s'.nextExpected < e.1 := by
        cases run with
        | nil =>
            cases hrun with
            | nil =>
                intro e he
                rcases List.mem_cons.mp ((held_insert _ hnew).mem_iff.mp he) with rfl | he
                · exact hahead
                · exact henters.ahead e he
        | cons e run =>
            have hstuck : s'.Stuck := hstuck.resolve_left (List.cons_ne_nil _ _)
            exact hrun.ahead (List.cons_ne_nil _ _) hstuck
      have hstarted := (entry_of_ne q msg (UInt32.ne_of_lt hahead).symm).1
      change ((q.put msg.streamId s').slot msg.streamId).Tracks _
      rw [slot_put_self, map_msgId_of_keyed fun e he => (hkeyed e he).2]
      refine Tracks.of_releases hrun henters.cursor hwaits henters.started ?_
      simp [hs.started.mp hstarted]

/-- The first id that a stream releases is the one it starts with. -/
theorem Offers.first {ids : List UInt32} (h : Offers q msg out q')
    (hs : (q.slot msg.streamId).Tracks ids) :
    ids = [] → ∀ id ∈ (out.map (·.msgId)).head?, id = (q.entry msg).nextExpected := by
  intro hnil
  have hfirst := (enters_entry hs).first hnil
  cases h with
  | late => exact nofun
  | due => simp [hfirst]
  | repeated => exact nofun
  | ahead hahead => exact absurd hfirst (UInt32.ne_of_lt hahead).symm

theorem Flushes.tracks {streamId : UInt16} {ids : List UInt32} (h : Flushes q streamId out q')
    (hq : AllKeyed q) (hs : (q.slot streamId).Tracks ids) :
    (q'.slot streamId).Tracks (ids ++ out.map (·.msgId)) := by
  cases h with
  | unknown =>
      rw [List.map_nil, List.append_nil]
      exact hs
  | @flushed s run s' gaps hlookup hrun hempty =>
      have hslot := slot_eq_of_getElem? hlookup
      have hkeyed := hq streamId
      rw [hslot] at hs hkeyed
      change ((q.put streamId s').slot streamId).Tracks _
      rw [slot_put_self, map_msgId_of_keyed fun e he => ((keyed_releases hrun hkeyed).1 e he).2]
      cases hrun with
      | nil =>
          rw [List.map_nil, List.append_nil]
          exact hs
      | @cons _ _ e l run hhead hrest =>
          have hstarted : s.started = true := by
            by_contra hfalse
            rw [hs.fresh (Bool.eq_false_iff.mpr hfalse)] at hhead
            cases hhead
          refine Tracks.of_releases (.cons hhead hrest) hs.cursor ?_ hstarted (by simp)
          rw [hempty]
          exact nofun

theorem Flushes.first {streamId : UInt16} {ids : List UInt32} (h : Flushes q streamId out q')
    (hs : (q.slot streamId).Tracks ids) :
    ids = [] → ∀ id ∈ (out.map (·.msgId)).head?, id = (q.slot streamId).nextExpected := by
  intro hnil
  cases h with
  | unknown => exact nofun
  | @flushed s run s' gaps hlookup hrun hempty =>
      rw [slot_eq_of_getElem? hlookup] at hs
      have hheld : s.held = [] := by
        refine hs.fresh (Bool.eq_false_iff.mpr fun hstarted => ?_)
        exact hs.started.mp hstarted hnil
      rw [hrun.held_eq] at hheld
      rw [(List.append_eq_nil_iff.mp hheld).1]
      exact nofun

/-! ### All streams -/

/-- The skips of every stream that something was released for. -/
def allSkips (released : List Message) : Nat :=
  ∑ id ∈ (released.map (·.streamId)).toFinset, skips (idsOf id released)

theorem allSkips_eq_sum {ids : Finset UInt16} (hids : ∀ m ∈ released, m.streamId ∈ ids) :
    allSkips released = ∑ id ∈ ids, skips (idsOf id released) := by
  refine Finset.sum_subset ?_ ?_
  · intro id hid
    rw [List.mem_toFinset, List.mem_map] at hid
    rcases hid with ⟨m, hm, rfl⟩
    exact hids m hm
  · intro id _ hnot
    rw [List.mem_toFinset] at hnot
    have hnone : idsOf id released = [] := by
      rw [idsOf, List.map_eq_nil_iff, List.filter_eq_nil_iff]
      intro m hm hid
      exact hnot (List.mem_map.mpr ⟨m, hm, of_decide_eq_true hid⟩)
    rw [hnone]
    rfl

theorem idsOf_own {streamId : UInt16} {ms : List Message} (hms : ∀ m ∈ ms, m.streamId = streamId) :
    idsOf streamId ms = ms.map (·.msgId) := by
  rw [idsOf, List.filter_eq_self.mpr]
  exact fun m hm => decide_eq_true (hms m hm)

/-- Messages of one stream add the skips of that stream. -/
theorem allSkips_append {streamId : UInt16} {n : Nat} (hout : ∀ m ∈ out, m.streamId = streamId)
    (hskips : skips (idsOf streamId released ++ out.map (·.msgId)) =
      skips (idsOf streamId released) + n) :
    allSkips (released ++ out) = allSkips released + n := by
  let ids : Finset UInt16 := insert streamId (released.map (·.streamId)).toFinset
  have hreleased : ∀ m ∈ released, m.streamId ∈ ids := fun m hm =>
    Finset.mem_insert_of_mem (List.mem_toFinset.mpr (List.mem_map_of_mem hm))
  have hall : ∀ m ∈ released ++ out, m.streamId ∈ ids := by
    intro m hm
    rcases List.mem_append.mp hm with hm | hm
    · exact hreleased m hm
    · rw [hout m hm]
      exact Finset.mem_insert_self ..
  have hothers : ∑ id ∈ ids.erase streamId, skips (idsOf id (released ++ out)) =
      ∑ id ∈ ids.erase streamId, skips (idsOf id released) := by
    refine Finset.sum_congr rfl fun id hid => ?_
    rw [idsOf_append, idsOf_other (Finset.ne_of_mem_erase hid).symm hout, List.append_nil]
  have hmem : streamId ∈ ids := Finset.mem_insert_self ..
  rw [allSkips_eq_sum hreleased, allSkips_eq_sum hall, ← Finset.add_sum_erase ids _ hmem,
    ← Finset.add_sum_erase ids (fun id => skips (idsOf id released)) hmem, hothers, idsOf_append,
    idsOf_own hout, hskips]
  omega

/-- What holds of the queue behind every call. -/
structure Accounts (q : DeliveryQueue) (released : List Message) : Prop where
  tracks : ∀ id, (q.slot id).Tracks (idsOf id released)
  keyed : AllKeyed q
  gaps : q.gaps = UInt64.ofNat (allSkips released)

theorem Accounts.make (window : Nat) : Accounts (make window) [] := by
  constructor
  case tracks =>
    intro id
    rw [slot_make]
    exact .unknown
  case keyed =>
    intro id e he
    rw [slot_make] at he
    exact absurd he List.not_mem_nil
  case gaps => rfl

/-- The gaps that a call reports: one for each message it releases that is not next to the one
released before it in the stream. -/
def reported (released : List Message) (c : Call) (out : List Message) : Nat :=
  skips ((idsOf c.streamId released).getLast?.toList ++ idsOf c.streamId out)

theorem Accounts.call (h : Accounts q released) (hcall : q.call c = .ok (out, q')) :
    Accounts q' (released ++ out) ∧ q'.gaps = q.gaps + UInt64.ofNat (reported released c out) ∧
      allSkips (released ++ out) = allSkips released + reported released c out := by
  rcases call_spec q c with ⟨out', r, hrun, hcalls, hgaps⟩
  obtain ⟨rfl, rfl⟩ := Prod.mk.inj (Except.ok.inj (hcall.symm.trans hrun))
  have hlocal := hcalls.local h.keyed
  have hslot := h.tracks c.streamId
  have htracks : (q'.slot c.streamId).Tracks (idsOf c.streamId released ++ out.map (·.msgId)) := by
    cases hcalls with
    | offer hoffers => exact hoffers.tracks h.keyed hslot
    | flushStream hflush => exact hflush.tracks h.keyed hslot
  have hcursor : ∀ last ∈ (idsOf c.streamId released).getLast?,
      (q.callEntry c).nextExpected = last + 1 := by
    cases c with
    | offer msg => exact (enters_entry hslot).cursor
    | flushStream streamId => exact hslot.cursor
  have hfirst : idsOf c.streamId released = [] →
      ∀ id ∈ (out.map (·.msgId)).head?, id = (q.callEntry c).nextExpected := by
    cases hcalls with
    | offer hoffers => exact hoffers.first hslot
    | flushStream hflush => exact hflush.first hslot
  have hwaiting : Waiting (q.callEntry c) := by
    cases c with
    | offer msg =>
        exact fun e he => ⟨(enters_entry hslot).ahead e he, (keyed_entry h.keyed msg e he).2⟩
    | flushStream streamId => exact fun e he => ⟨hslot.ahead e he, (h.keyed streamId e he).2⟩
  have hreported : reported released c out =
      holes (q.callEntry c).nextExpected (out.map (·.msgId)) := by
    rw [reported, idsOf_own hlocal.own, skips_last hcursor hfirst]
  have hgaps := hgaps hwaiting
  rw [← hreported] at hgaps
  have hskips := skips_released hcursor hfirst
  rw [← hreported] at hskips
  have hall := allSkips_append hlocal.own hskips
  refine ⟨?_, hgaps, hall⟩
  constructor
  case tracks =>
    intro id
    rw [idsOf_append]
    by_cases hid : id = c.streamId
    · rw [hid, idsOf_own hlocal.own]
      exact htracks
    · rw [idsOf_other (Ne.symm hid) hlocal.own, List.append_nil, hlocal.others id hid]
      exact h.tracks id
  case keyed => exact hlocal.keyed
  case gaps => rw [hall, hgaps, h.gaps, UInt64.ofNat_add]

theorem Accounts.calls {cs : List Call} (h : Accounts q released) :
    ∀ out q', q.calls cs = .ok (out, q') → Accounts q' (released ++ out) := by
  induction cs generalizing q released with
  | nil =>
      intro out q' hrun
      obtain ⟨rfl, rfl⟩ := Prod.mk.inj (Except.ok.inj hrun)
      simpa using h
  | cons c cs ih =>
      intro out q' hrun
      rcases call_run q c with ⟨out₁, q₁, hcall, -⟩
      rcases calls_returns q₁ cs with ⟨out₂, q₂, hrest⟩
      obtain ⟨rfl, rfl⟩ := Prod.mk.inj (Except.ok.inj (hrun.symm.trans (calls_cons hcall hrest)))
      rw [← List.append_assoc]
      exact ih (h.call hcall).1 out₂ q' hrest

/-- Gap accounting on a fresh queue: the counter is the number of neighbours in the release sequences
that are not next to each other, and every call reports the ones it makes. -/
theorem calls_gaps (window : Nat) (cs : List Call) :
    ∃ out q, (make window).calls cs = .ok (out, q) ∧ q.gaps = UInt64.ofNat (allSkips out) ∧
      ∀ (c : Call) (released : List Message) (q' : DeliveryQueue), q.call c = .ok (released, q') →
        allSkips (out ++ released) = allSkips out + reported out c released ∧
        q'.gaps = q.gaps + UInt64.ofNat (reported out c released) := by
  rcases calls_returns (make window) cs with ⟨out, q, hrun⟩
  have haccounts := (Accounts.make window).calls out q hrun
  refine ⟨out, q, hrun, haccounts.gaps, fun c released q' hcall => ?_⟩
  have hcall := haccounts.call hcall
  exact ⟨hcall.2.2, hcall.2.1⟩

/-- The message with the largest id. -/
def lastMessage : Message := { streamId := 1, msgId := 0xFFFFFFFF, compressed := false, data := [] }

/-- On a stream that has wrapped around, with nothing buffered, the largest id is ahead of the cursor
again. A flush releases it and leaves the stream as it was. -/
theorem call_lastMessage (hwrapped : (q.slot 1).Wrapped) (hempty : (q.slot 1).held = []) :
    ∃ out q₁ out' q₂, q.call (.offer lastMessage) = .ok (out, q₁) ∧
      q₁.call (.flushStream 1) = .ok (out', q₂) ∧ out ++ out' = [lastMessage] ∧
      (q₂.slot 1).Wrapped ∧ (q₂.slot 1).held = [] := by
  have hentry : q.entry lastMessage = q.slot 1 := entry_of_started hwrapped.1
  have hnext : (q.entry lastMessage).nextExpected = 0 := by rw [hentry, hwrapped.2]
  rcases offer_run q lastMessage with ⟨out, q₁, hoffer, hoffers⟩
  rcases flushStream_run q₁ 1 with ⟨out', q₂, hflush, hflushes⟩
  refine ⟨out, q₁, out', q₂, hoffer, hflush, ?_⟩
  cases hoffers with
  | late hlate =>
      rw [hnext] at hlate
      exact absurd hlate UInt32.not_lt_zero
  | due hdue =>
      rw [hnext] at hdue
      exact absurd hdue (by decide)
  | repeated hahead hcontains =>
      rcases (contains_iff _ _).mp hcontains with ⟨e, he, -⟩
      rw [hentry, hempty] at he
      exact absurd he List.not_mem_nil
  | @ahead run s' gaps hahead hnew hrun hwindow hstuck =>
      have hinsert := held_insert (q.entry lastMessage) hnew
      rw [hentry, hempty, List.perm_singleton] at hinsert
      rw [hentry] at hrun
      have hslot : ({ q.put 1 s' with gaps } : DeliveryQueue).slot 1 = s' := slot_put_self q 1 s'
      have hstarted : s'.started = true := hrun.started_eq.trans hwrapped.1
      cases hflushes with
      | unknown hnone =>
          have hnone' : s' = {} := hslot.symm.trans (slot_eq_of_none hnone)
          rw [hnone'] at hstarted
          cases hstarted
      | @flushed s run' s'' gaps' hlookup hrun' hempty' =>
          obtain rfl : s = s' := (slot_eq_of_getElem? hlookup).symm.trans hslot
          have hall := hrun.append hrun'
          have hheld := hall.held_eq
          rw [hempty', List.append_nil] at hheld
          have hreleased : run ++ run' = [(lastMessage.msgId, lastMessage)] := hheld.symm.trans hinsert
          have hslot' : (({ q.put 1 s with gaps } : DeliveryQueue).put 1 s'').slot 1 = s'' :=
            slot_put_self _ 1 s''
          refine ⟨?_, ?_, ?_⟩
          · rw [← List.map_append, hreleased]
            rfl
          · change ((({ q.put 1 s with gaps } : DeliveryQueue).put 1 s'').slot 1).Wrapped
            rw [hslot']
            refine ⟨hall.started_eq.trans hwrapped.1, ?_⟩
            rw [hall.next_eq, hreleased]
            rfl
          · change ((({ q.put 1 s with gaps } : DeliveryQueue).put 1 s'').slot 1).held = []
            rw [hslot']
            exact hempty'

theorem calls_lastMessage (n : Nat) (hwrapped : (q.slot 1).Wrapped) (hempty : (q.slot 1).held = []) :
    ∃ cs q', q.calls cs = .ok (List.replicate n lastMessage, q') := by
  induction n generalizing q with
  | zero => exact ⟨[], q, rfl⟩
  | succ n ih =>
      rcases call_lastMessage hwrapped hempty with
        ⟨out, q₁, out', q₂, hoffer, hflush, hout, hwrapped', hempty'⟩
      rcases ih hwrapped' hempty' with ⟨cs, q', hrest⟩
      refine ⟨.offer lastMessage :: .flushStream 1 :: cs, q', ?_⟩
      have hrun := calls_cons hoffer (calls_cons hflush hrest)
      rwa [← List.append_assoc, hout, List.singleton_append, ← List.replicate_succ] at hrun

theorem allSkips_replicate (n : Nat) : allSkips (List.replicate (n + 1) lastMessage) = n := by
  induction n with
  | zero => rfl
  | succ n ih =>
      have hids : idsOf 1 (List.replicate (n + 1) lastMessage) = List.replicate n 0xFFFFFFFF ++ [0xFFFFFFFF] := by
        rw [idsOf_own fun m hm => by rw [List.eq_of_mem_replicate hm]; rfl, List.map_replicate,
          List.replicate_succ']
        rfl
      have hskips := skips_concat (List.replicate n 0xFFFFFFFF) 0xFFFFFFFF 0xFFFFFFFF
      rw [← hids, if_neg (by decide)] at hskips
      have hall := @allSkips_append [lastMessage] (List.replicate (n + 1) lastMessage) 1 1 (by simp [lastMessage]) hskips
      rwa [ih, ← List.replicate_succ'] at hall

/-- A run that skips `2 ^ 64` holes: the counter of the gaps is back at zero. -/
theorem gaps_wrap_around :
    ¬ ∀ (window : Nat) (cs : List Call), ∃ out q, (make window).calls cs = .ok (out, q) ∧
      q.gaps.toNat = allSkips out := by
  intro h
  have hfirst : (fun r : List Message × DeliveryQueue =>
      (r.1, decide (r.2.slot 1).Wrapped, (r.2.slot 1).held)) <$> (make 1).call (.offer lastMessage) =
      .ok ([lastMessage], true, []) := by decide +kernel
  rcases call_run (make 1) (.offer lastMessage) with ⟨out₁, q₁, hrun₁, -⟩
  rw [hrun₁] at hfirst
  obtain ⟨hout, hfirst⟩ := Prod.mk.inj (Except.ok.inj hfirst)
  obtain ⟨hwrapped, hempty⟩ := Prod.mk.inj hfirst
  change out₁ = _ at hout
  rcases calls_lastMessage (2 ^ 64) (of_decide_eq_true hwrapped) hempty with ⟨cs, q', hrest⟩
  have hall := calls_cons hrun₁ hrest
  rw [hout, List.singleton_append, ← List.replicate_succ] at hall
  rcases h 1 (.offer lastMessage :: cs) with ⟨out, q, hrun, hgaps⟩
  rcases calls_gaps 1 (.offer lastMessage :: cs) with ⟨out', r, hrun', hcounted, -⟩
  obtain ⟨rfl, rfl⟩ := Prod.mk.inj (Except.ok.inj (hrun.symm.trans hrun'))
  obtain ⟨rfl, rfl⟩ := Prod.mk.inj (Except.ok.inj (hrun.symm.trans hall))
  rw [hcounted, allSkips_replicate] at hgaps
  exact absurd hgaps (by decide)

end DeliveryQueue

end Bytewright.Streamcodec
