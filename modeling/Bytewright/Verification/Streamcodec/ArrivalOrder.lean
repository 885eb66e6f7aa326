import Bytewright.Verification.Streamcodec.Gaps

/-! # Delivery does not depend on the order of arrival -/

namespace Bytewright.Streamcodec

open Bytewright.Common Bytewright.Library

/-! ### Consecutive ids -/

/-- The `n` ids from `k` on. -/
def idsFrom : (k : UInt32) → (n : Nat) → List UInt32
  | _, 0 => []
  | k, n + 1 => k :: idsFrom (k + 1) n

theorem add_one_add (k : UInt32) (n : Nat) : k + 1 + UInt32.ofNat n = k + UInt32.ofNat (n + 1) := by
  rw [Nat.add_comm, UInt32.ofNat_add, UInt32.add_assoc]
  rfl

theorem idsFrom_append (k : UInt32) (m n : Nat) :
    idsFrom k (m + n) = idsFrom k m ++ idsFrom (k + UInt32.ofNat m) n := by
  induction m generalizing k with
  | zero => simp [idsFrom]
  | succ m ih => rw [Nat.add_right_comm, idsFrom, idsFrom, ih, add_one_add, List.cons_append]

theorem toNat_add_ofNat {k : UInt32} {n : Nat} (h : k.toNat + n < UInt32.size) :
    (k + UInt32.ofNat n).toNat = k.toNat + n := by
  change k.toNat + n < 2 ^ 32 at h
  rw [UInt32.toNat_add, UInt32.toNat_ofNat']
  omega

/-- As long as the ids do not wrap around, they are an interval. -/
theorem mem_idsFrom {k id : UInt32} {n : Nat} (h : k.toNat + n ≤ UInt32.size) :
    id ∈ idsFrom k n ↔ k.toNat ≤ id.toNat ∧ id.toNat < k.toNat + n := by
  induction n generalizing k with
  | zero => simp [idsFrom]
  | succ n ih =>
      rw [idsFrom, List.mem_cons, ← UInt32.toNat_inj]
      cases n with
      | zero => simp [idsFrom]; omega
      | succ n =>
          have hnext : (k + 1).toNat = k.toNat + 1 := toNat_add_ofNat (n := 1) (by omega)
          rw [ih (by omega), hnext]
          omega

theorem idsFrom_ascending {k : UInt32} {n : Nat} (h : k.toNat + n ≤ UInt32.size) :
    (idsFrom k n).Pairwise (· < ·) := by
  induction n generalizing k with
  | zero => exact .nil
  | succ n ih =>
      cases n with
      | zero => exact List.pairwise_singleton ..
      | succ n =>
          have hnext : (k + 1).toNat = k.toNat + 1 := toNat_add_ofNat (n := 1) (by omega)
          refine List.pairwise_cons.mpr ⟨fun id hid => ?_, ih (by omega)⟩
          have hid := ((mem_idsFrom (by omega)).mp hid).1
          rw [UInt32.lt_iff_toNat_lt]
          omega

namespace StreamOrder

variable {s s' : StreamOrder} {run : List (UInt32 × Message)}

/-- A run without a hole is consecutive, and the cursor moves along. -/
theorem Releases.consecutive (h : Releases s run s')
    (hholes : holes s.nextExpected (run.map Prod.fst) = 0) :
    run.map Prod.fst = idsFrom s.nextExpected run.length ∧
      s'.nextExpected = s.nextExpected + UInt32.ofNat run.length := by
  induction h with
  | nil s => simp [idsFrom]
  | @cons s s' e l run hhead hrun ih =>
      rw [List.map_cons, holes] at hholes
      have he : e.1 = s.nextExpected := by
        by_contra hne
        rw [if_neg hne] at hholes
        omega
      have hnext : (s.release e).nextExpected = s.nextExpected + 1 := by rw [← he]; rfl
      rw [if_pos he, Nat.zero_add, he, ← hnext] at hholes
      have ih := ih hholes
      rw [hnext, add_one_add] at ih
      rw [List.map_cons, List.length_cons, idsFrom, ← ih.1, he]
      exact ⟨rfl, ih.2⟩

/-! ### The invariant of the stream -/

variable {k : UInt32} {released arrived : List Message}

/-- Of a stream that starts at `k`: what was released is consecutive, and what arrived apart from it
waits in front of the cursor. -/
structure Arriving (s : StreamOrder) (k : UInt32) (released arrived : List Message) : Prop where
  started : s.started = true
  consecutive : released.map (·.msgId) = idsFrom k released.length
  cursor : s.nextExpected = k + UInt32.ofNat released.length
  waiting : DeliveryQueue.Waiting s
  perm : (released ++ s.held.map Prod.snd).Perm arrived

theorem Arriving.length_eq (h : Arriving s k released arrived) :
    released.length + s.held.length = arrived.length := by
  have hlength := h.perm.length_eq
  rwa [List.length_append, List.length_map] at hlength

/-- The ids behind the cursor are those released. -/
theorem Arriving.behind_iff (h : Arriving s k released arrived)
    (hbound : k.toNat + arrived.length < UInt32.size) {id : UInt32} (hlow : k.toNat ≤ id.toNat) :
    id < s.nextExpected ↔ id ∈ released.map (·.msgId) := by
  have hlength := h.length_eq
  rw [UInt32.lt_iff_toNat_lt, h.cursor, toNat_add_ofNat (by omega), h.consecutive,
    mem_idsFrom (by omega)]
  omega

/-- What is buffered has arrived. -/
theorem Arriving.arrived_of_held (h : Arriving s k released arrived) {e : UInt32 × Message}
    (he : e ∈ s.held) : e.1 ∈ arrived.map (·.msgId) := by
  have hmem : e.2 ∈ arrived :=
    h.perm.mem_iff.mp (List.mem_append_right _ (List.mem_map_of_mem he))
  rw [← (h.waiting e he).2]
  exact List.mem_map_of_mem hmem

theorem Arriving.arrived_of_released (h : Arriving s k released arrived) {id : UInt32}
    (hid : id ∈ released.map (·.msgId)) : id ∈ arrived.map (·.msgId) := by
  rcases List.mem_map.mp hid with ⟨m, hm, rfl⟩
  exact List.mem_map_of_mem (h.perm.mem_iff.mp (List.mem_append_left _ hm))

/-- When all of the ids have arrived, all of the messages are released, in the order of their ids. -/
theorem Arriving.complete {msgs : List Message} (h : Arriving s k released arrived)
    (hperm : arrived.Perm msgs) (hids : msgs.map (·.msgId) = idsFrom k msgs.length)
    (hbound : k.toNat + msgs.length ≤ UInt32.size) : released = msgs ∧ s.held = [] := by
  have hlength := h.length_eq
  rw [hperm.length_eq] at hlength
  have hheld : s.held = [] := by
    by_contra hne
    have hpos := List.length_pos_iff.mpr hne
    have hcursor := h.cursor
    have hnext : s.nextExpected.toNat = k.toNat + released.length := by
      rw [hcursor, toNat_add_ofNat (by omega)]
    have hmem : s.nextExpected ∈ msgs.map (·.msgId) := by
      rw [hids, mem_idsFrom hbound]
      omega
    rcases List.mem_map.mp hmem with ⟨m, hm, hid⟩
    rcases List.mem_append.mp ((h.perm.trans hperm).mem_iff.mpr hm) with hm | hm
    · have hreleased := List.mem_map_of_mem (f := (·.msgId)) hm
      rw [h.consecutive, mem_idsFrom (by omega), hid] at hreleased
      omega
    · rcases List.mem_map.mp hm with ⟨e, he, rfl⟩
      rcases h.waiting e he with ⟨hlt, hkey⟩
      rw [← hkey, hid] at hlt
      exact UInt32.lt_irrefl _ hlt
  have hall := h.perm.trans hperm
  rw [hheld, List.map_nil, List.append_nil] at hall
  have hlen := hall.length_eq
  have hascending : released.Pairwise fun a b => a.msgId < b.msgId := by
    rw [← List.pairwise_map, h.consecutive]
    exact idsFrom_ascending (by omega)
  have hascending' : msgs.Pairwise fun a b => a.msgId < b.msgId := by
    rw [← List.pairwise_map, hids]
    exact idsFrom_ascending hbound
  refine ⟨hall.eq_of_pairwise (fun a b _ _ hab hba => ?_) hascending hascending', hheld⟩
  exact absurd (UInt32.lt_trans hab hba) (UInt32.lt_irrefl _)

end StreamOrder

namespace DeliveryQueue

open StreamOrder

variable {q q' : DeliveryQueue} {msg : Message} {k : UInt32} {out released arrived : List Message}

/-- A message of the stream that has not arrived yet is released with what it completes. -/
theorem offer_completes (h : Arriving (q.entry msg) k released arrived)
    (hdue : msg.msgId = (q.entry msg).nextExpected) :
    ∃ out q', q.offer msg = .ok (out, q') ∧
      Arriving (q'.slot msg.streamId) k (released ++ out) (arrived ++ [msg]) ∧
      q'.gaps = q.gaps ∧ q'.duplicates = q.duplicates := by
  rcases drain_run { q.entry msg with nextExpected := (q.entry msg).nextExpected + 1 } [msg] with
    ⟨run, s', hrun, hreleases, hstuck, hholes⟩
  rcases hreleases.consecutive hholes with ⟨hids, hnext⟩
  have hheld : (q.entry msg).held = run ++ s'.held := hreleases.held_eq
  have hkeyed : ∀ e ∈ run ++ s'.held, e.2.msgId = e.1 := by
    rw [← hheld]
    exact fun e he => (h.waiting e he).2
  have hlength : (released ++ (msg :: run.map Prod.snd)).length = released.length + 1 + run.length := by
    simp only [List.length_append, List.length_cons, List.length_map]
    omega
  refine ⟨msg :: run.map Prod.snd, q.put msg.streamId s', ?_, ?_, rfl, rfl⟩
  · rw [offer_due hdue, hrun]
    rfl
  · rw [slot_put_self]
    constructor
    case started => exact hreleases.started_eq.trans h.started
    case consecutive =>
      rw [hlength, Nat.add_assoc, idsFrom_append, ← h.consecutive, List.map_append, List.map_cons,
        map_msgId_of_keyed fun e he => hkeyed e (List.mem_append_left _ he), hids, hdue, ← h.cursor,
        Nat.add_comm 1, idsFrom]
    case cursor =>
      rw [hnext, hlength, h.cursor, Nat.add_assoc, UInt32.ofNat_add, ← UInt32.add_assoc,
        UInt32.ofNat_add, ← UInt32.add_assoc]
      rfl
    case waiting =>
      have hahead := hreleases.ahead_of_next (fun e he => (h.waiting e he).1) rfl hstuck
      exact fun e he => ⟨hahead e he, hkeyed e (List.mem_append_right _ he)⟩
    case perm =>
      have hperm := h.perm
      rw [hheld, List.map_append] at hperm
      rw [List.append_assoc, List.cons_append]
      exact List.perm_middle.trans ((hperm.cons msg).trans (List.perm_append_singleton msg arrived).symm)

/-- A message ahead of the cursor is buffered, and nothing is forced out if there is room for it. -/
theorem offer_waits (h : Arriving (q.entry msg) k released arrived)
    (hahead : (q.entry msg).nextExpected < msg.msgId) (hnew : msg.msgId ∉ arrived.map (·.msgId))
    (hroom : (q.entry msg).held.length < q.window) :
    ∃ q', q.offer msg = .ok ([], q') ∧
      Arriving (q'.slot msg.streamId) k released (arrived ++ [msg]) ∧
      q'.gaps = q.gaps ∧ q'.duplicates = q.duplicates := by
  have hcontains : (q.entry msg).pending.contains msg.msgId = false := by
    rw [Bool.eq_false_iff]
    intro hcontains
    rcases (contains_iff _ _).mp hcontains with ⟨e, he, heq⟩
    exact hnew (heq ▸ h.arrived_of_held he)
  let s : StreamOrder := { q.entry msg with pending := (q.entry msg).pending.insert msg.msgId msg }
  have hinsert : s.held.Perm ((msg.msgId, msg) :: (q.entry msg).held) := held_insert _ hcontains
  have hsize : s.pending.size ≤ q.window := by
    rw [← StreamOrder.length_held, hinsert.length_eq]
    exact hroom
  refine ⟨q.put msg.streamId s, ?_, ?_, rfl, rfl⟩
  · rw [offer_ahead hahead hcontains]
    simp only [advanceLoop, s, if_pos hsize, bind, Except.bind, pure, Except.pure]
    rfl
  · rw [slot_put_self]
    constructor
    case started => exact h.started
    case consecutive => exact h.consecutive
    case cursor => exact h.cursor
    case waiting =>
      intro e he
      rcases List.mem_cons.mp (hinsert.mem_iff.mp he) with rfl | he
      · exact ⟨hahead, rfl⟩
      · exact h.waiting e he
    case perm =>
      have hmap := (hinsert.map Prod.snd).append_left released
      refine hmap.trans (List.perm_middle.trans ((h.perm.cons msg).trans ?_))
      exact (List.perm_append_singleton msg arrived).symm

/-- Whatever message of the stream arrives next, in a window that has room for all of them: no gap and
no duplicate is counted. -/
theorem offer_arriving (h : Arriving (q.entry msg) k released arrived)
    (hnew : msg.msgId ∉ arrived.map (·.msgId)) (hlow : k.toNat ≤ msg.msgId.toNat)
    (hbound : k.toNat + arrived.length < UInt32.size) (hroom : arrived.length ≤ q.window)
    (hfirst : ∀ m ∈ (arrived ++ [msg]).head?, m.msgId = k) :
    ∃ out q', q.offer msg = .ok (out, q') ∧
      Arriving (q'.slot msg.streamId) k (released ++ out) (arrived ++ [msg]) ∧
      q'.gaps = q.gaps ∧ q'.duplicates = q.duplicates := by
  have hlate : ¬ msg.msgId < (q.entry msg).nextExpected := fun hlate =>
    hnew (h.arrived_of_released ((h.behind_iff hbound hlow).mp hlate))
  by_cases hdue : msg.msgId = (q.entry msg).nextExpected
  · exact offer_completes h hdue
  · have hahead : (q.entry msg).nextExpected < msg.msgId :=
      UInt32.lt_of_le_of_ne (UInt32.not_lt.mp hlate) (Ne.symm hdue)
    have hreleased : released ≠ [] := by
      rintro rfl
      have hcursor : (q.entry msg).nextExpected = k := by rw [h.cursor]; simp
      cases arrived with
      | nil => exact hdue ((hfirst msg rfl).trans hcursor.symm)
      | cons m arrived =>
          have hmem : m ∈ (q.entry msg).held.map Prod.snd := by
            have hm := h.perm.mem_iff.mpr (List.mem_cons_self ..)
            simpa using hm
          rcases List.mem_map.mp hmem with ⟨e, he, rfl⟩
          rcases h.waiting e he with ⟨hlt, hid⟩
          rw [hcursor, ← hid, hfirst e.2 rfl] at hlt
          exact UInt32.lt_irrefl _ hlt
    have hlength := h.length_eq
    have hpos := List.length_pos_iff.mpr hreleased
    rcases offer_waits h hahead hnew (by omega) with ⟨q', hrun, harriving, hcounts⟩
    exact ⟨[], q', hrun, by rwa [List.append_nil], hcounts⟩

/-! ### Runs -/

/-- The messages of one stream. -/
def ofStream (id : UInt16) (ms : List Message) : List Message := ms.filter (·.streamId = id)

theorem ofStream_append (id : UInt16) (ms ms' : List Message) :
    ofStream id (ms ++ ms') = ofStream id ms ++ ofStream id ms' := List.filter_append ..

theorem ofStream_own {id : UInt16} {ms : List Message} (hms : ∀ m ∈ ms, m.streamId = id) :
    ofStream id ms = ms :=
  List.filter_eq_self.mpr fun m hm => decide_eq_true (hms m hm)

theorem ofStream_other {id : UInt16} {ms : List Message} (hms : ∀ m ∈ ms, m.streamId ≠ id) :
    ofStream id ms = [] :=
  List.filter_eq_nil_iff.mpr fun m hm => by simpa using hms m hm

/-- Messages that arrive in this order fit a stream that starts at `k`, without a gap and without a
wrap around of the ids. -/
structure Fits (line : List Message) (k : UInt32) (window : Nat) : Prop where
  nodup : (line.map (·.msgId)).Nodup
  low : ∀ m ∈ line, k.toNat ≤ m.msgId.toNat
  bound : k.toNat + line.length ≤ UInt32.size
  room : line.length ≤ window + 1
  first : ∀ m ∈ line.head?, m.msgId = k

theorem Fits.of_append {line line' : List Message} {window : Nat} (h : Fits (line ++ line') k window) :
    Fits line k window := by
  have hlength : (line ++ line').length = line.length + line'.length := List.length_append
  have hnodup := h.nodup
  rw [List.map_append] at hnodup
  constructor
  case nodup => exact hnodup.of_append_left
  case low => exact fun m hm => h.low m (List.mem_append_left _ hm)
  case bound => exact le_trans (by omega) h.bound
  case room => exact le_trans (by omega) h.room
  case first =>
    cases line with
    | nil => exact nofun
    | cons m line => exact h.first

/-- Where a stream stands, before and behind its first message. -/
def Awaits (s : StreamOrder) (k : UInt32) (released arrived : List Message) : Prop :=
  (s.started = false ∧ s.held = [] ∧ released = [] ∧ arrived = []) ∨ Arriving s k released arrived

theorem Awaits.entry (h : Awaits (q.slot msg.streamId) k released arrived)
    (hfirst : ∀ m ∈ (arrived ++ [msg]).head?, m.msgId = k) :
    Arriving (q.entry msg) k released arrived := by
  rcases h with ⟨hstarted, hempty, rfl, rfl⟩ | h
  · have hid : msg.msgId = k := hfirst msg rfl
    have hheld : (q.entry msg).held = [] := (held_entry q msg).trans hempty
    have hentry : q.entry msg = { q.slot msg.streamId with started := true, nextExpected := msg.msgId } := by
      rcases entry_cases q msg with ⟨htrue, -⟩ | ⟨-, hentry⟩
      · exact absurd (hstarted.symm.trans htrue) Bool.false_ne_true
      · exact hentry
    constructor
    case started => rw [hentry]
    case consecutive => rfl
    case cursor => rw [hentry, hid]; simp
    case waiting => rw [Waiting, hheld]; exact nofun
    case perm => rw [hheld]; exact .nil
  · rw [entry_of_started h.started]
    exact h

/-- An offer to the stream, the next of a line that fits. -/
theorem Awaits.offer (h : Awaits (q.slot msg.streamId) k released arrived)
    (hfits : Fits (arrived ++ [msg]) k q.window) :
    ∃ out q', q.offer msg = .ok (out, q') ∧
      Awaits (q'.slot msg.streamId) k (released ++ out) (arrived ++ [msg]) ∧
      q'.gaps = q.gaps ∧ q'.duplicates = q.duplicates := by
  have hnodup := hfits.nodup
  have hbound := hfits.bound
  have hroom := hfits.room
  rw [List.map_append, List.nodup_append] at hnodup
  rw [List.length_append, List.length_singleton] at hbound hroom
  rcases offer_arriving (h.entry hfits.first)
    (fun hmem => hnodup.2.2 _ hmem _ (List.mem_singleton_self _) rfl)
    (hfits.low msg (List.mem_append_right _ (List.mem_singleton_self msg))) (by omega) (by omega)
    hfits.first with ⟨out, q', hrun, harriving, hcounts⟩
  exact ⟨out, q', hrun, .inr harriving, hcounts⟩

/-- Offers to a stream in an order that fits, among offers to other streams. -/
theorem Awaits.calls {id : UInt16} {todo : List Message} (hq : AllKeyed q)
    (h : Awaits (q.slot id) k released arrived)
    (hfits : Fits (arrived ++ ofStream id todo) k q.window) :
    ∃ out q', q.calls (todo.map .offer) = .ok (out, q') ∧ AllKeyed q' ∧ q'.window = q.window ∧
      Awaits (q'.slot id) k (released ++ ofStream id out) (arrived ++ ofStream id todo) := by
  induction todo generalizing q released arrived with
  | nil => exact ⟨[], q, rfl, hq, rfl, by simpa [ofStream] using h⟩
  | cons m todo ih =>
      rcases call_run q (.offer m) with ⟨out₁, q₁, hcall, hcalls⟩
      have hlocal : Local q m.streamId out₁ q₁ := hcalls.local hq
      have hwindow := hcalls.window_eq
      by_cases hid : m.streamId = id
      · have hcons : ofStream id (m :: todo) = m :: ofStream id todo :=
          List.filter_cons_of_pos (decide_eq_true hid)
        rw [hcons, List.append_cons] at hfits
        subst hid
        rcases h.offer hfits.of_append with ⟨out, q', hoffer, hnext, -⟩
        obtain ⟨rfl, rfl⟩ := Prod.mk.inj (Except.ok.inj (hcall.symm.trans hoffer))
        rcases ih hlocal.keyed hnext (hwindow ▸ hfits) with ⟨out₂, q₂, hrun, hkeyed, hwindow₂, hend⟩
        refine ⟨out₁ ++ out₂, q₂, calls_cons hcall hrun, hkeyed, hwindow₂.trans hwindow, ?_⟩
        rw [hcons, List.append_cons, ofStream_append, ofStream_own hlocal.own, ← List.append_assoc]
        exact hend
      · have hskip : ofStream id (m :: todo) = ofStream id todo :=
          List.filter_cons_of_neg (by simpa using hid)
        have hother : ofStream id out₁ = [] :=
          ofStream_other fun m' hm' heq => hid ((hlocal.own m' hm').symm.trans heq)
        rw [← hlocal.others id (Ne.symm hid)] at h
        rw [hskip] at hfits ⊢
        rcases ih hlocal.keyed h (hwindow ▸ hfits) with ⟨out₂, q₂, hrun, hkeyed, hwindow₂, hend⟩
        refine ⟨out₁ ++ out₂, q₂, calls_cons hcall hrun, hkeyed, hwindow₂.trans hwindow, ?_⟩
        rw [ofStream_append, hother, List.nil_append]
        exact hend

/-- Consecutive ids fit in whatever order they arrive behind the first of them. -/
theorem Fits.of_perm {line msgs : List Message} {window : Nat}
    (hids : msgs.map (·.msgId) = idsFrom k msgs.length) (hroom : msgs.length ≤ window + 1)
    (hbound : k.toNat + msgs.length ≤ UInt32.size) (h : line.Perm msgs) (hfirst : line.head? = msgs.head?) :
    Fits line k window := by
  have hmsgs := h.map (·.msgId)
  rw [hids] at hmsgs
  constructor
  case nodup =>
    exact hmsgs.nodup_iff.mpr ((idsFrom_ascending hbound).imp fun hlt => UInt32.ne_of_lt hlt)
  case low =>
    intro m hm
    exact ((mem_idsFrom hbound).mp (hmsgs.mem_iff.mp (List.mem_map_of_mem hm))).1
  case bound => rwa [h.length_eq]
  case room => rwa [h.length_eq]
  case first =>
    rw [hfirst]
    cases msgs with
    | nil => exact nofun
    | cons m msgs => simpa [idsFrom] using (List.cons.inj hids).1

/-- The messages `k, k + 1, ...` of a stream, at most one more than fit in the window, are released in
the order of their ids, in whatever order they arrive after the first one and whatever is offered to
other streams in between. None of them is counted as a gap or a duplicate. -/
theorem calls_reordered (window : Nat) (id : UInt16) (k : UInt32) (msgs arrivals : List Message)
    (hids : msgs.map (·.msgId) = idsFrom k msgs.length) (hwindow : msgs.length ≤ window + 1)
    (hbound : k.toNat + msgs.length ≤ UInt32.size)
    (harrive : (arrivals.filter (·.streamId = id)).Perm msgs)
    (hfirst : (arrivals.filter (·.streamId = id)).head? = msgs.head?) :
    (∃ out q, (make window).calls (arrivals.map .offer) = .ok (out, q) ∧
      out.filter (·.streamId = id) = msgs ∧ (q.slot id).held = []) ∧
    ∀ before msg rest, arrivals = before ++ msg :: rest → msg.streamId = id →
      ∃ out₁ q₁ out₂ q₂, (make window).calls (before.map .offer) = .ok (out₁, q₁) ∧
        q₁.offer msg = .ok (out₂, q₂) ∧ q₂.gaps = q₁.gaps ∧ q₂.duplicates = q₁.duplicates := by
  have hkeyed := (Accounts.make window).keyed
  have hmake : window ≤ (make window).window := by
    change window ≤ if window = 0 then 1 else window
    split <;> omega
  have hstart : Awaits ((make window).slot id) k [] [] := .inl (by rw [slot_make]; simp; rfl)
  have hfits : Fits (ofStream id arrivals) k (make window).window :=
    .of_perm hids (by omega) hbound harrive hfirst
  constructor
  · rcases hstart.calls hkeyed hfits with ⟨out, q, hrun, -, -, hend⟩
    refine ⟨out, q, hrun, ?_⟩
    rcases hend with ⟨-, hheld, hreleased, hnone⟩ | hend
    · have hnil : msgs = [] := by
        rw [← List.nil_perm]
        exact hnone ▸ harrive
      exact ⟨hreleased.trans hnil.symm, hheld⟩
    · exact hend.complete harrive hids hbound
  · intro before msg rest hsplit hid
    subst hid
    have hown : ofStream msg.streamId arrivals =
        ofStream msg.streamId before ++ [msg] ++ ofStream msg.streamId rest := by
      rw [hsplit, List.append_cons, ofStream_append, ofStream_append,
        @ofStream_own _ [msg] fun m hm => by rw [List.mem_singleton.mp hm]]
    rw [hown] at hfits
    rcases hstart.calls hkeyed hfits.of_append.of_append with
      ⟨out₁, q₁, hrun, -, hwindow₁, hbefore⟩
    rcases hbefore.offer (hwindow₁ ▸ hfits.of_append) with ⟨out₂, q₂, hoffer, -, hcounts⟩
    exact ⟨out₁, q₁, out₂, q₂, hrun, hoffer, hcounts⟩

/-- Ids 5, 7, 6 in a window of two, with a message of another stream among them. -/
theorem calls_reordered_swapped :
    ∃ out q, (make 2).calls ([⟨1, 5, false, [1]⟩, ⟨1, 7, false, [3]⟩, ⟨2, 9, false, []⟩,
        ⟨1, 6, true, [2]⟩].map .offer) = .ok (out, q) ∧
      out.filter (·.streamId = 1) = [⟨1, 5, false, [1]⟩, ⟨1, 6, true, [2]⟩, ⟨1, 7, false, [3]⟩] ∧
      (q.slot 1).held = [] :=
  (calls_reordered 2 1 5 [⟨1, 5, false, [1]⟩, ⟨1, 6, true, [2]⟩, ⟨1, 7, false, [3]⟩]
    [⟨1, 5, false, [1]⟩, ⟨1, 7, false, [3]⟩, ⟨2, 9, false, []⟩, ⟨1, 6, true, [2]⟩]
    (by decide) (by decide) (by decide) (by decide) (by decide)).1

end DeliveryQueue

end Bytewright.Streamcodec
