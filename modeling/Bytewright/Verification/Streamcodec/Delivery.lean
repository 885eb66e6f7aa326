import Bytewright.Library.TreeMap
import Bytewright.Model.Streamcodec.Delivery

/-! # What the delivery queue does with a message -/

namespace Bytewright.Streamcodec

open Bytewright.Common Bytewright.Library

/-! ### Message ids -/

/-- Unless it is the last one, an id is followed by its successor. -/
theorem lt_next_iff {last id : UInt32} (hlast : last + 1 ≠ 0) : id < last + 1 ↔ id ≤ last := by
  have hne : (last + 1).toNat ≠ 0 := fun h => hlast (UInt32.toNat_inj.mp h)
  rw [UInt32.toNat_add] at hne
  have hlt := last.toNat_lt
  rw [UInt32.lt_iff_toNat_lt, UInt32.le_iff_toNat_le, UInt32.toNat_add]
  have hone : (1 : UInt32).toNat = 1 := rfl
  omega

theorem next_le_of_lt {last id : UInt32} (h : last < id) : last + 1 ≤ id := by
  have h := UInt32.lt_iff_toNat_lt.mp h
  have hlt := id.toNat_lt
  rw [UInt32.le_iff_toNat_le, UInt32.toNat_add]
  have hone : (1 : UInt32).toNat = 1 := rfl
  omega

/-- The successor of the largest id is zero. -/
theorem le_of_next_eq_zero {last : UInt32} (h : last + 1 = 0) (id : UInt32) : id ≤ last := by
  have h := congrArg UInt32.toNat h
  rw [UInt32.toNat_add] at h
  have hlt := id.toNat_lt
  rw [UInt32.le_iff_toNat_le]
  have hone : (1 : UInt32).toNat = 1 := rfl
  have hzero : (0 : UInt32).toNat = 0 := rfl
  omega

/-! ### The buffer of one stream -/

namespace StreamOrder

variable {s s' s'' : StreamOrder} {e : UInt32 × Message} {l run run' : List (UInt32 × Message)}

/-- What is buffered, lowest id first. -/
def held (s : StreamOrder) : List (UInt32 × Message) := s.pending.toList

theorem held_sorted (s : StreamOrder) : s.held.Pairwise (fun a b => a.1 < b.1) :=
  s.pending.ordered_keys_toList.imp fun h => compareOfLessAndEq_eq_lt.mp h

theorem length_held (s : StreamOrder) : s.held.length = s.pending.size :=
  Std.ExtTreeMap.length_toList

theorem contains_iff (s : StreamOrder) (id : UInt32) :
    s.pending.contains id = true ↔ ∃ e ∈ s.held, e.1 = id := by
  rw [Std.ExtTreeMap.contains_iff_mem, ← Std.ExtTreeMap.mem_keys,
    ← Std.ExtTreeMap.map_fst_toList_eq_keys, List.mem_map]
  rfl

/-- Release the entry `e`: it leaves the buffer and the cursor moves behind it. -/
def release (s : StreamOrder) (e : UInt32 × Message) : StreamOrder :=
  { s with nextExpected := e.1 + 1, pending := s.pending.erase e.1 }

theorem held_release (h : s.held = e :: l) : (s.release e).held = l := toList_erase_first h

theorem length_held_release (h : s.held = e :: l) : (s.release e).held.length < s.held.length := by
  rw [held_release h, h]
  exact Nat.lt_succ_self l.length

/-- The entries of `run` are released one after the other, each being the lowest of its turn. -/
inductive Releases : StreamOrder → List (UInt32 × Message) → StreamOrder → Prop where
  | nil (s : StreamOrder) : Releases s [] s
  | cons {s s' : StreamOrder} {e l run} (h : s.held = e :: l) (hrun : Releases (s.release e) run s') :
      Releases s (e :: run) s'

theorem Releases.append (h : Releases s run s') (h' : Releases s' run' s'') :
    Releases s (run ++ run') s'' := by
  induction h with
  | nil s => exact h'
  | cons hhead _ ih => exact .cons hhead (ih h')

/-- What is released is the front of the buffer. -/
theorem Releases.held_eq (h : Releases s run s') : s.held = run ++ s'.held := by
  induction h with
  | nil s => rfl
  | cons hhead _ ih => rw [hhead, List.cons_append, ← ih, held_release hhead]

theorem Releases.started_eq (h : Releases s run s') : s'.started = s.started := by
  induction h with
  | nil s => rfl
  | cons _ _ ih => exact ih

/-- The cursor is behind the last entry released. -/
theorem Releases.next_eq (h : Releases s run s') :
    s'.nextExpected = (run.getLast?.map (·.1 + 1)).getD s.nextExpected := by
  induction h with
  | nil s => rfl
  | @cons s s' e l run _ _ ih =>
      rw [ih, List.getLast?_cons]
      cases run.getLast? <;> rfl

/-- A drain would find nothing to release. -/
def Stuck (s : StreamOrder) : Prop := ∀ e ∈ s.held.head?, e.1 ≠ s.nextExpected

/-- With everything buffered beyond `last` and the cursor behind `last`, a stuck stream has its
cursor in front of the buffer. -/
theorem ahead_of_stuck {last : UInt32} (hlast : ∀ e ∈ s.held, last < e.1)
    (hnext : s.nextExpected = last + 1) (hstuck : s.Stuck) : ∀ e ∈ s.held, s.nextExpected < e.1 := by
  have hsorted := s.held_sorted
  cases hheld : s.held with
  | nil => exact nofun
  | cons first l =>
      rw [hheld] at hsorted hlast
      have hne : first.1 ≠ s.nextExpected := hstuck first (by rw [hheld]; rfl)
      have hle : s.nextExpected ≤ first.1 := by
        rw [hnext]
        exact next_le_of_lt (hlast first (List.mem_cons_self ..))
      have hfirst : s.nextExpected < first.1 := UInt32.lt_of_le_of_ne hle hne.symm
      intro e he
      obtain rfl | he := List.mem_cons.mp he
      · exact hfirst
      · exact UInt32.lt_trans hfirst (List.rel_of_pairwise_cons hsorted he)

/-- Behind what was released, a stuck stream has its cursor in front of the buffer. -/
theorem Releases.ahead (h : Releases s run s') (hne : run ≠ []) (hstuck : s'.Stuck) :
    ∀ e ∈ s'.held, s'.nextExpected < e.1 := by
  have hlast := List.getLast?_eq_some_getLast hne
  have hsorted := s.held_sorted
  rw [h.held_eq, List.pairwise_append] at hsorted
  refine ahead_of_stuck (fun e he => hsorted.2.2 _ (List.getLast_mem hne) e he) ?_ hstuck
  rw [h.next_eq, hlast]
  rfl

/-- The same if nothing was released, and the cursor was behind `last`. -/
theorem Releases.ahead_of_next {last : UInt32} (h : Releases s run s')
    (hlast : ∀ e ∈ s.held, last < e.1) (hnext : s.nextExpected = last + 1) (hstuck : s'.Stuck) :
    ∀ e ∈ s'.held, s'.nextExpected < e.1 := by
  cases run with
  | nil =>
      cases h with
      | nil => exact ahead_of_stuck hlast hnext hstuck
  | cons e run => exact h.ahead (List.cons_ne_nil _ _) hstuck

/-- A cursor next to the last id released stays there. -/
theorem Releases.cursor {released : List UInt32} (h : Releases s run s')
    (hcursor : ∀ last ∈ released.getLast?, s.nextExpected = last + 1) :
    ∀ last ∈ (released ++ run.map Prod.fst).getLast?, s'.nextExpected = last + 1 := by
  intro last hlast
  rw [Option.mem_def, List.getLast?_append, List.getLast?_map] at hlast
  rw [h.next_eq]
  cases hrun : run.getLast? with
  | none =>
      rw [hrun] at hlast
      exact hcursor last hlast
  | some e =>
      rw [hrun] at hlast
      rw [← Option.some.inj hlast]
      rfl

/-- How often a sequence of ids steps past the id that is due, which is `next` at first. -/
def holes (next : UInt32) : List UInt32 → Nat
  | [] => 0
  | id :: ids => (if id = next then 0 else 1) + holes (id + 1) ids

theorem holes_append (next : UInt32) (ids ids' : List UInt32) :
    holes next (ids ++ ids') = holes next ids + holes ((ids.getLast?.map (· + 1)).getD next) ids' := by
  induction ids generalizing next with
  | nil => simp [holes]
  | cons id ids ih =>
      rw [List.cons_append, holes, holes, ih, Nat.add_assoc, List.getLast?_cons]
      cases ids.getLast? <;> rfl

theorem Releases.holes_append (h : Releases s run s') (next : UInt32) (hne : run ≠ [])
    (ids : List UInt32) :
    holes next (run.map Prod.fst ++ ids) =
      holes next (run.map Prod.fst) + holes s'.nextExpected ids := by
  rw [StreamOrder.holes_append, h.next_eq, List.getLast?_map,
    List.getLast?_eq_some_getLast hne]
  rfl

/-- A drain releases what is contiguous with the cursor, and no more. -/
theorem drainLoop_run (fuel : Nat) (s : StreamOrder) (out : List Message)
    (hfuel : s.held.length < fuel) :
    ∃ run s', drainLoop fuel s out = .ok (s', out ++ run.map Prod.snd) ∧
      Releases s run s' ∧ s'.Stuck ∧ holes s.nextExpected (run.map Prod.fst) = 0 := by
  induction fuel generalizing s out with
  | zero => exact absurd hfuel (Nat.not_lt_zero _)
  | succ fuel ih =>
      rw [drainLoop]
      cases hheld : s.held with
      | nil =>
          have hhead : s.pending.toList.head? = none := congrArg List.head? hheld
          refine ⟨[], s, by rw [hhead, List.map_nil, List.append_nil]; rfl, .nil s, ?_, rfl⟩
          simp [Stuck, hheld]
      | cons e l =>
          have hhead : s.pending.toList.head? = some e := congrArg List.head? hheld
          rw [hhead]
          by_cases hnext : e.1 = s.nextExpected
          · have hrelease : s.release e =
                { s with nextExpected := s.nextExpected + 1, pending := s.pending.erase e.1 } := by
              rw [release, hnext]
            have hlength : (s.release e).held.length < fuel :=
              (length_held_release hheld).trans_le (Nat.le_of_lt_succ hfuel)
            obtain ⟨run, s', hrun, hreleases, hstuck, hholes⟩ := ih (s.release e) (out ++ [e.2]) hlength
            refine ⟨e :: run, s', ?_, .cons hheld hreleases, hstuck, ?_⟩
            · rw [hrelease] at hrun
              simpa [hnext] using hrun
            · rw [List.map_cons, holes, if_pos hnext, Nat.zero_add]
              exact hholes
          · refine ⟨[], s, by simp [hnext, pure, Except.pure], .nil s, ?_, rfl⟩
            intro e' he'
            rw [hheld, List.head?_cons, Option.mem_some_iff] at he'
            rwa [← he']

theorem drain_run (s : StreamOrder) (out : List Message) :
    ∃ run s', drain s out = .ok (s', out ++ run.map Prod.snd) ∧
      Releases s run s' ∧ s'.Stuck ∧ holes s.nextExpected (run.map Prod.fst) = 0 :=
  drainLoop_run _ s out (by rw [length_held]; exact Nat.lt_succ_self _)

/-- With the cursor on the lowest buffered id, a drain releases at least that message. If the cursor
was not there before, it skips one hole. -/
theorem drain_lowest (hheld : s.held = e :: l) (out : List Message) :
    ∃ run s', drain { s with nextExpected := e.1 } out = .ok (s', out ++ run.map Prod.snd) ∧
      run ≠ [] ∧ Releases s run s' ∧ s'.Stuck ∧
      holes s.nextExpected (run.map Prod.fst) = if e.1 = s.nextExpected then 0 else 1 := by
  obtain ⟨run, s', hrun, hreleases, hstuck, hholes⟩ := drain_run { s with nextExpected := e.1 } out
  cases hreleases with
  | nil => exact absurd rfl (hstuck e (by change s.held.head? = some e; rw [hheld]; rfl))
  | @cons _ _ e' l' run hhead hrest =>
      have he : e' = e := (List.cons.inj (hhead.symm.trans hheld)).1
      refine ⟨e' :: run, s', hrun, List.cons_ne_nil _ _, .cons hhead hrest, hstuck, ?_⟩
      rw [List.map_cons, holes, he, if_pos rfl, Nat.zero_add] at hholes
      rw [List.map_cons, holes, he, hholes, Nat.add_zero]

/-- What the loop that holds a stream to its window releases. Each hole it skips counts as a gap. -/
theorem advanceLoop_run (window fuel : Nat) (s : StreamOrder) (gaps : UInt64) (out : List Message)
    (hfuel : s.held.length < fuel) :
    ∃ run s' gaps', advanceLoop window fuel s gaps out = .ok (s', gaps', out ++ run.map Prod.snd) ∧
      Releases s run s' ∧ s'.held.length ≤ window ∧ (run = [] ∨ s'.Stuck) ∧
      ((∀ e ∈ s.held, s.nextExpected < e.1) →
        gaps' = gaps + UInt64.ofNat (holes s.nextExpected (run.map Prod.fst))) := by
  induction fuel generalizing s gaps out with
  | zero => exact absurd hfuel (Nat.not_lt_zero _)
  | succ fuel ih =>
      rw [advanceLoop]
      by_cases hsize : s.pending.size ≤ window
      · refine ⟨[], s, gaps, ?_, .nil s, by rwa [length_held], .inl rfl, fun _ => (UInt64.add_zero _).symm⟩
        simp [hsize, pure, Except.pure]
      · cases hheld : s.held with
        | nil =>
            have hlength := s.length_held
            rw [hheld, List.length_nil] at hlength
            omega
        | cons e l =>
            have hhead : s.pending.toList.head? = some e := congrArg List.head? hheld
            obtain ⟨run, s₁, hrun, hne, hreleases, hstuck, hholes⟩ := drain_lowest hheld out
            have hlength : s₁.held.length < fuel := by
              have hsplit := congrArg List.length hreleases.held_eq
              have hpos := List.length_pos_iff.mpr hne
              rw [List.length_append] at hsplit
              omega
            obtain ⟨run', s', gaps', hrun', hreleases', hwindow, hstuck', hgaps⟩ :=
              ih s₁ (if e.1 > s.nextExpected then gaps + 1 else gaps) (out ++ run.map Prod.snd) hlength
            refine ⟨run ++ run', s', gaps', ?_, hreleases.append hreleases', hwindow, .inr ?_,
              fun hahead => ?_⟩
            · simp only [hsize, if_false, hhead, hrun, bind, Except.bind, List.map_append,
                ← List.append_assoc]
              exact hrun'
            · obtain rfl | hstuck' := hstuck'
              · cases hreleases' with
                | nil => exact hstuck
              · exact hstuck'
            · have hlt : s.nextExpected < e.1 := hahead e (List.mem_cons_self ..)
              rw [hgaps (hreleases.ahead hne hstuck), if_pos hlt, List.map_append,
                hreleases.holes_append _ hne, hholes, if_neg (UInt32.ne_of_lt hlt).symm,
                UInt64.ofNat_add, UInt64.add_assoc]
              rfl

/-- What a flush releases. Each hole it skips counts as a gap. -/
theorem flushLoop_run (fuel : Nat) (s : StreamOrder) (gaps : UInt64) (out : List Message)
    (hfuel : s.held.length < fuel) :
    ∃ run s' gaps', flushLoop fuel s gaps out = .ok (s', gaps', out ++ run.map Prod.snd) ∧
      Releases s run s' ∧ s'.held = [] ∧
      ((∀ e ∈ s.held, s.nextExpected ≤ e.1) →
        gaps' = gaps + UInt64.ofNat (holes s.nextExpected (run.map Prod.fst))) := by
  induction fuel generalizing s gaps out with
  | zero => exact absurd hfuel (Nat.not_lt_zero _)
  | succ fuel ih =>
      rw [flushLoop]
      cases hheld : s.held with
      | nil =>
          have hhead : s.pending.toList.head? = none := congrArg List.head? hheld
          refine ⟨[], s, gaps, ?_, .nil s, hheld, fun _ => (UInt64.add_zero _).symm⟩
          rw [hhead, List.map_nil, List.append_nil]
          rfl
      | cons e l =>
          have hhead : s.pending.toList.head? = some e := congrArg List.head? hheld
          have hlength : (s.release e).held.length < fuel :=
            (length_held_release hheld).trans_le (Nat.le_of_lt_succ hfuel)
          obtain ⟨run, s', gaps', hrun, hreleases, hempty, hgaps⟩ :=
            ih (s.release e) (if e.1 > s.nextExpected then gaps + 1 else gaps) (out ++ [e.2]) hlength
          refine ⟨e :: run, s', gaps', ?_, .cons hheld hreleases, hempty, fun hbelow => ?_⟩
          · rw [hhead]
            simpa [release] using hrun
          · have hsorted := s.held_sorted
            rw [hheld] at hsorted
            have hnext : ∀ e' ∈ (s.release e).held, (s.release e).nextExpected ≤ e'.1 := by
              intro e' he'
              rw [held_release hheld] at he'
              exact next_le_of_lt (List.rel_of_pairwise_cons hsorted he')
            rw [hgaps hnext, List.map_cons, holes, UInt64.ofNat_add, ← UInt64.add_assoc]
            congr 1
            by_cases heq : e.1 = s.nextExpected
            · simp [heq]
            · have hlt := UInt32.lt_of_le_of_ne (hbelow e (List.mem_cons_self ..)) (Ne.symm heq)
              simp [heq, hlt]

/-- A message that is not buffered yet joins what is. -/
theorem held_insert (s : StreamOrder) {msg : Message} (h : s.pending.contains msg.msgId = false) :
    ({ s with pending := s.pending.insert msg.msgId msg } : StreamOrder).held.Perm
      ((msg.msgId, msg) :: s.held) := by
  have habsent : ∀ e ∈ s.held, decide (e.1 ≠ msg.msgId) = true := by
    intro e he
    rw [decide_eq_true_eq]
    intro heq
    exact Bool.false_ne_true (h.symm.trans ((s.contains_iff _).mpr ⟨e, he, heq⟩))
  have hperm := toList_insert_perm s.pending msg.msgId msg
  have hkeep : (s.pending.erase msg.msgId).toList = s.held :=
    (toList_erase _ _).trans (List.filter_eq_self.mpr habsent)
  rwa [hkeep] at hperm

end StreamOrder

/-! ### Calls -/

namespace DeliveryQueue

variable {q q' : DeliveryQueue} {msg : Message} {out : List Message}

/-- What an offer can do, from the entry `q.entry msg` on. -/
inductive Offers (q : DeliveryQueue) (msg : Message) : List Message → DeliveryQueue → Prop where
  | late (h : msg.msgId < (q.entry msg).nextExpected) :
      Offers q msg [] { q.put msg.streamId (q.entry msg) with duplicates := q.duplicates + 1 }
  | due {run s'} (h : msg.msgId = (q.entry msg).nextExpected)
      (hrun : StreamOrder.Releases
        { q.entry msg with nextExpected := (q.entry msg).nextExpected + 1 } run s')
      (hstuck : s'.Stuck) :
      Offers q msg (msg :: run.map Prod.snd) (q.put msg.streamId s')
  | repeated (h : (q.entry msg).nextExpected < msg.msgId)
      (hheld : (q.entry msg).pending.contains msg.msgId = true) :
      Offers q msg [] { q.put msg.streamId (q.entry msg) with duplicates := q.duplicates + 1 }
  | ahead {run s' gaps} (h : (q.entry msg).nextExpected < msg.msgId)
      (hheld : (q.entry msg).pending.contains msg.msgId = false)
      (hrun : StreamOrder.Releases
        { q.entry msg with pending := (q.entry msg).pending.insert msg.msgId msg } run s')
      (hwindow : s'.held.length ≤ q.window) (hstuck : run = [] ∨ s'.Stuck) :
      Offers q msg (run.map Prod.snd) { q.put msg.streamId s' with gaps }

/-- In front of every id buffered stands the cursor, and each message is buffered under its id. -/
def Waiting (s : StreamOrder) : Prop := ∀ e ∈ s.held, s.nextExpected < e.1 ∧ e.2.msgId = e.1

theorem map_msgId_of_keyed {run : List (UInt32 × Message)} (hrun : ∀ e ∈ run, e.2.msgId = e.1) :
    (run.map Prod.snd).map (·.msgId) = run.map Prod.fst := by
  rw [List.map_map]
  exact List.map_congr_left hrun

/-- An offer at the cursor. -/
theorem offer_due (h : msg.msgId = (q.entry msg).nextExpected) :
    q.offer msg = (do
      let (s, out) ← { q.entry msg with nextExpected := (q.entry msg).nextExpected + 1 }.drain [msg]
      return (out, q.put msg.streamId s)) := by
  simp [offer, h]

/-- An offer ahead of the cursor, of an id that is not buffered. -/
theorem offer_ahead (h : (q.entry msg).nextExpected < msg.msgId)
    (hnew : (q.entry msg).pending.contains msg.msgId = false) :
    q.offer msg = (do
      let s := { q.entry msg with pending := (q.entry msg).pending.insert msg.msgId msg }
      let (s, gaps, out) ← s.advanceLoop q.window (s.pending.size + 1) q.gaps []
      return (out, { q.put msg.streamId s with gaps })) := by
  have hlate : ¬ msg.msgId < (q.entry msg).nextExpected := fun h' =>
    UInt32.lt_irrefl _ (UInt32.lt_trans h h')
  have hdue : msg.msgId ≠ (q.entry msg).nextExpected := (UInt32.ne_of_lt h).symm
  simp only [offer, hlate, hdue, hnew, if_false, Bool.false_eq_true]

/-- An offer always returns, its two loops included, and counts the holes it skips. -/
theorem offer_spec (q : DeliveryQueue) (msg : Message) :
    ∃ out q', q.offer msg = .ok (out, q') ∧ Offers q msg out q' ∧
      (Waiting (q.entry msg) → q'.gaps = q.gaps +
        UInt64.ofNat (StreamOrder.holes (q.entry msg).nextExpected (out.map (·.msgId)))) := by
  have hzero : q.gaps = q.gaps + UInt64.ofNat 0 := (UInt64.add_zero _).symm
  by_cases hlate : msg.msgId < (q.entry msg).nextExpected
  · exact ⟨_, _, by simp [offer, hlate, pure, Except.pure], .late hlate, fun _ => hzero⟩
  · by_cases hdue : msg.msgId = (q.entry msg).nextExpected
    · obtain ⟨run, s', hrun, hreleases, hstuck, hholes⟩ := StreamOrder.drain_run
        { q.entry msg with nextExpected := (q.entry msg).nextExpected + 1 } [msg]
      refine ⟨_, _, ?_, .due hdue hreleases hstuck, fun hwaiting => ?_⟩
      · rw [offer_due hdue, hrun]
        rfl
      · have hkeyed : ∀ e ∈ run, e.2.msgId = e.1 := fun e he =>
          (hwaiting e (hreleases.held_eq.symm ▸ List.mem_append_left _ he)).2
        rw [List.map_cons, map_msgId_of_keyed hkeyed, StreamOrder.holes, if_pos hdue, hdue, hholes]
        exact hzero
    · have hahead : (q.entry msg).nextExpected < msg.msgId :=
        UInt32.lt_of_le_of_ne (UInt32.not_lt.mp hlate) (Ne.symm hdue)
      cases hheld : (q.entry msg).pending.contains msg.msgId with
      | true =>
          refine ⟨_, _, ?_, .repeated hahead hheld, fun _ => hzero⟩
          simp [offer, hlate, hdue, hheld, pure, Except.pure]
      | false =>
          let s : StreamOrder :=
            { q.entry msg with pending := (q.entry msg).pending.insert msg.msgId msg }
          obtain ⟨run, s', gaps', hrun, hreleases, hwindow, hstuck, hgaps⟩ :=
            s.advanceLoop_run q.window (s.pending.size + 1) q.gaps []
              (by rw [s.length_held]; exact Nat.lt_succ_self _)
          refine ⟨_, _, ?_, @Offers.ahead _ _ _ _ gaps' hahead hheld hreleases hwindow hstuck,
            fun hwaiting => ?_⟩
          · simp only [offer_ahead hahead hheld, bind, Except.bind]
            rw [show StreamOrder.advanceLoop _ _ _ _ _ = _ from hrun]
            rfl
          · have hwaits : ∀ e ∈ s.held, s.nextExpected < e.1 ∧ e.2.msgId = e.1 := by
              intro e he
              rcases List.mem_cons.mp ((StreamOrder.held_insert _ hheld).mem_iff.mp he) with rfl | he
              · exact ⟨hahead, rfl⟩
              · exact hwaiting e he
            have hkeyed : ∀ e ∈ run, e.2.msgId = e.1 := fun e he =>
              (hwaits e (hreleases.held_eq.symm ▸ List.mem_append_left _ he)).2
            rw [map_msgId_of_keyed hkeyed]
            exact hgaps fun e he => (hwaits e he).1

theorem offer_run (q : DeliveryQueue) (msg : Message) :
    ∃ out q', q.offer msg = .ok (out, q') ∧ Offers q msg out q' := by
  obtain ⟨out, q', hrun, h, -⟩ := offer_spec q msg
  exact ⟨out, q', hrun, h⟩

/-- What a flush can do. -/
inductive Flushes (q : DeliveryQueue) (streamId : UInt16) :
    List Message → DeliveryQueue → Prop where
  | unknown (h : q.streams[streamId]? = none) : Flushes q streamId [] q
  | flushed {s run s' gaps} (h : q.streams[streamId]? = some s)
      (hrun : StreamOrder.Releases s run s') (hempty : s'.held = []) :
      Flushes q streamId (run.map Prod.snd) { q.put streamId s' with gaps }

/-- The buffer of one stream, as an unknown stream has it. -/
def slot (q : DeliveryQueue) (streamId : UInt16) : StreamOrder := q.streams.getD streamId {}

theorem slot_eq_of_getElem? {streamId : UInt16} {s : StreamOrder} (h : q.streams[streamId]? = some s) :
    q.slot streamId = s := by
  rw [slot, Std.ExtTreeMap.getD_eq_getD_getElem?, h, Option.getD_some]

theorem slot_eq_of_none {streamId : UInt16} (h : q.streams[streamId]? = none) : q.slot streamId = {} := by
  rw [slot, Std.ExtTreeMap.getD_eq_getD_getElem?, h, Option.getD_none]

theorem slot_make (window : Nat) (streamId : UInt16) : (make window).slot streamId = {} :=
  slot_eq_of_none Std.ExtTreeMap.getElem?_empty

/-- A flush always returns, and counts the holes it skips. -/
theorem flushStream_spec (q : DeliveryQueue) (streamId : UInt16) :
    ∃ out q', q.flushStream streamId = .ok (out, q') ∧ Flushes q streamId out q' ∧
      (Waiting (q.slot streamId) → q'.gaps = q.gaps +
        UInt64.ofNat (StreamOrder.holes (q.slot streamId).nextExpected (out.map (·.msgId)))) := by
  rw [flushStream]
  cases hs : q.streams[streamId]? with
  | none => exact ⟨_, _, rfl, .unknown hs, fun _ => (UInt64.add_zero _).symm⟩
  | some s =>
      obtain ⟨run, s', gaps', hrun, hreleases, hempty, hgaps⟩ :=
        s.flushLoop_run (s.pending.size + 1) q.gaps []
          (by rw [s.length_held]; exact Nat.lt_succ_self _)
      refine ⟨_, _, ?_, @Flushes.flushed _ _ _ _ _ gaps' hs hreleases hempty, fun hwaiting => ?_⟩
      · simp only [hrun, bind, Except.bind]
        rfl
      · rw [slot_eq_of_getElem? hs] at hwaiting ⊢
        have hkeyed : ∀ e ∈ run, e.2.msgId = e.1 := fun e he =>
          (hwaiting e (hreleases.held_eq.symm ▸ List.mem_append_left _ he)).2
        rw [map_msgId_of_keyed hkeyed]
        exact hgaps fun e he => UInt32.le_of_lt (hwaiting e he).1

theorem flushStream_run (q : DeliveryQueue) (streamId : UInt16) :
    ∃ out q', q.flushStream streamId = .ok (out, q') ∧ Flushes q streamId out q' := by
  obtain ⟨out, q', hrun, h, -⟩ := flushStream_spec q streamId
  exact ⟨out, q', hrun, h⟩

inductive Call where
  | offer (msg : Message)
  | flushStream (streamId : UInt16)
  deriving DecidableEq, Repr

def call (q : DeliveryQueue) : Call → Outcome (List Message × DeliveryQueue)
  | .offer msg => q.offer msg
  | .flushStream streamId => q.flushStream streamId

/-- The messages released by a sequence of calls, and the queue behind it. -/
def calls (q : DeliveryQueue) : List Call → Outcome (List Message × DeliveryQueue)
  | [] => return ([], q)
  | c :: cs => do
    let (out, q) ← q.call c
    let (out', q) ← q.calls cs
    return (out ++ out', q)

def Call.offered : Call → List Message
  | offer msg => [msg]
  | flushStream _ => []

/-- What a call can do. -/
inductive Calls (q : DeliveryQueue) : Call → List Message → DeliveryQueue → Prop where
  | offer {m released r} (h : Offers q m released r) : Calls q (.offer m) released r
  | flushStream {streamId released r} (h : Flushes q streamId released r) :
      Calls q (.flushStream streamId) released r

theorem call_run (q : DeliveryQueue) (c : Call) :
    ∃ out q', q.call c = .ok (out, q') ∧ Calls q c out q' := by
  cases c with
  | offer msg =>
      obtain ⟨out, q', hrun, h⟩ := offer_run q msg
      exact ⟨out, q', hrun, .offer h⟩
  | flushStream streamId =>
      obtain ⟨out, q', hrun, h⟩ := flushStream_run q streamId
      exact ⟨out, q', hrun, .flushStream h⟩

theorem calls_cons {c : Call} {cs : List Call} {out' : List Message} {q'' : DeliveryQueue}
    (h : q.call c = .ok (out, q')) (h' : q'.calls cs = .ok (out', q'')) :
    q.calls (c :: cs) = .ok (out ++ out', q'') := by
  simp only [calls, h, h', bind, Except.bind]
  rfl

theorem calls_returns (q : DeliveryQueue) (cs : List Call) : ∃ out q', q.calls cs = .ok (out, q') := by
  induction cs generalizing q with
  | nil => exact ⟨[], q, rfl⟩
  | cons c cs ih =>
      obtain ⟨out, q₁, hrun, -⟩ := call_run q c
      obtain ⟨out', q', hrun'⟩ := ih q₁
      exact ⟨_, _, calls_cons hrun hrun'⟩

/-! ### Where every message is -/

/-- The messages buffered. -/
def held (q : DeliveryQueue) : List Message :=
  q.streams.toList.flatMap fun entry => entry.2.held.map Prod.snd

theorem length_held (q : DeliveryQueue) : q.held.length = q.buffered := by
  have hfold : ∀ (l : List (UInt16 × StreamOrder)) (n : Nat),
      n + (l.flatMap fun entry => entry.2.held.map Prod.snd).length =
        l.foldl (fun n entry => n + entry.2.pending.size) n := by
    intro l
    induction l with
    | nil => exact fun n => Nat.add_zero n
    | cons entry l ih =>
        intro n
        rw [List.foldl_cons, ← ih, List.flatMap_cons, List.length_append, List.length_map,
          StreamOrder.length_held, Nat.add_assoc]
  have h := hfold q.streams.toList 0
  rwa [Nat.zero_add] at h

/-- Changing the entry of a stream exchanges its buffered messages for those of the new entry. -/
theorem held_put (q : DeliveryQueue) (streamId : UInt16) :
    ∃ rest, q.held.Perm ((q.slot streamId).held.map Prod.snd ++ rest) ∧
      ∀ s', (q.put streamId s').held.Perm (s'.held.map Prod.snd ++ rest) := by
  let messages (entry : UInt16 × StreamOrder) : List Message := entry.2.held.map Prod.snd
  refine ⟨(q.streams.erase streamId).toList.flatMap messages, ?_,
    fun s' => (toList_insert_perm q.streams streamId s').flatMap_right messages⟩
  have hperm := (toList_erase_perm q.streams streamId).flatMap_right messages
  rw [List.flatMap_append] at hperm
  rw [slot, Std.ExtTreeMap.getD_eq_getD_getElem?]
  cases hs : q.streams[streamId]? with
  | none =>
      rw [hs] at hperm
      exact hperm
  | some s =>
      rw [hs] at hperm
      simpa [held, messages] using hperm

theorem held_entry (q : DeliveryQueue) (msg : Message) :
    (q.entry msg).held = (q.slot msg.streamId).held := by
  unfold entry
  dsimp only
  split <;> rfl

/-- What is released, buffered and dropped behind a call is what was buffered and offered before. -/
theorem Calls.conserves {c : Call} (h : Calls q c out q') :
    ∃ dropped, (out ++ (q'.held ++ dropped)).Perm (c.offered ++ q.held) ∧
      q'.duplicates = q.duplicates + UInt64.ofNat dropped.length := by
  have hdrop : ∀ msg : Message,
      ([] ++ ((q.put msg.streamId (q.entry msg)).held ++ [msg])).Perm ([msg] ++ q.held) := by
    intro msg
    obtain ⟨rest, hq, hput⟩ := held_put q msg.streamId
    have hsame := hput (q.entry msg)
    rw [held_entry] at hsame
    exact ((hsame.trans hq.symm).append_right [msg]).trans List.perm_append_comm
  have hzero : q.duplicates = q.duplicates + UInt64.ofNat ([] : List Message).length :=
    (UInt64.add_zero _).symm
  cases h with
  | offer h =>
      rename_i msg
      cases h with
      | late h => exact ⟨[msg], hdrop msg, rfl⟩
      | repeated h hheld => exact ⟨[msg], hdrop msg, rfl⟩
      | @due run s' h hrun hstuck =>
          obtain ⟨rest, hq, hput⟩ := held_put q msg.streamId
          have hheld : (q.slot msg.streamId).held = run ++ s'.held :=
            (held_entry q msg).symm.trans hrun.held_eq
          refine ⟨[], ?_, hzero⟩
          rw [hheld, List.map_append, List.append_assoc] at hq
          rw [List.append_nil, List.cons_append]
          exact (((hput s').append_left _).trans hq.symm).cons msg
      | @ahead run s' gaps h hheld hrun hwindow hstuck =>
          obtain ⟨rest, hq, hput⟩ := held_put q msg.streamId
          have hinsert := StreamOrder.held_insert (q.entry msg) hheld
          rw [hrun.held_eq, held_entry] at hinsert
          have hmap := (hinsert.map Prod.snd).append_right rest
          rw [List.map_append, List.append_assoc] at hmap
          refine ⟨[], ?_, hzero⟩
          rw [List.append_nil]
          exact (((hput s').append_left _).trans hmap).trans (hq.symm.cons msg)
  | flushStream h =>
      rename_i streamId
      cases h with
      | unknown h => exact ⟨[], by simp [Call.offered], hzero⟩
      | @flushed s run s' gaps h hrun hempty =>
          obtain ⟨rest, hq, hput⟩ := held_put q streamId
          rw [slot_eq_of_getElem? h, hrun.held_eq, List.map_append, List.append_assoc] at hq
          refine ⟨[], ?_, hzero⟩
          rw [List.append_nil]
          exact ((hput s').append_left _).trans hq.symm

/-- The buffer bound of every stream. -/
def Bounded (q : DeliveryQueue) : Prop :=
  ∀ (streamId : UInt16) (s : StreamOrder), q.streams[streamId]? = some s → s.pending.size ≤ q.window

theorem Calls.window_eq {c : Call} (h : Calls q c out q') : q'.window = q.window := by
  cases h with
  | offer h => cases h <;> rfl
  | flushStream h => cases h <;> rfl

theorem Bounded.put (h : Bounded q) {streamId : UInt16} {s' : StreamOrder}
    (hs' : s'.pending.size ≤ q.window) : Bounded (q.put streamId s') := by
  intro id s hs
  change (q.streams.insert streamId s')[id]? = some s at hs
  rw [getElem?_insert_eq] at hs
  split at hs
  · cases hs
    exact hs'
  · exact h id s hs

theorem Bounded.slot (h : Bounded q) (streamId : UInt16) :
    (q.slot streamId).pending.size ≤ q.window := by
  rw [DeliveryQueue.slot, Std.ExtTreeMap.getD_eq_getD_getElem?]
  cases hs : q.streams[streamId]? with
  | none => exact Nat.zero_le _
  | some s => exact h streamId s hs

theorem Calls.bounded {c : Call} (h : Calls q c out q') (hq : Bounded q) : Bounded q' := by
  cases h with
  | offer h =>
      rename_i msg
      have hentry : (q.entry msg).pending.size ≤ q.window := by
        rw [← StreamOrder.length_held, held_entry, StreamOrder.length_held]
        exact hq.slot _
      cases h with
      | late h => exact hq.put hentry
      | repeated h hheld => exact hq.put hentry
      | @due run s' h hrun hstuck =>
          refine hq.put (le_trans ?_ hentry)
          have hsplit : (q.entry msg).held.length = _ := congrArg List.length hrun.held_eq
          rw [List.length_append, StreamOrder.length_held, StreamOrder.length_held] at hsplit
          omega
      | @ahead run s' gaps h hheld hrun hwindow hstuck =>
          exact hq.put (by rwa [← StreamOrder.length_held])
  | flushStream h =>
      cases h with
      | unknown h => exact hq
      | @flushed s run s' gaps h hrun hempty =>
          refine hq.put ?_
          rw [← StreamOrder.length_held, hempty]
          exact Nat.zero_le _

/-- Every run returns, and accounts for every message offered: it was released, is buffered, or was
dropped and counted. -/
theorem calls_run (q : DeliveryQueue) (hq : Bounded q) (cs : List Call) :
    ∃ out q' dropped, q.calls cs = .ok (out, q') ∧ Bounded q' ∧ q'.window = q.window ∧
      (out ++ (q'.held ++ dropped)).Perm (cs.flatMap Call.offered ++ q.held) ∧
      q'.duplicates = q.duplicates + UInt64.ofNat dropped.length := by
  induction cs generalizing q with
  | nil => exact ⟨[], q, [], rfl, hq, rfl, by simp, (UInt64.add_zero _).symm⟩
  | cons c cs ih =>
      obtain ⟨out, q₁, hrun, h⟩ := call_run q c
      obtain ⟨dropped, hperm, hdup⟩ := h.conserves
      obtain ⟨out', q', dropped', hrun', hbounded, hwindow, hperm', hdup'⟩ := ih q₁ (h.bounded hq)
      refine ⟨out ++ out', q', dropped ++ dropped', calls_cons hrun hrun', hbounded,
        hwindow.trans h.window_eq, ?_, ?_⟩
      · rw [List.flatMap_cons]
        have hfirst := hperm.append_left (cs.flatMap Call.offered)
        have hrest := hperm'.append_left (out ++ dropped)
        rw [List.perm_iff_count] at hfirst hrest ⊢
        intro a
        have hfirst := hfirst a
        have hrest := hrest a
        simp only [List.count_append] at hfirst hrest ⊢
        omega
      · rw [hdup', hdup, List.length_append, UInt64.ofNat_add, UInt64.add_assoc]

theorem bounded_make (window : Nat) : Bounded (make window) := by
  intro id s hs
  have hnone : (∅ : Std.ExtTreeMap UInt16 StreamOrder)[id]? = none := Std.ExtTreeMap.getElem?_empty
  exact absurd (hnone.symm.trans hs) (by simp)

/-- Conservation on a fresh queue: with any calls, no message is lost or made up, and no stream
buffers more than the window; an iteration of the forced advance releases a message. -/
theorem calls_conserve (window : Nat) (cs : List Call) :
    ∃ out q dropped, (make window).calls cs = .ok (out, q) ∧
      (out ++ (q.held ++ dropped)).Perm (cs.flatMap Call.offered) ∧
      (cs.flatMap Call.offered).length = out.length + q.buffered + dropped.length ∧
      q.duplicates = UInt64.ofNat dropped.length ∧
      (∀ (id : UInt16) (s : StreamOrder), q.streams[id]? = some s → s.pending.size ≤ max window 1) ∧
      (∀ (s : StreamOrder) (e : UInt32 × Message) (released : List Message),
        s.pending.toList.head? = some e →
        ∃ run s', StreamOrder.drain { s with nextExpected := e.1 } released =
            .ok (s', released ++ run) ∧
          run ≠ [] ∧ s'.pending.size + run.length = s.pending.size) := by
  obtain ⟨out, q, dropped, hrun, hbounded, hwindow, hperm, hdup⟩ :=
    calls_run _ (bounded_make window) cs
  have hempty : (make window).held = [] := rfl
  rw [hempty, List.append_nil] at hperm
  refine ⟨out, q, dropped, hrun, hperm, ?_, hdup.trans (UInt64.zero_add _), fun id s hs => ?_,
    fun s e released he => ?_⟩
  · rw [← hperm.length_eq, List.length_append, List.length_append, length_held, Nat.add_assoc]
  · have hsize := hbounded id s hs
    have hmax : (make window).window = max window 1 := by
      change (if window = 0 then 1 else window) = _
      split <;> omega
    rwa [hwindow, hmax] at hsize
  · obtain ⟨l, hl⟩ : ∃ l, s.held = e :: l := List.head?_eq_some_iff.mp he
    obtain ⟨run, s', hdrain, hne, hreleases, -⟩ := StreamOrder.drain_lowest hl released
    refine ⟨run.map Prod.snd, s', hdrain, by simpa using hne, ?_⟩
    rw [← StreamOrder.length_held, ← StreamOrder.length_held, hreleases.held_eq, List.length_append,
      List.length_map, Nat.add_comm]

/-- A late message stays late, however often it is offered. -/
theorem calls_late (n : Nat) {q : DeliveryQueue} (h : msg.msgId < (q.entry msg).nextExpected) :
    ∃ q', q.calls (List.replicate n (.offer msg)) = .ok ([], q') ∧ q'.held.length = q.held.length ∧
      q'.duplicates = q.duplicates + UInt64.ofNat n := by
  induction n generalizing q with
  | zero => exact ⟨q, rfl, rfl, (UInt64.add_zero _).symm⟩
  | succ n ih =>
      let q₁ : DeliveryQueue :=
        { q.put msg.streamId (q.entry msg) with duplicates := q.duplicates + 1 }
      have hrun : q.call (.offer msg) = .ok ([], q₁) := by
        simp [call, offer, h, pure, Except.pure, q₁]
      have hentry : q₁.entry msg = q.entry msg := by
        have hslot : q₁.streams.getD msg.streamId {} = q.entry msg := by
          simp [q₁, put, Std.ExtTreeMap.getD_eq_getD_getElem?]
        have hstarted : (q.entry msg).started = true := by
          unfold entry
          dsimp only
          split
          · rfl
          · next h => simpa using h
        rw [entry, hslot]
        simp [hstarted]
      have hheld : q₁.held.length = q.held.length := by
        obtain ⟨rest, hq, hput⟩ := held_put q msg.streamId
        have hsame := hput (q.entry msg)
        rw [held_entry] at hsame
        exact (hsame.trans hq.symm).length_eq
      obtain ⟨q', hrun', hheld', hdup⟩ := ih (q := q₁) (by rwa [hentry])
      refine ⟨q', calls_cons hrun hrun', hheld'.trans hheld, ?_⟩
      rw [hdup, Nat.add_comm n 1, UInt64.ofNat_add, ← UInt64.add_assoc]
      rfl

/-- One message offered `2 ^ 64 + 1` times: the counter of the drops is back at zero. -/
theorem duplicates_wrap_around :
    ¬ ∀ (window : Nat) (cs : List Call), ∃ out q, (make window).calls cs = .ok (out, q) ∧
      (cs.flatMap Call.offered).length = out.length + q.buffered + q.duplicates.toNat := by
  intro h
  let msg : Message := { streamId := 0, msgId := 0, compressed := false, data := [] }
  obtain ⟨out, q, hrun, hlength⟩ := h 1 (.offer msg :: List.replicate (2 ^ 64) (.offer msg))
  obtain ⟨out₁, q₁, hrun₁, -⟩ := call_run (make 1) (.offer msg)
  have hfirst : (fun r : List Message × DeliveryQueue =>
      (r.1.length, r.2.buffered, r.2.duplicates, decide (msg.msgId < (r.2.entry msg).nextExpected))) <$>
      (make 1).call (.offer msg) = .ok (1, 0, 0, true) := by decide +kernel
  rw [hrun₁] at hfirst
  obtain ⟨hout, hfirst⟩ := Prod.mk.inj (Except.ok.inj hfirst)
  obtain ⟨hbuffered, hfirst⟩ := Prod.mk.inj hfirst
  obtain ⟨hdup, hlate⟩ := Prod.mk.inj hfirst
  obtain ⟨q', hrun', hheld, hdup'⟩ := calls_late (2 ^ 64) (of_decide_eq_true hlate)
  have hall := calls_cons hrun₁ hrun'
  obtain ⟨rfl, rfl⟩ := Prod.mk.inj (Except.ok.inj (hrun.symm.trans hall))
  have hoffered : ∀ n : Nat, ((List.replicate n (Call.offer msg)).flatMap Call.offered).length = n := by
    intro n
    induction n with
    | zero => rfl
    | succ n ih => rw [List.replicate_succ, List.flatMap_cons, List.length_append, ih, Nat.add_comm]; rfl
  have hwrap : q.duplicates = 0 := by
    rw [hdup', hdup]
    rfl
  rw [length_held, length_held, hbuffered] at hheld
  rw [List.flatMap_cons, List.length_append, hoffered, List.append_nil, hout, hheld, hwrap] at hlength
  change 1 + 2 ^ 64 = 1 + 0 + 0 at hlength
  omega

end DeliveryQueue

end Bytewright.Streamcodec
