import Bytewright.Library.Fold
import Bytewright.Library.TreeMap
import Bytewright.Model.Streamcodec.Control
import Mathlib.Algebra.GroupWithZero.Nat

/-! # Flow control -/

namespace Bytewright.Streamcodec

open Bytewright.Library

/-! ### Saturating arithmetic -/

theorem toNat_max (a b : UInt64) : (max a b).toNat = max a.toNat b.toNat := by
  change (if a ≤ b then b else a).toNat = _
  split
  · next h => exact (Nat.max_eq_right (UInt64.le_iff_toNat_le.mp h)).symm
  · next h =>
    have h : ¬ a.toNat ≤ b.toNat := fun hle => h (UInt64.le_iff_toNat_le.mpr hle)
    exact (Nat.max_eq_left (by omega)).symm

theorem toNat_min (a b : UInt64) : (min a b).toNat = min a.toNat b.toNat := by
  change (if a ≤ b then a else b).toNat = _
  split
  · next h => exact (Nat.min_eq_left (UInt64.le_iff_toNat_le.mp h)).symm
  · next h =>
    have h : ¬ a.toNat ≤ b.toNat := fun hle => h (UInt64.le_iff_toNat_le.mpr hle)
    exact (Nat.min_eq_right (by omega)).symm

/-- The ceiling is `ack_point + window`, saturated at `2 ^ 64 - 1`. -/
theorem toNat_ceiling (u : WindowUpdate) :
    u.ceiling.toNat = min (u.ackPoint.toNat + u.window.toNat) (2 ^ 64 - 1) := by
  have hpoint : u.ackPoint.toNat < 2 ^ 64 := u.ackPoint.toNat_lt
  have hmax : kUint64Max.toNat = 2 ^ 64 - 1 := rfl
  have hle : u.ackPoint ≤ kUint64Max := UInt64.le_iff_toNat_le.mpr (by omega)
  have hroom : (kUint64Max - u.ackPoint).toNat = 2 ^ 64 - 1 - u.ackPoint.toNat :=
    UInt64.toNat_sub_of_le _ _ hle
  unfold WindowUpdate.ceiling
  split
  · next h =>
    have h := UInt64.lt_iff_toNat_lt.mp h
    omega
  · next h =>
    have h : ¬ (kUint64Max - u.ackPoint).toNat < u.window.toNat := fun hlt =>
      h (UInt64.lt_iff_toNat_lt.mpr hlt)
    rw [UInt64.toNat_add, Nat.mod_eq_of_lt (by omega)]
    omega

/-! ### One stream -/

namespace FlowState

variable {s : FlowState}

/-- The credit left below the ceiling. -/
theorem toNat_available (s : FlowState) : s.available.toNat = s.advertised.toNat - s.sent.toNat := by
  unfold available
  split
  · next h => exact UInt64.toNat_sub_of_le _ _ h
  · next h =>
    have h : ¬ s.sent.toNat ≤ s.advertised.toNat := fun hle => h (UInt64.le_iff_toNat_le.mpr hle)
    rw [UInt64.toNat_zero]
    omega

theorem available_eq_zero_iff (s : FlowState) : s.available = 0 ↔ s.advertised.toNat ≤ s.sent.toNat := by
  rw [← UInt64.toNat_inj, toNat_available, UInt64.toNat_zero]
  omega

/-- What the window arithmetic keeps: the counters in order, and the flag in step with them. -/
structure Consistent (s : FlowState) : Prop where
  acked_le : s.acked.toNat ≤ s.sent.toNat
  sent_le : s.sent.toNat ≤ s.advertised.toNat
  blocked_iff : s.blocked = true ↔ s.available = 0

/-- No counter of `s` is beyond that of `t`. -/
structure Le (s t : FlowState) : Prop where
  advertised : s.advertised ≤ t.advertised
  sent : s.sent ≤ t.sent
  acked : s.acked ≤ t.acked

theorem Le.refl (s : FlowState) : s.Le s where
  advertised := UInt64.le_refl _
  sent := UInt64.le_refl _
  acked := UInt64.le_refl _

theorem Le.trans {t u : FlowState} (h : s.Le t) (h' : t.Le u) : s.Le u where
  advertised := UInt64.le_trans h.advertised h'.advertised
  sent := UInt64.le_trans h.sent h'.sent
  acked := UInt64.le_trans h.acked h'.acked

theorem refresh_blocked_iff (s : FlowState) :
    s.refresh.blocked = true ↔ s.refresh.available = 0 := by
  rw [available_eq_zero_iff]
  simp [refresh, UInt64.le_iff_toNat_le]

/-- An unknown stream and a fresh entry have the same counters. -/
theorem Consistent.unknown : Consistent { blocked := true } where
  acked_le := Nat.le_refl _
  sent_le := Nat.le_refl _
  blocked_iff := by decide

theorem Consistent.windowUpdate (h : s.Consistent) (u : WindowUpdate) :
    (s.windowUpdate u).Consistent ∧ s.Le (s.windowUpdate u) := by
  have hadvertised : (s.windowUpdate u).advertised.toNat = max s.advertised.toNat u.ceiling.toNat :=
    toNat_max _ _
  have hge : s.advertised.toNat ≤ (s.windowUpdate u).advertised.toNat := by
    rw [hadvertised]
    exact Nat.le_max_left ..
  constructor
  · exact { acked_le := h.acked_le
            sent_le := Nat.le_trans h.sent_le hge
            blocked_iff := refresh_blocked_iff _ }
  · exact { advertised := UInt64.le_iff_toNat_le.mpr hge
            sent := UInt64.le_refl _
            acked := UInt64.le_refl _ }

theorem Consistent.ack (h : s.Consistent) (a : WindowAck) :
    (s.ack a).Consistent ∧ s.Le (s.ack a) := by
  have hacked : (s.ack a).acked.toNat = min (max s.acked.toNat a.ackedBytes.toNat) s.sent.toNat := by
    change (min (max s.acked a.ackedBytes) s.sent).toNat = _
    rw [toNat_min, toNat_max]
  have hle := h.acked_le
  constructor
  · exact { acked_le := by rw [hacked]; exact Nat.min_le_right ..
            sent_le := h.sent_le
            blocked_iff := refresh_blocked_iff _ }
  · exact { advertised := UInt64.le_refl _
            sent := UInt64.le_refl _
            acked := UInt64.le_iff_toNat_le.mpr (by rw [hacked]; omega) }

/-- What is admitted fits below the ceiling, so the sum does not wrap around. -/
theorem Consistent.admitted (h : s.Consistent) (n : UInt64) :
    s.admitted n ≤ n ∧ (s.send n).sent.toNat = s.sent.toNat + (s.admitted n).toNat ∧
      (s.send n).sent.toNat ≤ s.advertised.toNat := by
  have hadmitted : (s.admitted n).toNat = min n.toNat (s.advertised.toNat - s.sent.toNat) := by
    rw [FlowState.admitted, toNat_min, toNat_available]
  have hle := h.sent_le
  have hlt : s.advertised.toNat < 2 ^ 64 := s.advertised.toNat_lt
  have hsent : (s.send n).sent.toNat = s.sent.toNat + (s.admitted n).toNat := by
    change (s.sent + s.admitted n).toNat = _
    rw [UInt64.toNat_add, Nat.mod_eq_of_lt (by omega)]
  refine ⟨UInt64.le_iff_toNat_le.mpr ?_, hsent, ?_⟩
  · rw [hadmitted]
    exact Nat.min_le_left ..
  · omega

theorem Consistent.send (h : s.Consistent) (n : UInt64) :
    (s.send n).Consistent ∧ s.Le (s.send n) := by
  obtain ⟨-, hsent, hle⟩ := h.admitted n
  have hacked := h.acked_le
  constructor
  · exact { acked_le := by change s.acked.toNat ≤ _; omega
            sent_le := hle
            blocked_iff := refresh_blocked_iff _ }
  · exact { advertised := UInt64.le_refl _
            sent := UInt64.le_iff_toNat_le.mpr (by omega)
            acked := UInt64.le_refl _ }

end FlowState

/-! ### Calls -/

namespace FlowController

/-- The inputs from the receiver. -/
inductive Input where
  | windowUpdate (u : WindowUpdate)
  | ack (a : WindowAck)
  deriving DecidableEq, Repr

inductive Call where
  | input (i : Input)
  | trySend (streamId : UInt16) (n : UInt64)
  deriving DecidableEq, Repr

def Input.streamId : Input → UInt16
  | windowUpdate u => u.streamId
  | ack a => a.streamId

def Call.streamId : Call → UInt16
  | input i => i.streamId
  | trySend streamId _ => streamId

/-- The controller behind an input. -/
def input (fc : FlowController) : Input → FlowController
  | .windowUpdate u => (fc.onWindowUpdate u).2
  | .ack a => (fc.onAck a).2

def call (fc : FlowController) : Call → FlowController
  | .input i => fc.input i
  | .trySend streamId n => (fc.trySend streamId n).2

def calls (fc : FlowController) (cs : List Call) : FlowController := cs.foldl call fc

/-- The ceilings advertised to a stream by its window updates. -/
def ceilings (id : UInt16) (cs : List Call) : List Nat :=
  cs.filterMap fun
    | .input (.windowUpdate u) =>
      if u.streamId = id then some (min (u.ackPoint.toNat + u.window.toNat) (2 ^ 64 - 1)) else none
    | _ => none

/-- The amounts that the `try_send` calls on a stream return, in the order of the calls. -/
def admissions (fc : FlowController) (id : UInt16) : List Call → List UInt64
  | [] => []
  | .trySend streamId n :: cs =>
    (if streamId = id then [(fc.trySend streamId n).1] else []) ++
      admissions (fc.trySend streamId n).2 id cs
  | .input i :: cs => admissions (fc.input i) id cs

end FlowController

/-! ### The entry of one stream -/

namespace FlowState

open FlowController

def input (s : FlowState) : Input → FlowState
  | .windowUpdate u => s.windowUpdate u
  | .ack a => s.ack a

def call (s : FlowState) : Call → FlowState
  | .input i => s.input i
  | .trySend _ n => s.send n

theorem Consistent.call {s : FlowState} (h : s.Consistent) (c : Call) :
    (s.call c).Consistent ∧ s.Le (s.call c) := by
  cases c with
  | input i =>
      cases i with
      | windowUpdate u => exact h.windowUpdate u
      | ack a => exact h.ack a
  | trySend streamId n => exact h.send n

/-- The flag is computed anew by every call, from the counters. -/
theorem call_unblocked (s : FlowState) (b : Bool) (c : Call) :
    ({ s with blocked := b } : FlowState).call c = s.call c := by
  cases c with
  | input i => cases i <;> rfl
  | trySend streamId n => rfl

/-- Window updates raise one counter and acks another, each to a maximum of what they carry. -/
theorem absorbing_input : Absorbing FlowState.input where
  comm s i j := by
    cases i with
    | windowUpdate u =>
        cases j with
        | windowUpdate v =>
            have hmax : max (max s.advertised u.ceiling) v.ceiling =
                max (max s.advertised v.ceiling) u.ceiling := by
              rw [← UInt64.toNat_inj]
              simp only [toNat_max]
              omega
            exact congrArg (fun ceiling => refresh { s with advertised := ceiling }) hmax
        | ack a => rfl
    | ack a =>
        cases j with
        | windowUpdate u => rfl
        | ack b =>
            have hmax : min (max (min (max s.acked a.ackedBytes) s.sent) b.ackedBytes) s.sent =
                min (max (min (max s.acked b.ackedBytes) s.sent) a.ackedBytes) s.sent := by
              rw [← UInt64.toNat_inj]
              simp only [toNat_max, toNat_min]
              omega
            exact congrArg (fun acked => refresh { s with acked }) hmax
  idem s i := by
    cases i with
    | windowUpdate u =>
        have hmax : max (max s.advertised u.ceiling) u.ceiling = max s.advertised u.ceiling := by
          rw [← UInt64.toNat_inj]
          simp only [toNat_max]
          omega
        exact congrArg (fun ceiling => refresh { s with advertised := ceiling }) hmax
    | ack a =>
        have hmax : min (max (min (max s.acked a.ackedBytes) s.sent) a.ackedBytes) s.sent =
            min (max s.acked a.ackedBytes) s.sent := by
          rw [← UInt64.toNat_inj]
          simp only [toNat_max, toNat_min]
          omega
        exact congrArg (fun acked => refresh { s with acked }) hmax

end FlowState

namespace FlowController

variable (fc : FlowController) (id : UInt16)

theorem slot_eq : slot fc id = fc[id]?.getD {} := by
  simp only [slot, Std.ExtTreeMap.getD_eq_getD_getElem?]

theorem getElem?_input (i : Input) :
    (input fc i)[id]? = if i.streamId = id then some ((slot fc id).input i) else fc[id]? := by
  cases i with
  | windowUpdate u =>
      refine (getElem?_insert_eq fc u.streamId id _).trans (ite_congr rfl (fun h => ?_) fun _ => rfl)
      rw [← h]
      rfl
  | ack a =>
      refine (getElem?_insert_eq fc a.streamId id _).trans (ite_congr rfl (fun h => ?_) fun _ => rfl)
      rw [← h]
      rfl

theorem getElem?_call (c : Call) :
    (call fc c)[id]? = if c.streamId = id then some ((slot fc id).call c) else fc[id]? := by
  cases c with
  | input i => exact getElem?_input fc id i
  | trySend streamId n =>
      refine (getElem?_insert_eq fc streamId id _).trans (ite_congr rfl (fun h => ?_) fun _ => rfl)
      rw [← h]
      rfl

/-- A call is one to the state of its stream, and leaves every other stream alone. -/
theorem state_call (c : Call) :
    state (call fc c) id = if c.streamId = id then (state fc id).call c else state fc id := by
  rw [state, getElem?_call, slot_eq, state]
  by_cases hid : c.streamId = id
  · rw [if_pos hid, if_pos hid]
    cases fc[id]? with
    | none => exact (FlowState.call_unblocked {} true c).symm
    | some s => rfl
  · rw [if_neg hid, if_neg hid]

theorem blocked_eq_state : blocked fc id = (state fc id).blocked := by
  rw [blocked, state]
  cases fc[id]? <;> rfl

theorem admitted_slot (n : UInt64) : (trySend fc id n).1 = (state fc id).admitted n := by
  change (slot fc id).admitted n = _
  rw [slot_eq, state]
  cases fc[id]? <;> rfl

end FlowController

/-! ### Runs -/

namespace FlowController

theorem calls_cons (c : Call) (cs : List Call) (fc : FlowController) :
    calls fc (c :: cs) = calls (call fc c) cs := rfl

/-- Along a run every stream stays consistent, and no counter of it goes back. -/
theorem consistent_calls (id : UInt16) (cs : List Call) {fc : FlowController}
    (h : (state fc id).Consistent) :
    (state (calls fc cs) id).Consistent ∧ (state fc id).Le (state (calls fc cs) id) := by
  induction cs generalizing fc with
  | nil => exact ⟨h, .refl _⟩
  | cons c cs ih =>
      have hstep : (state (call fc c) id).Consistent ∧ (state fc id).Le (state (call fc c) id) := by
        rw [state_call]
        split
        · exact h.call c
        · exact ⟨h, .refl _⟩
      obtain ⟨hconsistent, hle⟩ := ih hstep.1
      exact ⟨hconsistent, hstep.2.trans hle⟩

theorem consistent_empty (id : UInt16) : (state ∅ id).Consistent := by
  have hnone : (∅ : FlowController)[id]? = none := Std.ExtTreeMap.getElem?_empty
  rw [state, hnone]
  exact .unknown

/-- The ceiling of a stream is the largest one advertised to it. -/
theorem advertised_calls (id : UInt16) (cs : List Call) (fc : FlowController) :
    (state (calls fc cs) id).advertised.toNat =
      (ceilings id cs).foldl max (state fc id).advertised.toNat := by
  induction cs generalizing fc with
  | nil => rfl
  | cons c cs ih =>
      rw [calls_cons, ih, state_call]
      cases c with
      | trySend streamId n => split <;> rfl
      | input i =>
          cases i with
          | ack a => split <;> rfl
          | windowUpdate u =>
              let call : Call := .input (.windowUpdate u)
              by_cases hid : call.streamId = id
              · have hcons : ceilings id (.input (.windowUpdate u) :: cs) =
                    min (u.ackPoint.toNat + u.window.toNat) (2 ^ 64 - 1) :: ceilings id cs := by
                  have hid : u.streamId = id := hid
                  simp [ceilings, hid]
                have hstep : ((state fc id).call (.input (.windowUpdate u))).advertised.toNat =
                    max (state fc id).advertised.toNat
                      (min (u.ackPoint.toNat + u.window.toNat) (2 ^ 64 - 1)) := by
                  rw [← toNat_ceiling]
                  exact toNat_max _ _
                rw [if_pos hid, hcons, List.foldl_cons, hstep]
              · have hcons : ceilings id (.input (.windowUpdate u) :: cs) = ceilings id cs := by
                  have hid : u.streamId ≠ id := hid
                  simp [ceilings, hid]
                rw [if_neg hid, hcons]

/-- What was sent on a stream is the sum of what was admitted. -/
theorem sent_calls (id : UInt16) (cs : List Call) {fc : FlowController}
    (h : (state fc id).Consistent) :
    (state (calls fc cs) id).sent.toNat =
      (state fc id).sent.toNat + ((admissions fc id cs).map UInt64.toNat).sum := by
  induction cs generalizing fc with
  | nil => rfl
  | cons c cs ih =>
      have hstep : (state (call fc c) id).Consistent := (consistent_calls id [c] h).1
      rw [calls_cons, ih hstep]
      have hstate := state_call fc id c
      cases c with
      | input i =>
          have hsent : (state (call fc (.input i)) id).sent = (state fc id).sent := by
            rw [hstate]
            split
            · cases i <;> rfl
            · rfl
          rw [hsent]
          rfl
      | trySend streamId n =>
          change _ = _ + (((if streamId = id then [(trySend fc streamId n).1] else []) ++
            admissions (call fc (.trySend streamId n)) id cs).map UInt64.toNat).sum
          change state _ id = if streamId = id then _ else _ at hstate
          by_cases hid : streamId = id
          · rw [if_pos hid] at hstate ⊢
            have hsent : (state (call fc (.trySend streamId n)) id).sent.toNat =
                (state fc id).sent.toNat + ((state fc id).admitted n).toNat := by
              rw [hstate]
              exact (h.admitted n).2.1
            rw [hsent, hid, admitted_slot]
            simp only [List.map_append, List.sum_append, List.map_cons, List.map_nil, List.sum_cons,
              List.sum_nil]
            omega
          · rw [if_neg hid] at hstate ⊢
            rw [hstate]
            rfl

/-- Flow-control safety, in every state that calls on a fresh controller lead to. -/
theorem calls_safe (cs : List Call) (id : UInt16) :
    let fc := calls ∅ cs
    let s := state fc id
    s.acked ≤ s.sent ∧ s.sent ≤ s.advertised ∧
      (∀ ds, s.Le (state (calls fc ds) id)) ∧
      s.advertised.toNat = (ceilings id cs).foldl max 0 ∧
      s.sent.toNat = ((admissions ∅ id cs).map UInt64.toNat).sum ∧
      (∀ n, (trySend fc id n).1 ≤ n ∧
        s.sent.toNat + (trySend fc id n).1.toNat ≤ s.advertised.toNat) ∧
      (blocked fc id = true ↔ s.available = 0) ∧ s.blocked = blocked fc id := by
  have hnone : (∅ : FlowController)[id]? = none := Std.ExtTreeMap.getElem?_empty
  have hempty : state ∅ id = { blocked := true } := by rw [state, hnone]
  obtain ⟨h, -⟩ := consistent_calls id cs (consistent_empty id)
  have hadvertised := advertised_calls id cs ∅
  have hsent := sent_calls id cs (consistent_empty id)
  rw [hempty] at hadvertised hsent
  refine ⟨UInt64.le_iff_toNat_le.mpr h.acked_le, UInt64.le_iff_toNat_le.mpr h.sent_le,
    fun ds => (consistent_calls id ds h).2, hadvertised, hsent.trans (Nat.zero_add _), fun n => ?_, ?_,
    (blocked_eq_state _ id).symm⟩
  · obtain ⟨hle, hsum, hroom⟩ := h.admitted n
    rw [admitted_slot]
    exact ⟨hle, hsum ▸ hroom⟩
  · rw [blocked_eq_state]
    exact h.blocked_iff

/-- On the whole controller, too, inputs commute and are idempotent. -/
theorem absorbing_input : Absorbing input where
  comm fc i j := by
    apply Std.ExtTreeMap.ext_getElem?
    intro id
    have hcomm := FlowState.absorbing_input.comm (slot fc id) i j
    simp only [getElem?_input, slot_eq] at hcomm ⊢
    by_cases hi : i.streamId = id
    · by_cases hj : j.streamId = id
      · simp only [hi, hj, if_true, Option.getD_some, hcomm]
      · simp only [hi, hj, if_true, if_false]
    · simp only [hi, if_false]
  idem fc i := by
    apply Std.ExtTreeMap.ext_getElem?
    intro id
    have hidem := FlowState.absorbing_input.idem (slot fc id) i
    simp only [getElem?_input, slot_eq] at hidem ⊢
    by_cases hi : i.streamId = id
    · simp only [hi, if_true, Option.getD_some, hidem]
    · simp only [hi, if_false]

/-- Window updates and acks in another order, and with repetitions, make no difference to the
controller. -/
theorem inputs_reordered (fc : FlowController) {is js : List Input} (h : ∀ i, i ∈ is ↔ i ∈ js) :
    is.foldl input fc = js.foldl input fc :=
  absorbing_input.foldl_congr h fc

/-- A stale update behind a newer one and a repeated ack, on a controller with bytes in flight. -/
theorem inputs_reordered_stale :
    let fc := calls ∅ [.input (.windowUpdate { streamId := 1, window := 10 }), .trySend 1 7]
    let newer : Input := .windowUpdate { streamId := 1, ackPoint := 5, window := 10 }
    let stale : Input := .windowUpdate { streamId := 1, window := 12 }
    let ack : Input := .ack { streamId := 1, ackedBytes := 5 }
    [stale, newer, ack].foldl input fc = [ack, newer, ack, stale, newer].foldl input fc :=
  inputs_reordered _ (by simp only [List.mem_cons, List.not_mem_nil, or_false]; tauto)

end FlowController

end Bytewright.Streamcodec
