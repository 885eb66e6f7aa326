import Bytewright.Verification.Streamcodec.Slots

/-! # Runs of the reassembler -/

namespace Bytewright.Streamcodec

open Bytewright.Common Bytewright.Library

/-- One call a decoder makes on its reassembler. -/
inductive Call where
  | acceptData (f : Frame)
  | resetStream (streamId : UInt16)

/-- The stream a call is about. -/
def Call.streamId : Call → UInt16
  | .acceptData f => f.streamId
  | .resetStream streamId => streamId

namespace Partials

/-- The meaning of a call: the message it hands out, and the partials it leaves. -/
def call (v : Partials) : Call → Option Message × Partials
  | .acceptData f => v.accept f
  | .resetStream streamId => (none, v.reset streamId)

/-- The messages a sequence of calls hands out, in order. -/
def emitted (v : Partials) : List Call → List Message
  | [] => []
  | c :: cs => (v.call c).1.toList ++ emitted (v.call c).2 cs

end Partials

namespace Reassembler

def call (r : Reassembler) : Call → Outcome (Option Message × Reassembler)
  | .acceptData f => r.acceptData f
  | .resetStream streamId => .ok (none, (r.resetStream streamId).2)

/-- The reassembler after a sequence of calls. -/
def calls (r : Reassembler) (cs : List Call) : Outcome Reassembler :=
  cs.foldlM (fun r c => Prod.snd <$> r.call c) r

def SafeCall (r : Reassembler) : Call → Prop
  | .acceptData _ => True
  | .resetStream streamId => r.ResetSafe streamId

/-- Every reset of the run is safe in the state it finds. -/
def SafeRun (r : Reassembler) : List Call → Prop
  | [] => True
  | c :: cs => r.SafeCall c ∧ ∀ out r', r.call c = .ok (out, r') → r'.SafeRun cs

instance (r : Reassembler) (c : Call) : Decidable (r.SafeCall c) :=
  match c with
  | .acceptData _ => isTrue trivial
  | .resetStream streamId => inferInstanceAs (Decidable (r.ResetSafe streamId))

instance decidableSafeRun : (r : Reassembler) → (cs : List Call) → Decidable (r.SafeRun cs)
  | _, [] => isTrue trivial
  | r, c :: cs =>
    match h : r.call c with
    | .ok (_, r') =>
      have := decidableSafeRun r' cs
      decidable_of_iff (r.SafeCall c ∧ r'.SafeRun cs) (by simp [SafeRun, h])
    | .error _ => decidable_of_iff (r.SafeCall c) (by simp [SafeRun, h])

/-! ### The step lemma and the run lemma -/

/-- A safe call keeps the invariant and does what the abstract reassembler does. -/
theorem call_refines {r : Reassembler} (h : r.Wellformed) {c : Call} (hc : r.SafeCall c) :
    ∃ r', r.call c = .ok ((r.partials.call c).1, r') ∧ r'.Wellformed ∧
      r'.partials = (r.partials.call c).2 := by
  cases c with
  | acceptData f => exact acceptData_refines h f
  | resetStream streamId =>
      obtain ⟨hw, hp⟩ := resetStream_refines h hc
      exact ⟨_, rfl, hw, hp⟩

theorem calls_cons {r r' : Reassembler} {c : Call} {out : Option Message}
    (h : r.call c = .ok (out, r')) (cs : List Call) : r.calls (c :: cs) = r'.calls cs := by
  simp only [calls, List.foldlM_cons, h]
  rfl

theorem calls_agree {r : Reassembler} (h : r.Wellformed) {cs : List Call} (hs : r.SafeRun cs)
    {pre : List Call} (hpre : pre <+: cs) : ∃ r', r.calls pre = .ok r' ∧ r'.Wellformed := by
  induction pre generalizing r cs with
  | nil => exact ⟨r, rfl, h⟩
  | cons c pre ih =>
      obtain ⟨post, rfl⟩ := hpre
      obtain ⟨hc, hrest⟩ := hs
      obtain ⟨r', hr', hw, -⟩ := call_refines h hc
      obtain ⟨r'', hr'', hw'⟩ := ih hw (hrest _ r' hr') (List.prefix_append pre post)
      exact ⟨r'', by rw [calls_cons hr', hr''], hw'⟩

/-- Conversely, a run whose states all agree resets safely only. -/
theorem safeRun_of_agree {r : Reassembler} (h : r.Wellformed) {cs : List Call}
    (ha : ∀ pre, pre <+: cs → ∃ r', r.calls pre = .ok r' ∧ r'.Agree) : r.SafeRun cs := by
  induction cs generalizing r with
  | nil => trivial
  | cons c cs ih =>
      have hc : r.SafeCall c := by
        cases c with
        | acceptData f => trivial
        | resetStream streamId =>
            obtain ⟨r', hr', hagree⟩ := ha [.resetStream streamId] (List.prefix_append _ cs)
            rw [show r.calls [.resetStream streamId] = (r.resetStream streamId).2.calls [] from rfl] at hr'
            obtain rfl : (r.resetStream streamId).2 = r' := Except.ok.inj hr'
            exact (resetStream_agrees_iff h streamId).mp ((agree_iff _).mp hagree)
      obtain ⟨r₁, hr₁, hw, -⟩ := call_refines h hc
      refine ⟨hc, fun out r' hr' => ?_⟩
      obtain ⟨-, rfl⟩ := Prod.mk.inj (Except.ok.inj (hr₁.symm.trans hr'))
      refine ih hw fun pre hpre => ?_
      obtain ⟨r'', hr'', hagree⟩ := ha (c :: pre) ((List.prefix_cons_inj c).mpr hpre)
      rw [calls_cons hr₁] at hr''
      exact ⟨r'', hr'', hagree⟩

/-- Index and store agree after every call of a run exactly if every reset of the run is safe. -/
theorem calls_agree_iff (cs : List Call) :
    (∀ pre, pre <+: cs → ∃ r, ({} : Reassembler).calls pre = .ok r ∧ r.Agree) ↔
      ({} : Reassembler).SafeRun cs := by
  constructor
  · exact safeRun_of_agree .empty
  · intro hs pre hpre
    obtain ⟨r, hr, hw⟩ := calls_agree .empty hs hpre
    exact ⟨r, hr, (agree_iff r).mpr hw.agrees⟩

/-- Two partials of stream 10 in front of one of stream 20: the reset of stream 10 leaves an
entry for slot 1 of a store of one slot. -/
theorem calls_two_holes_disagree :
    ¬ ∀ cs pre : List Call, pre <+: cs →
      ∃ r, ({} : Reassembler).calls pre = .ok r ∧ r.Agree := by
  intro h
  let part (streamId : UInt16) (msgId : UInt32) : Call := .acceptData { streamId, msgId, payload := [1] }
  let cs := [part 10 1, part 10 2, part 20 1, .resetStream 10]
  obtain ⟨r, hr, hagree⟩ := h cs cs (List.prefix_refl cs)
  have hentry : (fun r : Reassembler => (r.index[((20, 1) : Key)]?, r.store.length)) <$>
      ({} : Reassembler).calls cs = .ok (some 1, 1) := by decide +kernel
  rw [hr] at hentry
  obtain ⟨hi, hlen⟩ := Prod.mk.inj (Except.ok.inj hentry)
  obtain ⟨p, hp, -⟩ := hagree.entry _ _ hi
  have hlt := (List.getElem?_eq_some_iff.mp hp).1
  omega

end Reassembler

/-! ### Projecting a run onto some of its keys -/

namespace Partials

theorem accept_key {v : Partials} {f : Frame} {m : Message} (h : (v.accept f).1 = some m) :
    m.key = f.key := by
  unfold accept at h
  dsimp only at h
  split at h
  · obtain rfl := Option.some.inj h
    rfl
  · cases h

theorem accept_of_ne {v : Partials} {f : Frame} {k : Key} (hk : k ≠ f.key) :
    (v.accept f).2 k = v k := by
  unfold accept
  dsimp only
  split <;> exact Function.update_of_ne hk _ _

theorem accept_congr {v v' : Partials} {f : Frame} (h : v f.key = v' f.key) :
    (v.accept f).1 = (v'.accept f).1 ∧ (v.accept f).2 f.key = (v'.accept f).2 f.key := by
  have hcur : v.current f.key = v'.current f.key := by rw [current, current, h]
  unfold accept
  rw [hcur]
  dsimp only
  split <;> simp

/-- The calls that can touch a key in `P`: its own DATA frames, and at least the resets of its
stream. -/
structure Selects (P : Key → Bool) (keep : Call → Bool) : Prop where
  accept : ∀ f, keep (.acceptData f) = P f.key
  reset : ∀ streamId k, keep (.resetStream streamId) = false → P k = true → k.1 ≠ streamId

/-- The messages under the keys in `P` are those of the run on the calls that touch them. -/
theorem emitted_filter {P : Key → Bool} {keep : Call → Bool} (hsel : Selects P keep)
    (cs : List Call) {v v' : Partials} (hv : ∀ k, P k = true → v k = v' k) :
    (v.emitted cs).filter (fun m => P m.key) = v'.emitted (cs.filter keep) := by
  induction cs generalizing v v' with
  | nil => rfl
  | cons c cs ih =>
      rw [emitted, List.filter_append]
      cases hc : keep c with
      | false =>
          rw [List.filter_cons_of_neg (by simp [hc])]
          have hout : (v.call c).1.toList.filter (fun m => P m.key) = [] := by
            cases c with
            | resetStream streamId => rfl
            | acceptData f =>
                refine List.filter_eq_nil_iff.mpr fun m hm => ?_
                rw [accept_key (Option.mem_toList.mp hm), ← hsel.accept f, hc]
                simp
          rw [hout, List.nil_append]
          refine ih fun k hk => ?_
          cases c with
          | resetStream streamId =>
              rw [← hv k hk]
              exact if_neg (hsel.reset streamId k hc hk)
          | acceptData f =>
              have hne : k ≠ f.key := fun he => by
                rw [hsel.accept, ← he, hk] at hc
                exact Bool.noConfusion hc
              rw [← hv k hk]
              exact accept_of_ne hne
      | true =>
          rw [List.filter_cons_of_pos hc, emitted]
          cases c with
          | resetStream streamId =>
              refine congrArg₂ _ rfl (ih fun k hk => ?_)
              change reset v streamId k = reset v' streamId k
              rw [reset, reset, hv k hk]
          | acceptData f =>
              have hP : P f.key = true := (hsel.accept f).symm.trans hc
              obtain ⟨hout, hself⟩ := accept_congr (hv f.key hP)
              have hall : (v.accept f).1.toList.filter (fun m => P m.key) = (v'.accept f).1.toList := by
                rw [← hout]
                refine List.filter_eq_self.mpr fun m hm => ?_
                rw [accept_key (Option.mem_toList.mp hm), hP]
              refine congrArg₂ _ hall (ih fun k hk => ?_)
              by_cases hkf : k = f.key
              · rw [hkf]
                exact hself
              · exact (accept_of_ne hkf).trans ((hv k hk).trans (accept_of_ne hkf).symm)

end Partials

end Bytewright.Streamcodec
