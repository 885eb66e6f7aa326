import Bytewright.Library.SlotMap
import Bytewright.Model.Streamcodec.Reassembler

/-! # The slots of the reassembler -/

namespace Bytewright.Streamcodec

open Bytewright.Common Bytewright.Library

/-! ### One partial message -/

namespace PartialMessage

/-- What keeps `emit` inside the buffer. -/
structure Bounded (p : PartialMessage) : Prop where
  totalLen_le : p.totalLen ≤ p.highWater
  highWater_le : p.highWater ≤ p.buffer.length

theorem length_fill (buffer payload : Bytes) (b e : Nat) :
    (fill buffer payload b e).length = max buffer.length e := by
  unfold fill
  dsimp only
  split
  · split <;> simp <;> omega
  · split <;> simp <;> omega

@[simp] theorem place_key (p : PartialMessage) (f : Frame) : (p.place f).key = p.key := by
  unfold place addRange key
  dsimp only
  split <;> split <;> rfl

theorem place_buffer (p : PartialMessage) (f : Frame) :
    (p.place f).buffer = fill p.buffer f.payload (beginOf f) (endOf f) := by
  unfold place addRange
  dsimp only
  split <;> split <;> rfl

theorem place_ranges (p : PartialMessage) (f : Frame) :
    (p.place f).ranges = addSpan p.ranges (beginOf f) (endOf f) := by
  unfold place addRange
  dsimp only
  split <;> split <;> rfl

theorem place_highWater (p : PartialMessage) (f : Frame) :
    (p.place f).highWater = max p.highWater (endOf f) := by
  unfold place addRange
  dsimp only
  split <;> split <;> rfl

theorem place_haveFin (p : PartialMessage) (f : Frame) :
    (p.place f).haveFin = (p.haveFin || f.fin) := by
  unfold place addRange
  dsimp only
  split <;> split <;> simp_all

theorem place_compressed (p : PartialMessage) (f : Frame) :
    (p.place f).compressed = (p.compressed || f.compressed) := by
  unfold place addRange
  dsimp only
  split <;> split <;> simp_all

theorem place_totalLen (p : PartialMessage) (f : Frame) :
    (p.place f).totalLen = if f.fin then max p.highWater (endOf f) else p.totalLen := by
  unfold place addRange
  dsimp only
  split <;> split <;> rfl

theorem Bounded.fresh (streamId : UInt16) (msgId : UInt32) :
    Bounded { streamId, msgId } :=
  ⟨Nat.le_refl _, Nat.le_refl _⟩

theorem Bounded.place {p : PartialMessage} (h : p.Bounded) (f : Frame) :
    (p.place f).Bounded := by
  have h₁ := h.totalLen_le
  have h₂ := h.highWater_le
  constructor
  · rw [place_totalLen, place_highWater]
    split <;> omega
  · rw [place_highWater, place_buffer, length_fill]
    omega

theorem Bounded.emit {p : PartialMessage} (h : p.Bounded) (f : Frame) :
    p.emit f = .ok { streamId := f.streamId, msgId := f.msgId, compressed := p.compressed
                     data := p.buffer.take p.totalLen } := by
  rw [PartialMessage.emit, if_pos (h.totalLen_le.trans h.highWater_le)]

end PartialMessage

/-! ### The abstract reassembler: at most one partial message for each key -/

abbrev Partials := Key → Option PartialMessage

namespace Partials

/-- The partial of a key, a fresh one if there is none. -/
def current (v : Partials) (k : Key) : PartialMessage :=
  (v k).getD { streamId := k.1, msgId := k.2 }

/-- What a DATA frame means: it changes the partial of its own key only. -/
def accept (v : Partials) (f : Frame) : Option Message × Partials :=
  let p := (v.current f.key).place f
  if p.isComplete then
    (some { streamId := f.streamId, msgId := f.msgId, compressed := p.compressed
            data := p.buffer.take p.totalLen },
      Function.update v f.key none)
  else (none, Function.update v f.key (some p))

/-- What a RESET means: the partials of its own stream are gone. -/
def reset (v : Partials) (streamId : UInt16) : Partials :=
  fun k => if k.1 = streamId then none else v k

end Partials

namespace Reassembler

/-- The index map as a function. -/
def slots (r : Reassembler) : Key → Option Nat := fun k => r.index[k]?

/-- The partial messages a reassembler holds, whatever slots they are in. -/
def partials (r : Reassembler) : Partials := view r.store r.slots

/-- `index_` and `store_` agree: each entry leads to a slot that carries its key, and every
slot is named by exactly one entry. -/
structure Agree (r : Reassembler) : Prop where
  entry : ∀ (k : Key) (i : Nat), r.index[k]? = some i →
    ∃ p, r.store[i]? = some p ∧ (p.streamId, p.msgId) = k
  slot : ∀ i < r.store.length, ∃! k : Key, r.index[k]? = some i

structure Wellformed (r : Reassembler) : Prop where
  agrees : Agrees PartialMessage.key r.store r.slots
  bounded : ∀ p ∈ r.store, p.Bounded

theorem agree_iff (r : Reassembler) : r.Agree ↔ Agrees PartialMessage.key r.store r.slots :=
  ⟨fun h => Agrees.of_named_once h.entry h.slot,
    fun h => ⟨h.sound, fun _ hi => h.named_once hi⟩⟩

theorem slots_empty : ({} : Reassembler).slots = fun _ => none := by
  funext k
  simp [slots]

theorem partials_empty : ({} : Reassembler).partials = fun _ => none := by
  rw [partials, slots_empty]
  rfl

theorem Wellformed.empty : Wellformed {} := by
  refine ⟨?_, fun p hp => absurd hp List.not_mem_nil⟩
  rw [slots_empty]
  exact Agrees.nil

/-! ### The index map under its two updates -/

theorem slots_insert (store store' : List PartialMessage) (index : Std.ExtTreeMap Key Nat) (k : Key)
    (i : Nat) :
    slots { store := store', index := index.insert k i } =
      Function.update (slots { store, index }) k (some i) := by
  funext k'
  rw [slots, Std.ExtTreeMap.getElem?_insert, Function.update_apply]
  simp only [Std.LawfulEqCmp.compare_eq_iff_eq, eq_comm (a := k), slots]

theorem slots_erase (store store' : List PartialMessage) (index : Std.ExtTreeMap Key Nat) (k : Key) :
    slots { store := store', index := index.erase k } =
      Function.update (slots { store, index }) k none := by
  funext k'
  rw [slots, Std.ExtTreeMap.getElem?_erase, Function.update_apply]
  simp only [Std.LawfulEqCmp.compare_eq_iff_eq, eq_comm (a := k), slots]

/-! ### Finding, filling and removing a slot -/

theorem slotFor_spec {r : Reassembler} (h : r.Wellformed) (k : Key) :
    ∃ i r', r.slotFor k = (i, r') ∧ r'.Wellformed ∧
      r'.store[i]? = some (r.partials.current k) ∧ (r.partials.current k).key = k ∧
      ∀ v, Function.update r'.partials k v = Function.update r.partials k v := by
  cases hi : r.index[k]? with
  | some i =>
      obtain ⟨p, hp, hk⟩ := h.agrees.sound k i hi
      have hv : r.partials.current k = p := by
        simp [Partials.current, partials, view, slots, hi, hp]
      refine ⟨i, r, by simp [slotFor, hi], h, ?_, ?_, fun v => rfl⟩
      · rw [hv, hp]
      · rw [hv, hk]
  | none =>
      have hv : r.partials.current k = { streamId := k.1, msgId := k.2 } := by
        simp [Partials.current, partials, view, slots, hi]
      refine ⟨r.store.length,
        { store := r.store ++ [{ streamId := k.1, msgId := k.2 }]
          index := r.index.insert k r.store.length },
        by simp only [slotFor, hi], ⟨?_, ?_⟩, ?_, ?_, fun v => ?_⟩
      · rw [slots_insert r.store]
        exact h.agrees.push (p := { streamId := k.1, msgId := k.2 }) hi
      · intro p hp
        rcases List.mem_append.mp hp with hp | hp
        · exact h.bounded p hp
        · rw [List.mem_singleton.mp hp]
          exact .fresh _ _
      · simp [hv]
      · rw [hv]
        rfl
      · rw [partials, slots_insert r.store]
        have hpush := h.agrees.view_push (p := { streamId := k.1, msgId := k.2 })
        simp only [PartialMessage.key] at hpush
        rw [hpush, Function.update_idem]
        rfl

theorem removeSlot_spec {r : Reassembler} (h : r.Wellformed) {i : Nat} {p : PartialMessage}
    (hp : r.store[i]? = some p) :
    ∃ r', r.removeSlot i p.key = .ok r' ∧ r'.Wellformed ∧
      r'.partials = Function.update r.partials p.key none := by
  obtain ⟨store, index⟩ := r
  rcases List.eq_nil_or_concat store with rfl | ⟨init, last, rfl⟩
  · simp at hp
  · have hagrees := h.agrees
    have hbounded := h.bounded
    simp only [List.concat_eq_append] at hp hagrees hbounded ⊢
    by_cases hi : i = init.length
    · -- the slot is the last one
      obtain rfl : last = p := by simpa [hi] using hp
      refine ⟨{ store := init, index := index.erase last.key }, by simp [removeSlot, hi], ⟨?_, ?_⟩, ?_⟩
      · rw [slots_erase (init ++ [last])]
        exact hagrees.dropLast
      · exact fun q hq => hbounded q (List.mem_append_left _ hq)
      · rw [partials, slots_erase (init ++ [last])]
        exact hagrees.view_dropLast
    · have hp' : init[i]? = some p := by
        rcases getElem?_snoc_eq_some hp with hp | ⟨he, -⟩
        · exact hp
        · exact absurd he hi
      have hlt : i < init.length := (List.getElem?_eq_some_iff.mp hp').1
      have hset : ((init ++ [last]).set i last).dropLast = init.set i last := by
        rw [List.set_append_left _ _ hlt, List.dropLast_concat]
      refine ⟨{ store := init.set i last, index := (index.erase p.key).insert last.key i },
        by simp [removeSlot, hi, hset], ⟨?_, ?_⟩, ?_⟩
      · rw [slots_insert init, slots_erase (init ++ [last])]
        exact hagrees.swapPop hp'
      · intro q hq
        rcases List.mem_or_eq_of_mem_set hq with hq | rfl
        · exact hbounded q (List.mem_append_left _ hq)
        · exact hbounded q (List.mem_append_right _ (List.mem_singleton_self q))
      · rw [partials, slots_insert init, slots_erase (init ++ [last])]
        exact hagrees.view_swapPop hp'

/-- `accept_data` refines its abstract meaning, and never leaves the store. -/
theorem acceptData_refines {r : Reassembler} (h : r.Wellformed) (f : Frame) :
    ∃ r', r.acceptData f = .ok ((r.partials.accept f).1, r') ∧ r'.Wellformed ∧
      r'.partials = (r.partials.accept f).2 := by
  obtain ⟨i, r₁, hslot, h₁, hp, hkey, hupd⟩ := slotFor_spec h f.key
  generalize hcur : r.partials.current f.key = p at hp hkey
  -- the state once the frame is placed in its slot
  obtain ⟨r₂, hr₂⟩ : ∃ r₂ : Reassembler, r₂ = { r₁ with store := r₁.store.set i (p.place f) } := ⟨_, rfl⟩
  have hlt : i < r₁.store.length := (List.getElem?_eq_some_iff.mp hp).1
  have hp₂ : r₂.store[i]? = some (p.place f) := by
    rw [hr₂]
    exact List.getElem?_set_self hlt
  have h₂ : r₂.Wellformed := by
    subst hr₂
    refine ⟨h₁.agrees.set hp (PartialMessage.place_key p f), fun q hq => ?_⟩
    rcases List.mem_or_eq_of_mem_set hq with hq | rfl
    · exact h₁.bounded q hq
    · exact (h₁.bounded p (List.mem_of_getElem? hp)).place f
  have hpart₂ : r₂.partials = Function.update r.partials f.key (some (p.place f)) := by
    rw [← hupd, ← hkey, hr₂]
    exact h₁.agrees.view_set hp
  have hb := h₂.bounded _ (List.mem_of_getElem? hp₂)
  cases hc : (p.place f).isComplete with
  | false =>
      refine ⟨r₂, ?_, h₂, ?_⟩
      · simp [acceptData, hslot, hp, hc, pure, Except.pure, Partials.accept, hcur, hr₂]
      · rw [hpart₂]
        simp [Partials.accept, hcur, hc]
  | true =>
      obtain ⟨r₃, hrem, h₃, hpart₃⟩ := removeSlot_spec h₂ hp₂
      rw [PartialMessage.place_key, hkey] at hrem hpart₃
      refine ⟨r₃, ?_, h₃, ?_⟩
      · simp [acceptData, hslot, hp, bind, Except.bind, hc, pure, Except.pure, Partials.accept,
          hcur, hb.emit, ← hr₂, hrem]
      · rw [hpart₃, hpart₂, Function.update_idem]
        simp [Partials.accept, hcur, hc]

/-! ### Resetting a stream -/

/-- No survivor of the reset sits behind two or more of the partials it drops: the index
entries behind the first hole slide down by one slot, however many holes there are. -/
def ResetSafe (r : Reassembler) (streamId : UInt16) : Prop :=
  ∀ i p, r.store[i]? = some p → p.streamId ≠ streamId →
    (r.store.take i).countP (·.streamId = streamId) ≤ 1

instance (r : Reassembler) (streamId : UInt16) : Decidable (r.ResetSafe streamId) :=
  decidable_of_iff (∀ i : Fin r.store.length, r.store[i].streamId ≠ streamId →
      (r.store.take i).countP (·.streamId = streamId) ≤ 1) <| by
    constructor
    · intro h i p hp
      obtain ⟨hi, rfl⟩ := List.getElem?_eq_some_iff.mp hp
      exact h ⟨i, hi⟩
    · exact fun h i => h i _ (List.getElem?_eq_getElem i.isLt)

theorem visitFrom_kept (streamId : UInt16) (store : List PartialMessage) (c : Compaction) (i : Nat) :
    (c.visitFrom streamId i store).kept = c.kept ++ store.filter (·.streamId ≠ streamId) := by
  induction store generalizing c i with
  | nil => simp [Compaction.visitFrom]
  | cons p store ih =>
      rw [Compaction.visitFrom, ih, Compaction.visit]
      by_cases hp : p.streamId = streamId <;> simp [hp]

theorem visitFrom_firstHole (streamId : UInt16) (store : List PartialMessage) (c : Compaction) (i : Nat) :
    (c.visitFrom streamId i store).firstHole =
      c.firstHole.or ((store.findIdx? (·.streamId = streamId)).map (· + i)) := by
  induction store generalizing c i with
  | nil => simp [Compaction.visitFrom]
  | cons p store ih =>
      rw [Compaction.visitFrom, ih, Compaction.visit, List.findIdx?_cons]
      by_cases hp : p.streamId = streamId
      · cases c.firstHole <;> simp [hp]
      · simp [hp, Function.comp_def, Nat.add_assoc, Nat.add_comm 1]

theorem visitFrom_index (streamId : UInt16) (store : List PartialMessage) (c : Compaction) (i : Nat)
    (k : Key) :
    (c.visitFrom streamId i store).index[k]? =
      if ∃ p ∈ store, p.streamId = streamId ∧ p.key = k then none else c.index[k]? := by
  induction store generalizing c i with
  | nil => simp [Compaction.visitFrom]
  | cons p store ih =>
      rw [Compaction.visitFrom, ih, Compaction.visit]
      by_cases hp : p.streamId = streamId
      · have herase : (c.index.erase p.key)[k]? = Function.update (fun k => c.index[k]?) p.key none k :=
          congrFun (slots_erase [] [] c.index p.key) k
        simp only [hp, if_true, herase, Function.update_apply, List.mem_cons, exists_eq_or_imp,
          true_and, eq_comm (a := k)]
        split
        · next h => simp [h]
        · next h => simp [h]
      · simp [hp]

/-- The slide moves an entry by one slot as soon as one dropped partial is in front of it. -/
theorem slide_findIdx? (q : PartialMessage → Bool) (store : List PartialMessage) (i : Nat)
    (hi : i ≤ store.length) :
    slide (store.findIdx? q) i = if 0 < (store.take i).countP q then i - 1 else i := by
  cases hf : store.findIdx? q with
  | none =>
      have hnone : ¬ 0 < (store.take i).countP q := by
        rw [List.countP_pos_iff]
        rintro ⟨p, hp, hq⟩
        rw [List.findIdx?_eq_none_iff.mp hf p (List.mem_of_mem_take hp)] at hq
        exact Bool.false_ne_true hq
      rw [if_neg hnone]
      rfl
  | some hole =>
      obtain ⟨hlt, hq, hfirst⟩ := List.findIdx?_eq_some_iff_getElem.mp hf
      by_cases h : hole < i
      · have hpos : 0 < (store.take i).countP q :=
          List.countP_pos_iff.mpr ⟨store[hole], by
            rw [List.mem_take_iff_getElem]
            exact ⟨hole, by omega, rfl⟩, hq⟩
        simp [slide, h, hpos]
      · have hnone : ¬ 0 < (store.take i).countP q := by
          rw [List.countP_pos_iff]
          rintro ⟨p, hp, hqp⟩
          obtain ⟨j, hj, rfl⟩ := List.mem_take_iff_getElem.mp hp
          exact hfirst j (by omega) hqp
        rw [if_neg hnone]
        simp [slide, h]

theorem resetStream_slots {r : Reassembler} (streamId : UInt16) (k : Key) :
    (r.resetStream streamId).2.slots k =
      if ∃ p ∈ r.store, p.streamId = streamId ∧ p.key = k then none
      else (r.slots k).map (slide (r.store.findIdx? (·.streamId = streamId))) := by
  simp only [slots, resetStream, visitFrom_firstHole, Option.none_or]
  rw [Std.ExtTreeMap.getElem?_map, visitFrom_index]
  split <;> simp

theorem resetStream_store (r : Reassembler) (streamId : UInt16) :
    (r.resetStream streamId).2.store = r.store.filter (·.streamId ≠ streamId) := by
  simp [resetStream, visitFrom_kept]

theorem length_eq_countP_add (q : PartialMessage → Prop) [DecidablePred q]
    (store : List PartialMessage) {i : Nat} (hi : i ≤ store.length) :
    i = (store.take i).countP (fun p => ¬ q p) + (store.take i).countP (fun p => q p) := by
  have h := List.length_eq_countP_add_countP (fun p => decide (q p)) (l := store.take i)
  rw [List.length_take_of_le hi] at h
  simpa [Nat.add_comm] using h

/-- A reset of an agreeing reassembler keeps the agreement exactly when it is safe. -/
theorem resetStream_agrees_iff {r : Reassembler} (h : r.Wellformed) (streamId : UInt16) :
    Agrees PartialMessage.key (r.resetStream streamId).2.store (r.resetStream streamId).2.slots ↔
      r.ResetSafe streamId := by
  have hindex : ∀ i p, r.store[i]? = some p →
      (r.resetStream streamId).2.slots p.key =
        if decide (p.streamId ≠ streamId)
        then some (slide (r.store.findIdx? (·.streamId = streamId)) i) else none := by
    intro i p hp
    rw [resetStream_slots, h.agrees.named i p hp]
    by_cases hs : p.streamId = streamId
    · have hex : ∃ q ∈ r.store, q.streamId = streamId ∧ q.key = p.key :=
        ⟨p, List.mem_of_getElem? hp, hs, rfl⟩
      simp [hs, hex]
    · have hex : ¬ ∃ q ∈ r.store, q.streamId = streamId ∧ q.key = p.key := by
        rintro ⟨q, -, hq, hk⟩
        exact hs ((congrArg Prod.fst hk).symm.trans hq)
      simp [hs, hex]
  have hnone : ∀ k, r.slots k = none → (r.resetStream streamId).2.slots k = none := by
    intro k hk
    rw [resetStream_slots, hk]
    simp
  rw [resetStream_store, h.agrees.compact_iff hindex hnone]
  refine forall₃_congr fun i p hp => ?_
  have hi : i ≤ r.store.length := (List.getElem?_eq_some_iff.mp hp).1.le
  have hsplit := length_eq_countP_add (fun p => p.streamId = streamId) r.store hi
  rw [slide_findIdx? _ _ _ hi]
  simp only [decide_eq_true_eq, ne_eq]
  refine imp_congr_right fun _ => ?_
  split <;> omega

theorem resetStream_refines {r : Reassembler} (h : r.Wellformed) {streamId : UInt16}
    (hsafe : r.ResetSafe streamId) :
    (r.resetStream streamId).2.Wellformed ∧
      (r.resetStream streamId).2.partials = r.partials.reset streamId := by
  have hagrees := (resetStream_agrees_iff h streamId).mpr hsafe
  refine ⟨⟨hagrees, fun p hp => ?_⟩, ?_⟩
  · rw [resetStream_store] at hp
    exact h.bounded p (List.mem_of_mem_filter hp)
  · funext k
    by_cases hk : k.1 = streamId
    · rw [Partials.reset, if_pos hk]
      by_contra hne
      obtain ⟨p, hp⟩ := Option.ne_none_iff_exists'.mp hne
      obtain ⟨hmem, rfl⟩ := hagrees.view_eq_some_iff.mp hp
      rw [resetStream_store, List.mem_filter] at hmem
      exact absurd hk (by simpa [PartialMessage.key] using hmem.2)
    · rw [Partials.reset, if_neg hk]
      refine hagrees.view_congr h.agrees fun p hp => ?_
      subst hp
      rw [resetStream_store, List.mem_filter]
      simpa [PartialMessage.key] using fun _ => hk

end Reassembler

end Bytewright.Streamcodec
