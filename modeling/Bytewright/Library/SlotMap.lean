import Mathlib.Data.List.Basic
import Mathlib.Logic.Function.Basic

/-! # Slot maps: a vector of keyed values beside a map from keys to positions -/

namespace Bytewright.Library

variable {κ ν : Type*} (key : ν → κ)

/-- The map names exactly the slots of the vector, each under the key it carries. -/
structure Agrees (store : List ν) (index : κ → Option Nat) : Prop where
  sound : ∀ k i, index k = some i → ∃ p, store[i]? = some p ∧ key p = k
  named : ∀ i p, store[i]? = some p → index (key p) = some i

/-- What a slot map holds: the value in the slot its index names. -/
def view (store : List ν) (index : κ → Option Nat) (k : κ) : Option ν :=
  (index k).bind (fun i => store[i]?)

variable {key} {store : List ν} {index : κ → Option Nat}

/-! ### Reading an agreeing slot map -/

theorem getElem?_snoc_eq_some {p q : ν} {i : Nat} (h : (store ++ [p])[i]? = some q) :
    store[i]? = some q ∨ i = store.length ∧ q = p := by
  rcases Nat.lt_trichotomy i store.length with hi | rfl | hi
  · rw [List.getElem?_append_left hi] at h
    exact .inl h
  · exact .inr ⟨rfl, by simpa [eq_comm] using h⟩
  · have hlen := (List.getElem?_eq_some_iff.mp h).1
    simp at hlen
    omega

theorem view_of_index {k : κ} {i : Nat} (h : index k = some i) :
    view store index k = store[i]? := by
  simp [view, h]

namespace Agrees

theorem view_eq_some_iff (h : Agrees key store index) {k : κ} {p : ν} :
    view store index k = some p ↔ p ∈ store ∧ key p = k := by
  constructor
  · intro hv
    obtain ⟨i, hi, hp⟩ := Option.bind_eq_some_iff.mp hv
    obtain ⟨q, hq, hk⟩ := h.sound k i hi
    obtain rfl : p = q := Option.some.inj (hp.symm.trans hq)
    exact ⟨List.mem_of_getElem? hp, hk⟩
  · rintro ⟨hp, rfl⟩
    obtain ⟨i, hi⟩ := List.mem_iff_getElem?.mp hp
    rw [view_of_index (h.named i p hi), hi]

/-- Every slot is named by one entry, and by one only. -/
theorem named_once (h : Agrees key store index) {i : Nat} (hi : i < store.length) :
    ∃! k, index k = some i := by
  refine ⟨key store[i], h.named i _ (List.getElem?_eq_getElem hi), fun k hk => ?_⟩
  obtain ⟨p, hp, rfl⟩ := h.sound k i hk
  rw [List.getElem?_eq_getElem hi] at hp
  rw [Option.some.inj hp]

theorem of_named_once (hs : ∀ k i, index k = some i → ∃ p, store[i]? = some p ∧ key p = k)
    (hn : ∀ i < store.length, ∃! k, index k = some i) : Agrees key store index := by
  refine ⟨hs, fun i p hp => ?_⟩
  obtain ⟨hi, -⟩ := List.getElem?_eq_some_iff.mp hp
  obtain ⟨k, hk, -⟩ := hn i hi
  obtain ⟨q, hq, rfl⟩ := hs k i hk
  obtain rfl : p = q := Option.some.inj (hp.symm.trans hq)
  exact hk

theorem nil : Agrees key [] (fun _ => none) :=
  ⟨fun _ _ h => (Option.some_ne_none _ h.symm).elim, fun _ _ h => by simp at h⟩

/-- Two agreeing slot maps hold the same values when their stores have the same members. -/
theorem view_congr {store' : List ν} {index' : κ → Option Nat} (h : Agrees key store index)
    (h' : Agrees key store' index') {k : κ}
    (hmem : ∀ p, key p = k → (p ∈ store ↔ p ∈ store')) : view store index k = view store' index' k := by
  ext p
  rw [h.view_eq_some_iff, h'.view_eq_some_iff]
  constructor
  · rintro ⟨hp, hk⟩
    exact ⟨(hmem p hk).mp hp, hk⟩
  · rintro ⟨hp, hk⟩
    exact ⟨(hmem p hk).mpr hp, hk⟩

/-! ### Adding, changing and removing one slot -/

theorem set (h : Agrees key store index) {i : Nat} {p q : ν} (hq : store[i]? = some q)
    (hk : key p = key q) : Agrees key (store.set i p) index := by
  have hlt : i < store.length := (List.getElem?_eq_some_iff.mp hq).1
  constructor
  · intro k j hj
    obtain ⟨r, hr, rfl⟩ := h.sound k j hj
    by_cases hij : i = j
    · subst hij
      obtain rfl : q = r := Option.some.inj (hq.symm.trans hr)
      exact ⟨p, by rw [List.getElem?_set_self hlt], hk⟩
    · exact ⟨r, by rw [List.getElem?_set_ne hij, hr], rfl⟩
  · intro j r hr
    by_cases hij : i = j
    · subst hij
      rw [List.getElem?_set_self hlt, Option.some.injEq] at hr
      rw [← hr, hk]
      exact h.named i q hq
    · rw [List.getElem?_set_ne hij] at hr
      exact h.named j r hr

variable [DecidableEq κ]

theorem push (h : Agrees key store index) {p : ν} (hp : index (key p) = none) :
    Agrees key (store ++ [p]) (Function.update index (key p) (some store.length)) := by
  constructor
  · intro k i hi
    by_cases hk : k = key p
    · subst hk
      rw [Function.update_self, Option.some.injEq] at hi
      exact ⟨p, by simp [← hi], rfl⟩
    · rw [Function.update_of_ne hk] at hi
      obtain ⟨q, hq, rfl⟩ := h.sound k i hi
      exact ⟨q, by rw [List.getElem?_append_left (List.getElem?_eq_some_iff.mp hq).1, hq], rfl⟩
  · intro i q hq
    rcases getElem?_snoc_eq_some hq with hq | ⟨rfl, rfl⟩
    · have hn := h.named i q hq
      rw [Function.update_of_ne (fun he => by simp [he, hp] at hn), hn]
    · rw [Function.update_self]

theorem view_set (h : Agrees key store index) {i : Nat} {p q : ν} (hq : store[i]? = some q) :
    view (store.set i p) index = Function.update (view store index) (key q) (some p) := by
  have hlt : i < store.length := (List.getElem?_eq_some_iff.mp hq).1
  funext k
  by_cases hkq : k = key q
  · subst hkq
    rw [Function.update_self, view_of_index (h.named i q hq), List.getElem?_set_self hlt]
  · rw [Function.update_of_ne hkq]
    cases hi : index k with
    | none => simp [view, hi]
    | some j =>
        obtain ⟨r, hr, rfl⟩ := h.sound k j hi
        have hij : i ≠ j := fun he => by
          subst he
          exact hkq (by rw [Option.some.inj (hr.symm.trans hq)])
        rw [view_of_index hi, view_of_index hi, List.getElem?_set_ne hij]

theorem view_push (h : Agrees key store index) {p : ν} :
    view (store ++ [p]) (Function.update index (key p) (some store.length)) =
      Function.update (view store index) (key p) (some p) := by
  funext k
  by_cases hk : k = key p
  · subst hk
    simp [view]
  · rw [Function.update_of_ne hk]
    simp only [view, Function.update_of_ne hk]
    cases hi : index k with
    | none => rfl
    | some i =>
        obtain ⟨q, hq, -⟩ := h.sound k i hi
        exact List.getElem?_append_left (List.getElem?_eq_some_iff.mp hq).1

/-- Dropping the last slot with its entry. -/
theorem dropLast {p : ν} (h : Agrees key (store ++ [p]) index) :
    Agrees key store (Function.update index (key p) none) := by
  constructor
  · intro k i hi
    by_cases hk : k = key p
    · simp [hk] at hi
    · rw [Function.update_of_ne hk] at hi
      obtain ⟨q, hq, rfl⟩ := h.sound k i hi
      rcases getElem?_snoc_eq_some hq with hq | ⟨-, rfl⟩
      · exact ⟨q, hq, rfl⟩
      · exact absurd rfl hk
  · intro i q hq
    have hlt : i < store.length := (List.getElem?_eq_some_iff.mp hq).1
    have hq' : (store ++ [p])[i]? = some q := by rw [List.getElem?_append_left hlt, hq]
    have hlast : (store ++ [p])[store.length]? = some p := by simp
    have hne : key q ≠ key p := fun he => by
      have hi := h.named i q hq'
      rw [he, h.named _ p hlast, Option.some.injEq] at hi
      omega
    rw [Function.update_of_ne hne]
    exact h.named i q hq'

theorem view_dropLast {p : ν} (h : Agrees key (store ++ [p]) index) :
    view store (Function.update index (key p) none) =
      Function.update (view (store ++ [p]) index) (key p) none := by
  funext k
  by_cases hk : k = key p
  · simp [view, hk]
  · rw [Function.update_of_ne hk]
    simp only [view, Function.update_of_ne hk]
    cases hi : index k with
    | none => rfl
    | some i =>
        obtain ⟨q, hq, rfl⟩ := h.sound k i hi
        rcases getElem?_snoc_eq_some hq with hq' | ⟨-, rfl⟩
        · exact hq'.trans hq.symm
        · exact absurd rfl hk

/-- Swap-and-pop: slot `i` takes the last slot's value, whose entry then names `i`. -/
theorem swapPop {i : Nat} {p q : ν} (h : Agrees key (store ++ [p]) index)
    (hq : store[i]? = some q) :
    Agrees key (store.set i p) (Function.update (Function.update index (key q) none) (key p) (some i)) := by
  have hlt : i < store.length := (List.getElem?_eq_some_iff.mp hq).1
  have hq' : (store ++ [p])[i]? = some q := by rw [List.getElem?_append_left hlt, hq]
  have hlast : (store ++ [p])[store.length]? = some p := by simp
  have hne : ∀ j r, (store ++ [p])[j]? = some r → j ≠ i → key r ≠ key q := fun j r hr hj he => by
    have hi := h.named j r hr
    rw [he, h.named i q hq', Option.some.injEq] at hi
    exact hj hi.symm
  constructor
  · intro k j hj
    by_cases hk : k = key p
    · subst hk
      rw [Function.update_self, Option.some.injEq] at hj
      exact ⟨p, by rw [← hj, List.getElem?_set_self hlt], rfl⟩
    · rw [Function.update_of_ne hk] at hj
      by_cases hkq : k = key q
      · simp [hkq] at hj
      · rw [Function.update_of_ne hkq] at hj
        obtain ⟨r, hr, rfl⟩ := h.sound k j hj
        have hij : i ≠ j := fun he => hkq (by
          subst he
          rw [Option.some.inj (hr.symm.trans hq')])
        rcases getElem?_snoc_eq_some hr with hr | ⟨-, rfl⟩
        · exact ⟨r, by rw [List.getElem?_set_ne hij, hr], rfl⟩
        · exact absurd rfl hk
  · intro j r hr
    by_cases hij : i = j
    · subst hij
      rw [List.getElem?_set_self hlt, Option.some.injEq] at hr
      rw [← hr, Function.update_self]
    · rw [List.getElem?_set_ne hij] at hr
      have hjlt : j < store.length := (List.getElem?_eq_some_iff.mp hr).1
      have hr' : (store ++ [p])[j]? = some r := by rw [List.getElem?_append_left hjlt, hr]
      have hnp : key r ≠ key p := fun he => by
        have hj := h.named j r hr'
        rw [he, h.named _ p hlast, Option.some.injEq] at hj
        omega
      rw [Function.update_of_ne hnp, Function.update_of_ne (hne j r hr' (Ne.symm hij))]
      exact h.named j r hr'

theorem view_swapPop {i : Nat} {p q : ν} (h : Agrees key (store ++ [p]) index)
    (hq : store[i]? = some q) :
    view (store.set i p)
        (Function.update (Function.update index (key q) none) (key p) (some i)) =
      Function.update (view (store ++ [p]) index) (key q) none := by
  have hlt : i < store.length := (List.getElem?_eq_some_iff.mp hq).1
  have hq' : (store ++ [p])[i]? = some q := by rw [List.getElem?_append_left hlt, hq]
  have hp : (store ++ [p])[store.length]? = some p := by simp
  have hpq : key p ≠ key q := fun he => by
    have hi := h.named _ p hp
    rw [he, h.named i q hq', Option.some.injEq] at hi
    omega
  funext k
  by_cases hk : k = key p
  · subst hk
    rw [Function.update_of_ne hpq, view_of_index (h.named _ p hp), hp,
      view_of_index (Function.update_self ..), List.getElem?_set_self hlt]
  · by_cases hkq : k = key q
    · subst hkq
      simp [view, Function.update_of_ne hk]
    · rw [Function.update_of_ne hkq]
      simp only [view, Function.update_of_ne hk, Function.update_of_ne hkq]
      cases hj : index k with
      | none => rfl
      | some j =>
          obtain ⟨r, hr, rfl⟩ := h.sound k j hj
          have hij : i ≠ j := fun he => hkq (by
            subst he
            rw [Option.some.inj (hr.symm.trans hq')])
          rcases getElem?_snoc_eq_some hr with hr' | ⟨-, rfl⟩
          · simp only [Option.bind_some, List.getElem?_set_ne hij, hr, hr']
          · exact absurd rfl hk

end Agrees

/-! ### Compaction -/

/-- Where a kept element ends up: behind the kept elements in front of it. -/
theorem getElem?_filter_countP (keep : ν → Bool) {i : Nat} {p : ν} (hp : store[i]? = some p)
    (hk : keep p = true) : (store.filter keep)[(store.take i).countP keep]? = some p := by
  induction store generalizing i with
  | nil => simp at hp
  | cons q store ih =>
      cases i with
      | zero =>
          obtain rfl : q = p := by simpa using hp
          simp [hk]
      | succ i =>
          have h := ih (by simpa using hp)
          cases hq : keep q <;> simp [hq, h]

theorem exists_of_getElem?_filter (keep : ν → Bool) {j : Nat} {p : ν}
    (hp : (store.filter keep)[j]? = some p) :
    ∃ i, store[i]? = some p ∧ keep p = true ∧ j = (store.take i).countP keep := by
  induction store generalizing j with
  | nil => simp at hp
  | cons q store ih =>
      cases hq : keep q with
      | false =>
          rw [List.filter_cons_of_neg (by simp [hq])] at hp
          obtain ⟨i, hi, hk, hj⟩ := ih hp
          exact ⟨i + 1, by simpa using hi, hk, by simp [hq, hj]⟩
      | true =>
          rw [List.filter_cons_of_pos hq] at hp
          cases j with
          | zero =>
              obtain rfl : q = p := by simpa using hp
              exact ⟨0, by simp, hq, by simp⟩
          | succ j =>
              obtain ⟨i, hi, hk, hj⟩ := ih (by simpa using hp)
              exact ⟨i + 1, by simpa using hi, hk, by simp [hq, hj]⟩

/-- Compaction keeps the agreement exactly if every surviving entry moves to the number of
survivors in front of it. -/
theorem Agrees.compact_iff (h : Agrees key store index) {keep : ν → Bool} {move : Nat → Nat}
    {index' : κ → Option Nat}
    (hindex : ∀ i p, store[i]? = some p → index' (key p) = if keep p then some (move i) else none)
    (hnone : ∀ k, index k = none → index' k = none) :
    Agrees key (store.filter keep) index' ↔
      ∀ i p, store[i]? = some p → keep p = true → move i = (store.take i).countP keep := by
  constructor
  · intro hc i p hp hk
    have hn := hc.named _ p (getElem?_filter_countP keep hp hk)
    rw [hindex i p hp, if_pos hk, Option.some.injEq] at hn
    exact hn
  · intro hmove
    constructor
    · intro k j hj
      cases hi : index k with
      | none => simp [hnone k hi] at hj
      | some i =>
          obtain ⟨p, hp, rfl⟩ := h.sound k i hi
          rw [hindex i p hp] at hj
          split at hj
          · next hk =>
              rw [Option.some.injEq] at hj
              exact ⟨p, by rw [← hj, hmove i p hp hk, getElem?_filter_countP keep hp hk], rfl⟩
          · cases hj
    · intro j p hp
      obtain ⟨i, hi, hk, rfl⟩ := exists_of_getElem?_filter keep hp
      rw [hindex i p hi, if_pos hk, hmove i p hi hk]

end Bytewright.Library
