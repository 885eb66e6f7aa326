import Mathlib.Data.List.Pairwise
import Mathlib.Logic.Function.Basic

/-! # Keys in the order of their first occurrence, and updates of a map -/

namespace Bytewright.Library

variable {α β κ : Type*}

/-! ### First occurrences -/

section FirstOccurrences

variable [BEq κ]

/-- `x` occurs in the list before `y` does. -/
def FirstBefore (l : List κ) (x y : κ) : Prop := l.idxOf x < l.idxOf y

theorem nodup_of_firstBefore {l xs : List κ} (h : xs.Pairwise (FirstBefore l)) : xs.Nodup := by
  refine h.imp fun {x y} hxy => ?_
  rintro rfl
  exact Nat.lt_irrefl _ hxy

variable [LawfulBEq κ]

theorem firstBefore_cons {a x y : κ} {l : List κ} :
    FirstBefore (a :: l) x y ↔ a ≠ y ∧ (a = x ∨ FirstBefore l x y) := by
  unfold FirstBefore
  simp only [List.idxOf_cons, cond_eq_ite]
  by_cases hay : a = y
  · simp [hay]
  · have hne : ¬ (a == y) = true := fun h => hay (beq_iff_eq.mp h)
    rw [if_neg hne]
    by_cases hax : a = x
    · subst hax
      simp [hay]
    · simp [hax, hay]

/-- Dropping other elements does not change which of two comes first. -/
theorem FirstBefore.of_filter {p : κ → Bool} {l : List κ} {x y : κ} (hy : p y = true)
    (h : FirstBefore (l.filter p) x y) : FirstBefore l x y := by
  induction l with
  | nil => exact h
  | cons a l ih =>
      rw [firstBefore_cons]
      by_cases ha : p a = true
      · rw [List.filter_cons_of_pos ha, firstBefore_cons] at h
        exact ⟨h.1, h.2.imp_right ih⟩
      · rw [List.filter_cons_of_neg ha] at h
        have hay : a ≠ y := fun heq => ha (heq ▸ hy)
        exact ⟨hay, .inr (ih h)⟩

/-- What is left when repetitions are dropped stands in the order of the first occurrences. -/
theorem pairwise_eraseDups (l : List κ) : l.eraseDups.Pairwise (FirstBefore l) := by
  induction hn : l.length using Nat.strongRecOn generalizing l with
  | ind n ih =>
      cases l with
      | nil => simp
      | cons a l =>
          have hne : ∀ x ∈ (l.filter fun b => !b == a).eraseDups, x ≠ a := by
            intro x hx
            simpa using (List.mem_filter.mp (List.mem_eraseDups.mp hx)).2
          have hlen : (l.filter fun b => !b == a).length < n := by
            have := List.length_filter_le (fun b => !b == a) l
            simp only [List.length_cons] at hn
            omega
          rw [List.eraseDups_cons, List.pairwise_cons]
          constructor
          · exact fun x hx => firstBefore_cons.mpr ⟨(hne x hx).symm, .inl rfl⟩
          · refine (ih _ hlen _ rfl).imp_of_mem fun {x y} hx hy h => firstBefore_cons.mpr ?_
            have hl : FirstBefore l x y := h.of_filter (by simpa using hne y hy)
            exact ⟨(hne y hy).symm, .inr hl⟩

/-- A loop with a set of the keys it has met emits once for each key, where it first occurs. -/
theorem seenLoop_eq {key : α → κ} {emit : κ → Option β} {loop : List κ → List α → List β}
    (hnil : ∀ seen, loop seen [] = [])
    (hseen : ∀ seen x xs, key x ∈ seen → loop seen (x :: xs) = loop seen xs)
    (hfresh : ∀ seen x xs, key x ∉ seen →
      loop seen (x :: xs) = (emit (key x)).toList ++ loop (key x :: seen) xs) (xs : List α) :
    ∀ seen, loop seen xs = ((xs.map key).filter (· ∉ seen)).eraseDups.filterMap emit := by
  induction xs with
  | nil => exact hnil
  | cons x xs ih =>
      intro seen
      by_cases hx : key x ∈ seen
      · rw [hseen seen x xs hx, ih, List.map_cons, List.filter_cons_of_neg (by simpa using hx)]
      · have hrest : ((xs.map key).filter (· ∉ seen)).filter (fun k => !k == key x) =
            (xs.map key).filter (· ∉ key x :: seen) := by
          rw [List.filter_filter]
          refine List.filter_congr fun k _ => ?_
          by_cases hk : k = key x <;> simp [hk]
        rw [hfresh seen x xs hx, ih, List.map_cons, List.filter_cons_of_pos (by simpa using hx),
          List.eraseDups_cons, hrest, List.filterMap_cons]
        cases emit (key x) <;> rfl

end FirstOccurrences

/-! ### Updates -/

section Updates

variable [DecidableEq κ]

/-- The map after the updates, one after the other. -/
def applyUpdates (m : κ → β) (updates : List (κ × β)) : κ → β :=
  updates.foldl (fun m u => Function.update m u.1 u.2) m

/-- Updates to the values of `m'`, at every key where `m` has another, lead to `m'`. -/
theorem applyUpdates_eq {m m' : κ → β} {updates : List (κ × β)} (hval : ∀ u ∈ updates, u.2 = m' u.1)
    (hall : ∀ k, m k ≠ m' k → k ∈ updates.map Prod.fst) : applyUpdates m updates = m' := by
  induction updates generalizing m with
  | nil =>
      funext k
      by_contra hne
      exact absurd (hall k hne) List.not_mem_nil
  | cons u updates ih =>
      refine ih (fun v hv => hval v (List.mem_cons_of_mem u hv)) fun k hk => ?_
      dsimp only at hk
      by_cases hu : k = u.1
      · subst hu
        rw [Function.update_self] at hk
        exact absurd (hval u List.mem_cons_self) hk
      · rw [Function.update_of_ne hu] at hk
        exact (List.mem_cons.mp (hall k hk)).resolve_left hu

end Updates

end Bytewright.Library
