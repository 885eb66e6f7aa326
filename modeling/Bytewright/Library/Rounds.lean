import Mathlib.Data.List.Nodup

/-! # Collecting the same set over and over -/

namespace Bytewright.Library

variable {α : Type*} [DecidableEq α]

/-- How often `wanted` gets complete when the elements of a list are collected one by one and a
complete collection is given away. `seen` is what the current collection holds. -/
def rounds (wanted seen : List α) : List α → Nat
  | [] => 0
  | x :: xs =>
    if ∀ w ∈ wanted, w ∈ x :: seen then rounds wanted [] xs + 1 else rounds wanted (x :: seen) xs

theorem rounds_cons_full {wanted seen : List α} {x : α} (h : ∀ w ∈ wanted, w ∈ x :: seen)
    (xs : List α) : rounds wanted seen (x :: xs) = rounds wanted [] xs + 1 := if_pos h

theorem rounds_cons_open {wanted seen : List α} {x : α} (h : ¬ ∀ w ∈ wanted, w ∈ x :: seen)
    (xs : List α) : rounds wanted seen (x :: xs) = rounds wanted (x :: seen) xs := if_neg h

/-- Each round uses up one copy of everything wanted. -/
theorem rounds_le_count {wanted : List α} {w : α} (hw : w ∈ wanted) (seen xs : List α) :
    rounds wanted seen xs ≤ seen.count w + xs.count w := by
  induction xs generalizing seen with
  | nil => exact Nat.zero_le _
  | cons x xs ih =>
      by_cases hfull : ∀ w ∈ wanted, w ∈ x :: seen
      · rw [rounds_cons_full hfull]
        have hrest := ih []
        have hpos : 0 < (x :: seen).count w := List.count_pos_iff.mpr (hfull w hw)
        rw [List.count_nil, Nat.zero_add] at hrest
        rw [List.count_cons] at hpos ⊢
        omega
      · rw [rounds_cons_open hfull]
        have hrest := ih (x :: seen)
        rw [List.count_cons] at hrest ⊢
        omega

/-- There is a round exactly if nothing wanted is missing in the end. -/
theorem rounds_pos_iff {wanted seen xs : List α} (hne : xs ≠ []) :
    0 < rounds wanted seen xs ↔ ∀ w ∈ wanted, w ∈ seen ∨ w ∈ xs := by
  induction xs generalizing seen with
  | nil => exact absurd rfl hne
  | cons x xs ih =>
      by_cases hfull : ∀ w ∈ wanted, w ∈ x :: seen
      · rw [rounds_cons_full hfull]
        refine iff_of_true (Nat.succ_pos _) fun w hw => ?_
        rcases List.mem_cons.mp (hfull w hw) with rfl | hseen
        · exact .inr (List.mem_cons_self ..)
        · exact .inl hseen
      · have hmove : ∀ w, w ∈ x :: seen ∨ w ∈ xs ↔ w ∈ seen ∨ w ∈ x :: xs := fun w => by
          rw [List.mem_cons, List.mem_cons]
          tauto
        rw [rounds_cons_open hfull]
        rcases xs with _ | ⟨y, ys⟩
        · refine iff_of_false (Nat.lt_irrefl 0) fun h => hfull fun w hw => ?_
          exact ((hmove w).mpr (h w hw)).resolve_right List.not_mem_nil
        · rw [ih (List.cons_ne_nil y ys)]
          exact forall₂_congr fun w _ => hmove w

end Bytewright.Library
