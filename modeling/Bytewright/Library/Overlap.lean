import Mathlib.Data.List.Rotate

/-! # Words that overlap themselves

A word in front of another that is also a word behind it, and what that makes the two repeat. -/

namespace Bytewright.Library

variable {α : Type}

/-- A window that moves along a word it repeats into is rotated by as much as it moves. -/
theorem rotate_of_overlap {w w' x : List α} (h : w ++ x = x ++ w') : w' = w.rotate x.length := by
  induction x generalizing w with
  | nil => simpa using h.symm
  | cons a x ih =>
      cases w with
      | nil => simpa using h
      | cons b w =>
          rw [List.cons_append, List.cons_append, List.cons.injEq] at h
          rcases h with ⟨rfl, h⟩
          rw [List.length_cons, List.rotate_cons_succ]
          exact ih (by rw [List.append_assoc]; exact h)

/-- So it is when something stands behind. -/
theorem rotate_of_append {w x y z : List α} (h : w ++ (x ++ y) = x ++ z) :
    z = w.rotate x.length ++ y := by
  have hfront : x <+: w ++ (x ++ y) := h ▸ List.prefix_append x z
  have hback : w ++ x <+: w ++ (x ++ y) := by
    rw [← List.append_assoc]
    exact List.prefix_append (w ++ x) y
  rcases List.prefix_of_prefix_length_le hfront hback (by simp) with ⟨w', hw'⟩
  have hmoved : x ++ (w' ++ y) = x ++ z := by rw [← h, ← List.append_assoc, hw', List.append_assoc]
  rw [← rotate_of_overlap hw'.symm]
  exact (List.append_cancel_left hmoved).symm

/-- A word that goes on in front of itself repeats what stands there. -/
theorem prefix_append_self_iff {w x : List α} (hw : w ≠ []) :
    x <+: w ++ x ↔ ∀ i < x.length, x[i]? = w[i % w.length]? := by
  have hpos : 0 < w.length := List.length_pos_iff.mpr hw
  constructor
  · rintro ⟨y, hy⟩ i
    induction i using Nat.strong_induction_on with
    | h i ih =>
        intro hi
        have hget : x[i]? = (w ++ x)[i]? := by rw [← hy, List.getElem?_append_left hi]
        rw [hget]
        by_cases hlt : i < w.length
        · rw [List.getElem?_append_left hlt, Nat.mod_eq_of_lt hlt]
        · have hle : w.length ≤ i := Nat.le_of_not_lt hlt
          rw [List.getElem?_append_right hle, ih _ (by omega) (by omega), Nat.mod_eq_sub_mod hle]
  · intro h
    rw [List.prefix_iff_eq_take]
    apply List.ext_getElem?
    intro i
    rw [List.getElem?_take]
    split
    · next hi =>
      by_cases hlt : i < w.length
      · rw [h i hi, List.getElem?_append_left hlt, Nat.mod_eq_of_lt hlt]
      · have hle : w.length ≤ i := Nat.le_of_not_lt hlt
        rw [h i hi, List.getElem?_append_right hle, h _ (by omega), Nat.mod_eq_sub_mod hle]
    · next hi => exact List.getElem?_eq_none (Nat.le_of_not_lt hi)

end Bytewright.Library
