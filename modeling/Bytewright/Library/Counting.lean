import Mathlib.Algebra.BigOperators.Group.List.Basic
import Mathlib.Algebra.GroupWithZero.Nat
import Mathlib.Data.List.Nodup

/-! # Counting in a list: by key, and over pairs of neighbours -/

namespace Bytewright.Library

variable {α β : Type*}

/-- Each element with the one behind it. -/
def neighbours (l : List α) : List (α × α) := l.zip l.tail

theorem neighbours_append (l : List α) (x : α) :
    neighbours (l ++ [x]) = neighbours l ++ (l.getLast?.map (·, x)).toList := by
  induction l with
  | nil => rfl
  | cons a l ih =>
      cases l with
      | nil => rfl
      | cons b l =>
          change (a, b) :: neighbours (b :: l ++ [x]) = (a, b) :: neighbours (b :: l) ++ _
          rw [ih, List.cons_append, List.getLast?_cons_cons]

theorem countP_split (p q : α → Bool) (l : List α) :
    (l.countP fun x => p x && q x) + (l.countP fun x => p x && !q x) = l.countP p := by
  rw [List.countP_eq_countP_filter_add l p q, List.countP_filter, List.countP_filter]

variable [DecidableEq β]

/-- The elements with a given key. -/
def fiber (key : α → β) (k : β) (l : List α) : List α := l.filter fun x => key x = k

theorem sum_indicator (ks : List β) (k : β) (n : Nat) :
    (ks.map fun k' => if k = k' then n else 0).sum = ks.count k * n := by
  induction ks with
  | nil => simp
  | cons k' ks ih =>
      rw [List.map_cons, List.sum_cons, ih, List.count_cons, Nat.add_mul, Nat.add_comm]
      by_cases hk : k = k'
      · simp [hk]
      · simp [hk, Ne.symm hk]

/-- Counting key by key counts every element once. -/
theorem sum_countP_fiber (key : α → β) (p : α → Bool) {ks : List β} (hks : ks.Nodup) (l : List α)
    (hmem : ∀ x ∈ l, key x ∈ ks) : (ks.map fun k => (fiber key k l).countP p).sum = l.countP p := by
  induction l with
  | nil => simp [fiber]
  | cons x l ih =>
      have hcons : ∀ k, (fiber key k (x :: l)).countP p =
          (fiber key k l).countP p + if key x = k then (if p x then 1 else 0) else 0 := by
        intro k
        by_cases hk : key x = k <;> simp [fiber, hk, List.countP_cons]
      have hx : ks.count (key x) = 1 := List.count_eq_one_of_mem hks (hmem x (List.mem_cons_self ..))
      simp only [hcons]
      rw [List.sum_map_add, ih fun y hy => hmem y (List.mem_cons_of_mem x hy), sum_indicator, hx,
        Nat.one_mul, List.countP_cons]

end Bytewright.Library
