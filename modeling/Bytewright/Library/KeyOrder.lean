import Mathlib.Data.List.Basic

/-! # Lists in the order of a key

Stable sorting keeps ties as they are, and the point that splits an ordered list finds the first element
with a key. -/

namespace Bytewright.Library

/-! ### Stable sorting -/

section Stable

variable {α : Type*} {le : α → α → Bool}

/-- Elements that are tied come out of the sort as they went in. -/
theorem filter_mergeSort (htrans : ∀ a b c, le a b = true → le b c = true → le a c = true)
    (htotal : ∀ a b, (le a b || le b a) = true) {p : α → Bool}
    (htied : ∀ a b, p a = true → p b = true → le a b = true) (l : List α) :
    (l.mergeSort le).filter p = l.filter p := by
  have hpair : (l.filter p).Pairwise (fun a b => le a b = true) := by
    apply List.pairwise_of_forall_mem_list
    intro a ha b hb
    exact htied a b (List.mem_filter.mp ha).2 (List.mem_filter.mp hb).2
  have hsub : (l.filter p).Sublist (l.mergeSort le) :=
    List.sublist_mergeSort htrans htotal hpair List.filter_sublist
  have hfilter := hsub.filter p
  rw [List.filter_filter] at hfilter
  simp only [Bool.and_self] at hfilter
  have hlen := ((l.mergeSort_perm le).filter p).length_eq
  exact (hfilter.eq_of_length hlen.symm).symm

end Stable

/-! ### The place of a key -/

section Place

variable {α β : Type*} [LE β] [LT β] [Std.IsLinearOrder β] [Std.LawfulOrderLT β] [DecidableEq β]
  {key : α → β} {l : List α} {k : β} {n : Nat}

/-- The elements stand in the order of their keys. -/
def Ordered (key : α → β) (l : List α) : Prop := l.Pairwise fun a b => key a ≤ key b

/-- The keys in front of position `n` are below `k`, and those behind it are not. -/
structure Splits (key : α → β) (l : List α) (k : β) (n : Nat) : Prop where
  below : ∀ a ∈ l.take n, key a < k
  above : ∀ a ∈ l.drop n, k ≤ key a

/-- The first element with a key stands where the list splits, or nowhere. -/
theorem Splits.find? (h : Splits key l k n) (hord : Ordered key l) :
    l.find? (fun a => decide (key a = k)) = l[n]?.filter (fun a => decide (key a = k)) := by
  have hfront : (l.take n).find? (fun a => decide (key a = k)) = none := by
    rw [List.find?_eq_none]
    intro a ha heq
    exact Std.lt_irrefl (of_decide_eq_true heq ▸ h.below a ha)
  conv => lhs; rw [← List.take_append_drop n l]
  rw [List.find?_append, hfront, Option.none_or]
  have habove := h.above
  have hback : Ordered key (l.drop n) := hord.sublist (List.drop_sublist n l)
  have hget : l[n]? = (l.drop n).head? := List.head?_drop.symm
  rw [hget]
  cases hdrop : l.drop n with
  | nil => rfl
  | cons a rest =>
      rw [hdrop] at habove hback
      rw [List.head?_cons, List.find?_cons, Option.filter_some]
      by_cases ha : key a = k
      · rw [decide_eq_true ha]
        rfl
      · have hrest : rest.find? (fun a => decide (key a = k)) = none := by
          rw [List.find?_eq_none]
          intro b hb heq
          have hle := (List.pairwise_cons.mp hback).1 b hb
          rw [of_decide_eq_true heq] at hle
          exact ha (Std.le_antisymm hle (habove a List.mem_cons_self))
        rw [decide_eq_false ha, hrest]
        rfl

end Place

end Bytewright.Library
