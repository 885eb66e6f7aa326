import Mathlib.Data.List.Basic
import Std.Data.ExtTreeMap

/-! # Positions in a sorted list of entries -/

namespace Bytewright.Library

variable {α β : Type*} [Ord α] {entries : List (α × β)}

/-- The entries from a key on. -/
def entriesFrom (entries : List (α × β)) (key : α) : List (α × β) :=
  entries.filter fun e => (compare key e.1).isLE

/-- The first of them has the first key that is not smaller. -/
theorem head?_entriesFrom (entries : List (α × β)) (key : α) :
    ((entriesFrom entries key).map Prod.fst).head? =
      (entries.map Prod.fst).find? fun k => (compare key k).isLE := by
  rw [entriesFrom, List.head?_map, List.head?_filter, List.find?_map]
  rfl

variable [Std.TransOrd α]

/-- In a sorted list they stand at its end. -/
theorem entriesFrom_suffix (h : entries.Pairwise fun a b => compare a.1 b.1 = .lt) (key : α) :
    entriesFrom entries key <:+ entries := by
  induction entries with
  | nil => exact List.suffix_rfl
  | cons e entries ih =>
      obtain ⟨hfirst, hrest⟩ := List.pairwise_cons.mp h
      by_cases hkey : (compare key e.1).isLE
      · have hall : ∀ e' ∈ e :: entries, (compare key e'.1).isLE := by
          intro e' he'
          cases he' with
          | head => exact hkey
          | tail _ he' => exact Std.TransCmp.isLE_trans hkey (Ordering.isLE_of_eq_lt (hfirst e' he'))
        exact ⟨[], List.filter_eq_self.mpr hall⟩
      · rw [entriesFrom, List.filter_cons_of_neg (p := fun e : α × β => (compare key e.1).isLE) hkey]
        exact (ih hrest).trans (List.suffix_cons e entries)

/-- Behind an entry of a sorted list comes the first greater key. -/
theorem find?_greater {front rest : List (α × β)} {e : α × β}
    (h : (front ++ e :: rest).Pairwise fun a b => compare a.1 b.1 = .lt) :
    ((front ++ e :: rest).map Prod.fst).find? (fun k => (compare e.1 k).isLT) = (rest.map Prod.fst).head? := by
  obtain ⟨-, hback, hfront⟩ := List.pairwise_append.mp h
  obtain ⟨hrest, -⟩ := List.pairwise_cons.mp hback
  have hnone : (front.map Prod.fst).find? (fun k => (compare e.1 k).isLT) = none := by
    rw [List.find?_eq_none]
    intro k hk
    obtain ⟨a, ha, rfl⟩ := List.mem_map.mp hk
    have hlt := hfront a ha e (List.mem_cons_self ..)
    rw [Std.OrientedCmp.gt_of_lt hlt]
    exact Bool.false_ne_true
  have heq : compare e.1 e.1 = .eq := Std.ReflCmp.compare_self
  have hself : ¬ (compare e.1 e.1).isLT = true := by
    rw [heq]
    exact Bool.false_ne_true
  rw [List.map_append, List.map_cons, List.find?_append, hnone, Option.none_or, List.find?_cons_of_neg (p := fun k => (compare e.1 k).isLT) hself]
  cases rest with
  | nil => rfl
  | cons e' rest =>
      have hnext : (compare e.1 e'.1).isLT = true := by
        rw [hrest e' (List.mem_cons_self ..)]
        rfl
      rw [List.map_cons, List.find?_cons_of_pos (p := fun k => (compare e.1 k).isLT) hnext, List.head?_cons]

end Bytewright.Library
