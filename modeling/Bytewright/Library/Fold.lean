import Mathlib.Data.List.Perm.Basic

/-! # Folding an action whose order and multiplicity do not matter -/

namespace Bytewright.Library

variable {α β : Type*}

/-- The steps of `f` commute, and a step taken twice in a row is taken once. -/
structure Absorbing (f : β → α → β) : Prop where
  comm : ∀ b x y, f (f b x) y = f (f b y) x
  idem : ∀ b x, f (f b x) x = f b x

namespace Absorbing

variable {f : β → α → β} {l l' : List α}

/-- A step that the fold takes anyway can be taken in front of it. -/
theorem foldl_of_mem (h : Absorbing f) {x : α} (hx : x ∈ l) (b : β) :
    l.foldl f (f b x) = l.foldl f b := by
  induction l generalizing b with
  | nil => exact absurd hx List.not_mem_nil
  | cons y l ih =>
      rw [List.foldl_cons, List.foldl_cons]
      obtain rfl | hx := List.mem_cons.mp hx
      · rw [h.idem]
      · rw [h.comm, ih hx]

theorem foldl_of_subset (h : Absorbing f) (hsub : l ⊆ l') (b : β) :
    l'.foldl f (l.foldl f b) = l'.foldl f b := by
  induction l generalizing b with
  | nil => rfl
  | cons x l ih =>
      have hx : x ∈ l' := hsub (List.mem_cons_self ..)
      rw [List.foldl_cons, ih (List.subset_of_cons_subset hsub), h.foldl_of_mem hx]

/-- Two lists with the same elements, in any order and any number of times, fold to the same. -/
theorem foldl_congr (h : Absorbing f) (hmem : ∀ x, x ∈ l ↔ x ∈ l') (b : β) :
    l.foldl f b = l'.foldl f b := by
  have hleft : l'.foldl f (l.foldl f b) = l'.foldl f b :=
    h.foldl_of_subset (fun x hx => (hmem x).mp hx) b
  have hright : l.foldl f (l'.foldl f b) = l.foldl f b :=
    h.foldl_of_subset (fun x hx => (hmem x).mpr hx) b
  have hperm : (l ++ l').Perm (l' ++ l) := List.perm_append_comm
  have hswap : (l ++ l').foldl f b = (l' ++ l).foldl f b :=
    hperm.foldl_eq' (fun x _ y _ z => h.comm z x y) b
  rw [List.foldl_append, List.foldl_append] at hswap
  exact hright.symm.trans (hswap.symm.trans hleft)

end Absorbing

end Bytewright.Library
