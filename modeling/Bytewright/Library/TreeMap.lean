import Mathlib.Data.List.Basic
import Std.Data.ExtTreeMap

/-! # One key of an ordered map -/

namespace Bytewright.Library

section Size

variable {α β : Type*} [Ord α] [Std.TransOrd α] {m : Std.ExtTreeMap α β} {k : α}

theorem not_mem_of_none (h : m[k]? = none) : k ∉ m := by
  rw [Std.ExtTreeMap.mem_iff_isSome_getElem?, h]
  exact Bool.false_ne_true

/-- A new key makes the map one greater. -/
theorem size_insert_of_none (h : m[k]? = none) (v : β) : (m.insert k v).size = m.size + 1 := by
  simp [Std.ExtTreeMap.size_insert, not_mem_of_none h]

theorem size_insertIfNew_of_none (h : m[k]? = none) (v : β) : (m.insertIfNew k v).size = m.size + 1 := by
  simp [Std.ExtTreeMap.size_insertIfNew, not_mem_of_none h]

end Size

variable {α β : Type*} [Ord α] [Std.TransOrd α] [Std.LawfulEqOrd α] [DecidableEq α]

/-- Listing a map and keeping one key gives that key's entry, if there is one. -/
theorem toList_filter_key (m : Std.ExtTreeMap α β) (k : α) :
    m.toList.filter (fun e => e.1 = k) = (m[k]?.map (Prod.mk k)).toList := by
  have hmem : ∀ e, e ∈ m.toList.filter (fun e => e.1 = k) ↔ e.1 = k ∧ m[k]? = some e.2 := by
    rintro ⟨k', v⟩
    rw [List.mem_filter, Std.ExtTreeMap.mem_toList_iff_getElem?_eq_some, decide_eq_true_eq, and_comm]
    constructor
    · rintro ⟨rfl, hv⟩
      exact ⟨rfl, hv⟩
    · rintro ⟨rfl, hv⟩
      exact ⟨rfl, hv⟩
  have hdistinct := (Std.ExtTreeMap.distinct_keys_toList (t := m)).filter (fun e => e.1 = k)
  generalize m.toList.filter (fun e => e.1 = k) = l at hmem hdistinct
  rcases l with _ | ⟨x, _ | ⟨y, l⟩⟩
  · cases hk : m[k]? with
    | none => rfl
    | some v => exact absurd ((hmem (k, v)).mpr ⟨rfl, hk⟩) List.not_mem_nil
  · obtain ⟨hx, hv⟩ := (hmem x).mp (List.mem_singleton_self x)
    rw [hv, ← hx]
    rfl
  · have hx := ((hmem x).mp (by simp)).1
    have hy := ((hmem y).mp (by simp)).1
    have hne := List.rel_of_pairwise_cons hdistinct (List.mem_cons_self ..)
    exact absurd (Std.LawfulEqCmp.compare_eq_iff_eq.mpr (hx.trans hy.symm)) hne

theorem getElem?_insert_eq (m : Std.ExtTreeMap α β) (k k' : α) (v : β) :
    (m.insert k v)[k']? = if k = k' then some v else m[k']? := by
  rw [Std.ExtTreeMap.getElem?_insert]
  simp only [Std.LawfulEqCmp.compare_eq_iff_eq]

theorem getElem?_insertIfNew_eq (m : Std.ExtTreeMap α β) (k k' : α) (v : β) :
    (m.insertIfNew k v)[k']? = m[k']?.or (if k = k' then some v else none) := by
  rw [Std.ExtTreeMap.getElem?_insertIfNew]
  simp only [Std.LawfulEqCmp.compare_eq_iff_eq, Std.ExtTreeMap.mem_iff_isSome_getElem?]
  by_cases hk : k = k'
  · subst hk
    cases m[k]? <;> simp
  · simp [hk]

/-! ### Listing a map that changes -/

theorem toList_erase (m : Std.ExtTreeMap α β) (k : α) :
    (m.erase k).toList = m.toList.filter (fun e => e.1 ≠ k) := by
  have herase : m.erase k = m.filter fun k' _ => decide (k' ≠ k) := by
    apply Std.ExtTreeMap.ext_getElem?
    intro k'
    by_cases hk : k = k'
    · subst hk
      simp
    · have hk' : ¬ k' = k := fun h => hk h.symm
      have hkeep : m[k']? = m[k']?.filter fun _ => true := by cases m[k']? <;> rfl
      simpa [Std.ExtTreeMap.getElem?_erase, Std.LawfulEqCmp.compare_eq_iff_eq, hk, hk'] using hkeep
  rw [herase, Std.ExtTreeMap.toList_filter]

/-- Erasing the first entry leaves the entries behind it. -/
theorem toList_erase_first {m : Std.ExtTreeMap α β} {e : α × β} {l : List (α × β)}
    (h : m.toList = e :: l) : (m.erase e.1).toList = l := by
  have hdistinct := Std.ExtTreeMap.distinct_keys_toList (t := m)
  rw [h] at hdistinct
  have hne : ∀ e' ∈ l, decide (e'.1 ≠ e.1) = true := by
    intro e' he'
    have hcompare := List.rel_of_pairwise_cons hdistinct he'
    rw [decide_eq_true_eq]
    intro heq
    exact hcompare (Std.LawfulEqCmp.compare_eq_iff_eq.mpr heq.symm)
  rw [toList_erase, h, List.filter_cons_of_neg (by simp), List.filter_eq_self.mpr hne]

/-- Inserting replaces the entry of its key. -/
theorem toList_insert_perm (m : Std.ExtTreeMap α β) (k : α) (v : β) :
    (m.insert k v).toList.Perm ((k, v) :: (m.erase k).toList) := by
  have hnodup : ∀ m : Std.ExtTreeMap α β, m.toList.Nodup := by
    intro m
    refine (Std.ExtTreeMap.distinct_keys_toList (t := m)).imp fun hne heq => hne ?_
    rw [heq]
    exact Std.LawfulEqCmp.compare_eq_iff_eq.mpr rfl
  have hnew : (k, v) ∉ (m.erase k).toList := by
    rw [toList_erase, List.mem_filter]
    simp
  rw [List.perm_ext_iff_of_nodup (hnodup _) (List.nodup_cons.mpr ⟨hnew, hnodup _⟩)]
  rintro ⟨k', v'⟩
  rw [Std.ExtTreeMap.mem_toList_iff_getElem?_eq_some, getElem?_insert_eq, List.mem_cons, toList_erase,
    List.mem_filter, Std.ExtTreeMap.mem_toList_iff_getElem?_eq_some]
  by_cases hk : k = k'
  · subst hk
    simp [eq_comm]
  · have hk' : ¬ k' = k := fun h => hk h.symm
    simp [hk, hk']

/-- A map is the entry of a key, if there is one, and the rest. -/
theorem toList_erase_perm (m : Std.ExtTreeMap α β) (k : α) :
    m.toList.Perm ((m[k]?.map (Prod.mk k)).toList ++ (m.erase k).toList) := by
  rw [← toList_filter_key, toList_erase]
  refine (List.filter_append_perm (fun e => decide (e.1 = k)) m.toList).symm.trans ?_
  refine List.Perm.append_left _ (List.Perm.of_eq ?_)
  simp

end Bytewright.Library
