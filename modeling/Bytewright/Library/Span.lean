import Mathlib.Data.List.Sort
import Mathlib.Order.Interval.Set.LinearOrder

/-! Finite unions of half-open intervals, kept as sorted lists of separated spans. -/

namespace Bytewright.Library

variable {α : Type*} [LinearOrder α]

/-- The order of `std::pair`: by first component, then by second. -/
def spanLe (a b : α × α) : Prop := a.1 < b.1 ∨ a.1 = b.1 ∧ a.2 ≤ b.2

instance : DecidableRel (spanLe (α := α)) := fun a b => by unfold spanLe; infer_instance

/-- Fold the remaining spans, sorted by their begin, into the last merged one. -/
def coalesceFrom (back : α × α) : List (α × α) → List (α × α)
  | [] => [back]
  | s :: rest =>
    if s.1 ≤ back.2 then coalesceFrom (back.1, max back.2 s.2) rest
    else back :: coalesceFrom s rest

def coalesce : List (α × α) → List (α × α)
  | [] => []
  | s :: rest => coalesceFrom s rest

/-- Add one interval: an empty one changes nothing. -/
def addSpan (spans : List (α × α)) (b e : α) : List (α × α) :=
  if e ≤ b then spans else coalesce ((spans ++ [(b, e)]).insertionSort spanLe)

/-- The points some span covers. -/
def covered (spans : List (α × α)) : Set α := {x | ∃ s ∈ spans, s.1 ≤ x ∧ x < s.2}

/-- Spans are non-empty, and each ends strictly before the next begins. -/
structure Canonical (spans : List (α × α)) : Prop where
  nonempty : ∀ s ∈ spans, s.1 < s.2
  separated : spans.Pairwise (fun a b => a.2 < b.1)

/-! ### Coverage -/

theorem covered_nil : covered ([] : List (α × α)) = ∅ := by
  ext x
  simp [covered]

theorem covered_cons (s : α × α) (spans : List (α × α)) :
    covered (s :: spans) = Set.Ico s.1 s.2 ∪ covered spans := by
  ext x
  simp [covered]

theorem covered_perm {l₁ l₂ : List (α × α)} (h : l₁.Perm l₂) : covered l₁ = covered l₂ := by
  ext x
  simp only [covered, Set.mem_ofPred_eq, h.mem_iff]

theorem covered_append (l₁ l₂ : List (α × α)) : covered (l₁ ++ l₂) = covered l₁ ∪ covered l₂ := by
  induction l₁ with
  | nil => simp [covered_nil]
  | cons s l₁ ih => rw [List.cons_append, covered_cons, covered_cons, ih, Set.union_assoc]

/-- Two intervals that touch, the later one beginning no earlier, are one interval. -/
theorem Ico_union_touching {a b c d : α} (hac : a ≤ c) (hcb : c ≤ b) :
    Set.Ico a b ∪ Set.Ico c d = Set.Ico a (max b d) := by
  rcases le_total d b with hdb | hbd
  · rw [max_eq_left hdb]
    exact Set.union_eq_left.mpr (Set.Ico_subset_Ico hac hdb)
  · rw [max_eq_right hbd, Set.Ico_union_Ico' hcb (hac.trans (hcb.trans hbd)), min_eq_left hac,
      max_eq_right hbd]

/-! ### Coalescing -/

theorem coalesceFrom_begin (back : α × α) (rest : List (α × α)) {s : α × α}
    (hsorted : (back :: rest).Pairwise (fun a b => a.1 ≤ b.1)) (hs : s ∈ coalesceFrom back rest) :
    back.1 ≤ s.1 := by
  induction rest generalizing back with
  | nil =>
      rw [coalesceFrom, List.mem_singleton] at hs
      rw [hs]
  | cons t rest ih =>
      rw [List.pairwise_cons, List.pairwise_cons] at hsorted
      rcases hsorted with ⟨hback, ht, hrest⟩
      rw [coalesceFrom] at hs
      split at hs
      · apply ih (back.1, max back.2 t.2) _ hs
        exact List.pairwise_cons.mpr ⟨fun u hu => hback u (List.mem_cons_of_mem t hu), hrest⟩
      · rcases List.mem_cons.mp hs with rfl | hs
        · exact le_refl _
        · apply (hback t (List.mem_cons_self ..)).trans
          exact ih t (List.pairwise_cons.mpr ⟨ht, hrest⟩) hs

theorem coalesceFrom_canonical (back : α × α) (rest : List (α × α))
    (hne : ∀ s ∈ back :: rest, s.1 < s.2)
    (hsorted : (back :: rest).Pairwise (fun a b => a.1 ≤ b.1)) :
    Canonical (coalesceFrom back rest) := by
  induction rest generalizing back with
  | nil =>
      refine ⟨?_, List.pairwise_singleton _ _⟩
      exact hne
  | cons t rest ih =>
      have hsorted' := hsorted
      rw [List.pairwise_cons, List.pairwise_cons] at hsorted
      rcases hsorted with ⟨hback, ht, hrest⟩
      have hb := hne back (List.mem_cons_self ..)
      rw [coalesceFrom]
      split
      · apply ih (back.1, max back.2 t.2)
        · intro s hs
          rcases List.mem_cons.mp hs with rfl | hs
          · exact hb.trans_le (le_max_left ..)
          · exact hne s (List.mem_cons_of_mem _ (List.mem_cons_of_mem _ hs))
        · exact List.pairwise_cons.mpr ⟨fun u hu => hback u (List.mem_cons_of_mem t hu), hrest⟩
      · next hgap =>
          have htail := ih t (fun s hs => hne s (List.mem_cons_of_mem _ hs))
            (List.pairwise_cons.mpr ⟨ht, hrest⟩)
          refine ⟨?_, List.pairwise_cons.mpr ⟨fun s hs => ?_, htail.separated⟩⟩
          · intro s hs
            rcases List.mem_cons.mp hs with rfl | hs
            · exact hb
            · exact htail.nonempty s hs
          · exact (lt_of_not_ge hgap).trans_le
              (coalesceFrom_begin t rest (List.pairwise_cons.mpr ⟨ht, hrest⟩) hs)

theorem coalesceFrom_covered (back : α × α) (rest : List (α × α)) (hb : back.1 < back.2)
    (hne : ∀ s ∈ rest, s.1 < s.2) (hsorted : (back :: rest).Pairwise (fun a b => a.1 ≤ b.1)) :
    covered (coalesceFrom back rest) = covered (back :: rest) := by
  induction rest generalizing back with
  | nil => rfl
  | cons t rest ih =>
      rw [List.pairwise_cons, List.pairwise_cons] at hsorted
      rcases hsorted with ⟨hback, ht, hrest⟩
      have hne' : ∀ s ∈ rest, s.1 < s.2 := fun s hs => hne s (List.mem_cons_of_mem t hs)
      rw [coalesceFrom]
      split
      · next htouch =>
          rw [ih (back.1, max back.2 t.2) (hb.trans_le (le_max_left ..)) hne'
            (List.pairwise_cons.mpr ⟨fun u hu => hback u (List.mem_cons_of_mem t hu), hrest⟩)]
          rw [covered_cons, covered_cons, covered_cons, ← Set.union_assoc,
            Ico_union_touching (hback t (List.mem_cons_self ..)) htouch]
      · rw [covered_cons, ih t (hne t (List.mem_cons_self ..)) hne'
          (List.pairwise_cons.mpr ⟨ht, hrest⟩), ← covered_cons]

/-! ### Adding one interval -/

instance : Std.Total (spanLe (α := α)) where
  total a b := by
    rcases lt_trichotomy a.1 b.1 with h | h | h
    · exact .inl (.inl h)
    · rcases le_total a.2 b.2 with h' | h'
      · exact .inl (.inr ⟨h, h'⟩)
      · exact .inr (.inr ⟨h.symm, h'⟩)
    · exact .inr (.inl h)

instance : IsTrans (α × α) spanLe where
  trans a b c := by
    rintro (hab | ⟨hab, hab'⟩) (hbc | ⟨hbc, hbc'⟩)
    · exact .inl (hab.trans hbc)
    · exact .inl (hbc ▸ hab)
    · exact .inl (hab ▸ hbc)
    · exact .inr ⟨hab.trans hbc, hab'.trans hbc'⟩

theorem sorted_begins (spans : List (α × α)) :
    (spans.insertionSort spanLe).Pairwise (fun a b => a.1 ≤ b.1) := by
  apply (List.pairwise_insertionSort spanLe spans).imp
  rintro a b (h | ⟨h, -⟩)
  · exact h.le
  · exact h.le

theorem coalesce_sorted {spans : List (α × α)} (hne : ∀ s ∈ spans, s.1 < s.2)
    (hsorted : spans.Pairwise (fun a b => a.1 ≤ b.1)) :
    Canonical (coalesce spans) ∧ covered (coalesce spans) = covered spans := by
  cases spans with
  | nil => exact ⟨⟨fun _ hs => absurd hs List.not_mem_nil, List.Pairwise.nil⟩, rfl⟩
  | cons s rest =>
      refine ⟨coalesceFrom_canonical s rest hne hsorted, ?_⟩
      exact coalesceFrom_covered s rest (hne s (List.mem_cons_self ..))
        (fun t ht => hne t (List.mem_cons_of_mem s ht)) hsorted

theorem addSpan_nonempty {spans : List (α × α)} (h : Canonical spans) {b e : α} (hbe : b < e) :
    ∀ s ∈ (spans ++ [(b, e)]).insertionSort spanLe, s.1 < s.2 := by
  intro s hs
  rw [(List.perm_insertionSort spanLe _).mem_iff, List.mem_append, List.mem_singleton] at hs
  rcases hs with hs | rfl
  · exact h.nonempty s hs
  · exact hbe

theorem Canonical.nil : Canonical ([] : List (α × α)) :=
  ⟨fun _ hs => absurd hs List.not_mem_nil, List.Pairwise.nil⟩

theorem Canonical.addSpan {spans : List (α × α)} (h : Canonical spans) (b e : α) :
    Canonical (addSpan spans b e) := by
  rw [Library.addSpan]
  split
  · exact h
  · next hbe => exact (coalesce_sorted (addSpan_nonempty h (lt_of_not_ge hbe)) (sorted_begins _)).1

/-- Adding an interval adds exactly its points. -/
theorem Canonical.covered_addSpan {spans : List (α × α)} (h : Canonical spans) (b e : α) :
    covered (Library.addSpan spans b e) = covered spans ∪ Set.Ico b e := by
  rw [Library.addSpan]
  split
  · next hbe => rw [Set.Ico_eq_empty_of_le hbe, Set.union_empty]
  · next hbe =>
      rw [(coalesce_sorted (addSpan_nonempty h (lt_of_not_ge hbe)) (sorted_begins _)).2,
        covered_perm (List.perm_insertionSort spanLe _), covered_append, covered_cons, covered_nil,
        Set.union_empty]

/-- A run of additions, one after the other. -/
def addSpans (spans calls : List (α × α)) : List (α × α) :=
  calls.foldl (fun spans c => addSpan spans c.1 c.2) spans

theorem Canonical.addSpans {spans : List (α × α)} (h : Canonical spans) (calls : List (α × α)) :
    Canonical (addSpans spans calls) := by
  induction calls generalizing spans with
  | nil => exact h
  | cons c calls ih => exact ih (h.addSpan c.1 c.2)

/-- A run of additions adds exactly the points of its intervals. -/
theorem Canonical.covered_addSpans {spans : List (α × α)} (h : Canonical spans)
    (calls : List (α × α)) :
    covered (Library.addSpans spans calls) = covered spans ∪ covered calls := by
  induction calls generalizing spans with
  | nil => rw [covered_nil, Set.union_empty, Library.addSpans, List.foldl_nil]
  | cons c calls ih =>
      have hrest := ih (h.addSpan c.1 c.2)
      rw [h.covered_addSpan, Set.union_assoc, ← covered_cons] at hrest
      exact hrest

/-! ### Canonical lists are determined by their points -/

theorem Canonical.tail {s : α × α} {spans : List (α × α)} (h : Canonical (s :: spans)) :
    Canonical spans :=
  ⟨fun t ht => h.nonempty t (List.mem_cons_of_mem s ht), h.separated.of_cons⟩

theorem Canonical.singleton {b e : α} (hbe : b < e) : Canonical [(b, e)] := by
  refine ⟨fun s hs => ?_, List.pairwise_singleton _ _⟩
  rw [List.mem_singleton.mp hs]
  exact hbe

theorem Canonical.covered_eq_empty_iff {spans : List (α × α)} (h : Canonical spans) :
    covered spans = ∅ ↔ spans = [] := by
  constructor
  · intro hempty
    cases spans with
    | nil => rfl
    | cons s spans =>
        have hs : s.1 ∈ covered (s :: spans) :=
          ⟨s, List.mem_cons_self .., le_refl _, h.nonempty s (List.mem_cons_self ..)⟩
        rw [hempty] at hs
        exact absurd hs (Set.notMem_empty _)
  · rintro rfl
    exact covered_nil

/-- What the first span leaves uncovered lies strictly behind its end. -/
theorem Canonical.lt_of_mem_tail {s : α × α} {spans : List (α × α)} (h : Canonical (s :: spans))
    {x : α} (hx : x ∈ covered spans) : s.2 < x := by
  rcases hx with ⟨t, ht, htx, -⟩
  exact (List.rel_of_pairwise_cons h.separated ht).trans_le htx

theorem Canonical.begin_le {s : α × α} {spans : List (α × α)} (h : Canonical (s :: spans))
    {x : α} (hx : x ∈ covered (s :: spans)) : s.1 ≤ x := by
  rw [covered_cons] at hx
  rcases hx with hx | hx
  · exact hx.1
  · exact ((h.nonempty s (List.mem_cons_self ..)).trans (h.lt_of_mem_tail hx)).le

theorem Canonical.end_notMem {s : α × α} {spans : List (α × α)} (h : Canonical (s :: spans)) :
    s.2 ∉ covered (s :: spans) := by
  rw [covered_cons]
  rintro (hx | hx)
  · exact lt_irrefl _ hx.2
  · exact lt_irrefl _ (h.lt_of_mem_tail hx)

theorem Canonical.head_le {s t : α × α} {l₁ l₂ : List (α × α)} (h₁ : Canonical (s :: l₁))
    (h₂ : Canonical (t :: l₂)) (hcov : covered (s :: l₁) = covered (t :: l₂)) :
    t.1 ≤ s.1 ∧ (t.1 = s.1 → t.2 ≤ s.2) := by
  have hs := h₁.nonempty s (List.mem_cons_self ..)
  constructor
  · apply h₂.begin_le
    rw [← hcov]
    exact ⟨s, List.mem_cons_self .., le_refl _, hs⟩
  · intro heq
    by_contra hlt
    -- the end of `s` would be a point of `t`
    apply h₁.end_notMem
    rw [hcov]
    exact ⟨t, List.mem_cons_self .., heq.trans_le hs.le, lt_of_not_ge hlt⟩

/-- The points behind the first span are those of the remaining spans. -/
theorem Canonical.covered_tail {s : α × α} {spans : List (α × α)} (h : Canonical (s :: spans)) :
    covered spans = covered (s :: spans) \ Set.Ico s.1 s.2 := by
  rw [covered_cons, Set.union_sdiff_left]
  refine (sdiff_eq_left.mpr (Set.disjoint_left.mpr fun x hx hin => ?_)).symm
  exact lt_asymm (h.lt_of_mem_tail hx) hin.2

/-- Two canonical lists that cover the same points are the same list. -/
theorem Canonical.ext {l₁ l₂ : List (α × α)} (h₁ : Canonical l₁) (h₂ : Canonical l₂)
    (hcov : covered l₁ = covered l₂) : l₁ = l₂ := by
  induction l₁ generalizing l₂ with
  | nil =>
      rw [covered_nil] at hcov
      exact (h₂.covered_eq_empty_iff.mp hcov.symm).symm
  | cons s l₁ ih =>
      cases l₂ with
      | nil =>
          rw [covered_nil] at hcov
          exact h₁.covered_eq_empty_iff.mp hcov
      | cons t l₂ =>
          have hts := h₁.head_le h₂ hcov
          have hst := h₂.head_le h₁ hcov.symm
          have hbegin : s.1 = t.1 := le_antisymm hst.1 hts.1
          have hhead : s = t := Prod.ext hbegin (le_antisymm (hst.2 hbegin) (hts.2 hbegin.symm))
          have htail : covered l₁ = covered l₂ := by
            rw [h₁.covered_tail, h₂.covered_tail, hcov, hhead]
          rw [hhead, ih h₁.tail h₂.tail htail]

/-- The only canonical list that covers one interval is that interval. -/
theorem Canonical.eq_singleton {spans : List (α × α)} (h : Canonical spans) {b e : α} (hbe : b < e)
    (hcov : covered spans = Set.Ico b e) : spans = [(b, e)] := by
  apply h.ext (Canonical.singleton hbe)
  rw [hcov, covered_cons, covered_nil, Set.union_empty]

end Bytewright.Library
