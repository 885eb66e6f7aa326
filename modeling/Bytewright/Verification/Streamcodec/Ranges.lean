import Bytewright.Model.Streamcodec.Reassembler

/-! The filled ranges of a partial, over any run of additions. -/

namespace Bytewright.Streamcodec

open Bytewright.Common Bytewright.Library

namespace PartialMessage

/-- A run of `add_range` calls. -/
def addRanges (p : PartialMessage) (calls : List (Nat × Nat)) : PartialMessage :=
  calls.foldl (fun p c => p.addRange c.1 c.2) p

theorem addRanges_eq (p : PartialMessage) (calls : List (Nat × Nat)) :
    p.addRanges calls = { p with ranges := addSpans p.ranges calls } := by
  induction calls generalizing p with
  | nil => rfl
  | cons c calls ih => exact ih (p.addRange c.1 c.2)

theorem addRanges_ranges (p : PartialMessage) (calls : List (Nat × Nat)) :
    (p.addRanges calls).ranges = addSpans p.ranges calls := by
  rw [addRanges_eq]

/-- Over canonical ranges, the completeness test says that one interval from 0 is covered. -/
theorem isComplete_iff {p : PartialMessage} (h : Canonical p.ranges) :
    p.isComplete ↔
      p.haveFin ∧ (p.totalLen = 0 ∨ ∃ e, p.totalLen ≤ e ∧ covered p.ranges = Set.Ico 0 e) := by
  unfold isComplete
  cases p.haveFin with
  | false => simp
  | true =>
      by_cases hlen : p.totalLen = 0
      · simp [hlen]
      · simp only [Bool.not_true, Bool.false_eq_true, if_false, hlen, false_or, true_and]
        constructor
        · intro hc
          split at hc
          · next b e hranges =>
              simp only [Bool.and_eq_true, decide_eq_true_eq] at hc
              refine ⟨e, hc.2, ?_⟩
              rw [hranges, covered_cons, covered_nil, Set.union_empty, hc.1]
          · cases hc
        · rintro ⟨e, hle, hcov⟩
          rw [h.eq_singleton (Nat.lt_of_lt_of_le (Nat.pos_of_ne_zero hlen) hle) hcov]
          simpa using hle

end PartialMessage

/-- After any `add_range` calls on a fresh partial, its ranges are sorted, non-empty and apart from
each other, their union is that of the intervals added, and a run that adds the same non-empty
intervals, in any order and any number of times, leaves the same partial. -/
theorem addRanges_canonical (streamId : UInt16) (msgId : UInt32) (calls : List (Nat × Nat)) :
    let fresh : PartialMessage := { streamId, msgId }
    let spans := (fresh.addRanges calls).ranges
    spans.Pairwise (fun a b => a.1 < b.1) ∧
    (∀ s ∈ spans, s.1 < s.2) ∧
    spans.Pairwise (fun a b => a.2 < b.1) ∧
    (∀ x, (∃ s ∈ spans, s.1 ≤ x ∧ x < s.2) ↔ ∃ c ∈ calls, c.1 < c.2 ∧ c.1 ≤ x ∧ x < c.2) ∧
    ∀ calls' : List (Nat × Nat), (∀ c, c.1 < c.2 → (c ∈ calls' ↔ c ∈ calls)) →
      fresh.addRanges calls' = fresh.addRanges calls := by
  intro fresh spans
  have hspans : spans = addSpans [] calls := fresh.addRanges_ranges calls
  have hcanon : Canonical spans := hspans ▸ Canonical.nil.addSpans calls
  have hcov (l : List (Nat × Nat)) : covered (addSpans [] l) = covered l := by
    rw [Canonical.nil.covered_addSpans, covered_nil, Set.empty_union]
  refine ⟨?_, hcanon.nonempty, hcanon.separated, fun x => ?_, fun calls' hsame => ?_⟩
  · apply hcanon.separated.imp_of_mem
    intro a b ha _ hab
    exact (hcanon.nonempty a ha).trans hab
  · have hx : x ∈ covered spans ↔ x ∈ covered calls := by rw [hspans, hcov]
    rw [covered, covered, Set.mem_ofPred_eq, Set.mem_ofPred_eq] at hx
    rw [hx]
    constructor
    · rintro ⟨c, hc, hle, hlt⟩
      exact ⟨c, hc, hle.trans_lt hlt, hle, hlt⟩
    · rintro ⟨c, hc, -, hle, hlt⟩
      exact ⟨c, hc, hle, hlt⟩
  · have hpoints : covered calls' = covered calls := by
      ext x
      rw [covered, covered, Set.mem_ofPred_eq, Set.mem_ofPred_eq]
      constructor
      · rintro ⟨c, hc, hle, hlt⟩
        exact ⟨c, (hsame c (hle.trans_lt hlt)).mp hc, hle, hlt⟩
      · rintro ⟨c, hc, hle, hlt⟩
        exact ⟨c, (hsame c (hle.trans_lt hlt)).mpr hc, hle, hlt⟩
    have hsame : addSpans [] calls' = addSpans [] calls := by
      apply (Canonical.nil.addSpans calls').ext (Canonical.nil.addSpans calls)
      rw [hcov, hcov, hpoints]
    rw [PartialMessage.addRanges_eq, PartialMessage.addRanges_eq, hsame]

/-- Three touching fragments out of order, and again in order with repetitions. -/
theorem addRanges_canonical_reordered :
    PartialMessage.addRanges { streamId := 1, msgId := 7 } [(0, 3), (3, 5), (5, 9), (0, 3), (4, 4)] =
      PartialMessage.addRanges { streamId := 1, msgId := 7 } [(5, 9), (0, 3), (3, 5)] := by
  refine (addRanges_canonical 1 7 [(5, 9), (0, 3), (3, 5)]).2.2.2.2 _ fun c hc => ?_
  have hempty : c ≠ (4, 4) := by
    rintro rfl
    exact lt_irrefl _ hc
  simp only [List.mem_cons, List.not_mem_nil, or_false, hempty]
  tauto

end Bytewright.Streamcodec
