import Mathlib.Data.List.Forall2

/-! # Salvage

The elements a step takes off a state, one after the other, until it fails. -/

namespace Bytewright.Library

variable {α β σ τ : Type}

/-- The elements of at most `count` steps, up to the first failure. -/
def salvage (step : σ → Option (α × σ)) : (count : Nat) → σ → List α
  | 0, _ => []
  | count + 1, s =>
    match step s with
    | some (a, t) => a :: salvage step count t
    | none => []

variable {step : σ → Option (α × σ)} {step' : τ → Option (α × τ)}

@[simp] theorem salvage_zero (s : σ) : salvage step 0 s = [] := rfl

theorem salvage_of_some {s t : σ} {a : α} (h : step s = some (a, t)) (count : Nat) :
    salvage step (count + 1) s = a :: salvage step count t := by
  rw [salvage, h]

theorem salvage_of_none {s : σ} (h : step s = none) (count : Nat) : salvage step count s = [] := by
  cases count with
  | zero => rfl
  | succ count => rw [salvage, h]

theorem salvage_length_le (count : Nat) (s : σ) : (salvage step count s).length ≤ count := by
  induction count generalizing s with
  | zero => exact Nat.le_refl _
  | succ count ih =>
      rw [salvage]
      split
      · next a t _ => exact Nat.succ_le_succ (ih t)
      · exact Nat.zero_le _

/-- Where the second step succeeds like the first one, at least as much is salvaged. -/
theorem salvage_prefix {R : σ → τ → Prop}
    (hstep : ∀ s t a s', R s t → step s = some (a, s') → ∃ t', step' t = some (a, t') ∧ R s' t')
    {s : σ} {t : τ} (h : R s t) (count : Nat) : salvage step count s <+: salvage step' count t := by
  induction count generalizing s t with
  | zero => exact List.nil_prefix
  | succ count ih =>
      cases hs : step s with
      | none =>
          rw [salvage_of_none hs]
          exact List.nil_prefix
      | some next =>
          rcases next with ⟨a, s'⟩
          rcases hstep s t a s' h hs with ⟨t', ht, h'⟩
          rw [salvage_of_some hs, salvage_of_some ht]
          exact (List.prefix_cons_inj a).mpr (ih h')

/-- What each element was taken from lies in front, without a gap; and only a failure ends the salvage
before its count. -/
theorem salvage_pieces {view : σ → List β} {Whole : α → List β → Prop}
    (hstep : ∀ s a t, step s = some (a, t) → ∃ piece, Whole a piece ∧ view s = piece ++ view t)
    (count : Nat) (s : σ) : ∃ pieces t, view s = pieces.flatten ++ view t ∧
      List.Forall₂ Whole (salvage step count s) pieces ∧
      ((salvage step count s).length < count → step t = none) := by
  induction count generalizing s with
  | zero => exact ⟨[], s, rfl, .nil, fun h => absurd h (Nat.lt_irrefl 0)⟩
  | succ count ih =>
      cases hs : step s with
      | none =>
          rw [salvage_of_none hs]
          exact ⟨[], s, rfl, .nil, fun _ => hs⟩
      | some next =>
          rcases next with ⟨a, t⟩
          rcases hstep s a t hs with ⟨piece, hpiece, hview⟩
          rcases ih t with ⟨pieces, u, hrest, hall, hend⟩
          rw [salvage_of_some hs]
          refine ⟨piece :: pieces, u, ?_, .cons hpiece hall, fun hlt => ?_⟩
          · rw [hview, hrest, List.flatten_cons, List.append_assoc]
          · exact hend (Nat.lt_of_succ_lt_succ hlt)

/-! ### Pieces that are cut -/

/-- The first bytes of pieces that lie one behind the other: the pieces that are whole, and a part of the
next one. -/
theorem take_flatten (pieces : List (List β)) (room : Nat) :
    ∃ j tail, pieces.flatten.take room = (pieces.take j).flatten ++ tail ∧ j ≤ pieces.length ∧
      (j = pieces.length → tail = []) ∧ (∀ piece, pieces[j]? = some piece → tail <+: piece ∧ tail ≠ piece) ∧
      ∀ i ≤ pieces.length, i ≤ j ↔ (pieces.take i).flatten.length ≤ room := by
  induction pieces generalizing room with
  | nil => exact ⟨0, [], by simp, Nat.le_refl _, fun _ => rfl, by simp, by simp⟩
  | cons piece pieces ih =>
      by_cases hroom : room < piece.length
      · refine ⟨0, piece.take room, ?_, Nat.zero_le _, by simp, ?_, fun i hi => ?_⟩
        · simp [List.take_append_of_le_length (Nat.le_of_lt hroom)]
        · intro piece' hpiece
          obtain rfl : piece = piece' := by simpa using hpiece
          have hlen : (piece.take room).length = room := List.length_take_of_le (Nat.le_of_lt hroom)
          exact ⟨List.take_prefix .., fun h => by rw [h] at hlen; omega⟩
        · cases i with
          | zero => simp
          | succ i => simp; omega
      · obtain ⟨j, tail, htake, hj, hall, hcut, hfit⟩ := ih (room - piece.length)
        refine ⟨j + 1, tail, ?_, Nat.succ_le_succ hj, fun h => hall (Nat.succ.inj h), by simpa using hcut,
          fun i hi => ?_⟩
        · rw [List.flatten_cons, List.take_append, htake, List.take_of_length_le (Nat.not_lt.mp hroom)]
          simp
        · cases i with
          | zero => simp
          | succ i =>
              rw [Nat.succ_le_succ_iff, hfit i (Nat.le_of_succ_le_succ hi)]
              simp
              omega

end Bytewright.Library
