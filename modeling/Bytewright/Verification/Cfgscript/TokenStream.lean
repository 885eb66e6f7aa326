import Bytewright.Model.Cfgscript.Parser
import Bytewright.Verification.Common.ByteReader

/-! # The token stream of the parser -/

namespace Bytewright.Cfgscript

open Bytewright.Common

/-- A source that counts its tokens down. -/
class LawfulTokenSource (σ : Type) [TokenSource σ] : Prop where
  left_le {s s' : σ} {t : Token} (h : TokenSource.next s = .ok t s') :
    TokenSource.left s' ≤ TokenSource.left s
  left_lt {s s' : σ} {t : Token} (h : TokenSource.next s = .ok t s') (ht : t.kind ≠ .kEof) :
    TokenSource.left s' < TokenSource.left s

instance : LawfulTokenSource (List Token) where
  left_le {s s' t} h := by
    cases h
    cases s with
    | nil => exact Nat.le_refl _
    | cons t ts => exact Nat.le_succ _
  left_lt {s s' t} h ht := by
    cases h
    cases s with
    | nil => exact absurd rfl ht
    | cons t ts => exact Nat.lt_succ_self _

@[simp] theorem check_run {σ : Type} (kind : TokenKind) (p : Parser σ) :
    check kind p = .ok (decide (p.cur.kind = kind)) p := rfl

section Stream

variable {σ : Type} [TokenSource σ] {p q r : Parser σ} {t : Token} {ts us : List Token}

/-! ### Single steps -/

theorem cur_of_take (h : take p = .ok t q) : t = p.cur := by
  rw [take] at h
  split at h
  · cases h
    rfl
  · cases h

theorem accept_of_ne {kind : TokenKind} (h : p.cur.kind ≠ kind) : accept kind p = .ok false p := by
  simp [accept, bind_run, h]

theorem accept_of_eq {kind : TokenKind} (h : p.cur.kind = kind) (ht : take p = .ok t q) :
    accept kind p = .ok true q := by
  simp [accept, bind_run, h, ht]

theorem accept_eq_ok {kind : TokenKind} {b : Bool} (h : accept kind p = .ok b q) :
    (b = true ∧ p.cur.kind = kind ∧ take p = .ok p.cur q) ∨
      (b = false ∧ p.cur.kind ≠ kind ∧ q = p) := by
  by_cases hk : p.cur.kind = kind
  · simp only [accept, bind_run, get_run, hk, if_true] at h
    split at h
    · next ht =>
      cases h
      exact .inl ⟨rfl, hk, by rw [ht, cur_of_take ht]⟩
    · cases h
  · rw [accept_of_ne hk] at h
    cases h
    exact .inr ⟨rfl, hk, rfl⟩

theorem expect_of_eq {kind : TokenKind} (h : p.cur.kind = kind) (what : String) :
    expect kind what p = take p := by
  simp [expect, bind_run, h]

theorem expect_eq_ok {kind : TokenKind} {what : String} (h : expect kind what p = .ok t q) :
    p.cur.kind = kind ∧ t = p.cur ∧ take p = .ok p.cur q := by
  by_cases hk : p.cur.kind = kind
  · rw [expect_of_eq hk] at h
    exact ⟨hk, cur_of_take h, by rw [h, cur_of_take h]⟩
  · simp [expect, bind_run, hk] at h

/-! ### Runs of tokens -/

/-- `p` takes the tokens `ts` and is then in front of what `q` is in front of. -/
inductive Takes : Parser σ → List Token → Parser σ → Prop
  | nil (p : Parser σ) : Takes p [] p
  | cons {p q r : Parser σ} {ts : List Token} (h : take p = .ok p.cur q) (hts : Takes q ts r) :
      Takes p (p.cur :: ts) r

namespace Takes

theorem single (h : take p = .ok p.cur q) : Takes p [p.cur] q := .cons h (.nil q)

theorem append (h : Takes p ts q) (h' : Takes q us r) : Takes p (ts ++ us) r := by
  induction h with
  | nil => exact h'
  | cons h _ ih => exact .cons h (ih h')

theorem snoc (h : Takes p ts q) (h' : take q = .ok q.cur r) : Takes p (ts ++ [q.cur]) r :=
  h.append (.single h')

theorem cons_inv (h : Takes p (t :: ts) r) : t = p.cur ∧ ∃ q, take p = .ok p.cur q ∧ Takes q ts r := by
  cases h with
  | cons h hts => exact ⟨rfl, _, h, hts⟩

theorem append_inv (h : Takes p (ts ++ us) r) : ∃ q, Takes p ts q ∧ Takes q us r := by
  induction ts generalizing p with
  | nil => exact ⟨p, .nil p, h⟩
  | cons t ts ih =>
      rcases h.cons_inv with ⟨rfl, q, hq, hts⟩
      rcases ih hts with ⟨q', hq', hus⟩
      exact ⟨q', .cons hq hq', hus⟩

theorem nil_inv (h : Takes p [] q) : q = p := by
  cases h
  rfl

/-- Tokens between two brackets. -/
theorem between_inv {u : Token} (h : Takes p (t :: (ts ++ [u])) r) :
    t = p.cur ∧ ∃ q q', take p = .ok p.cur q ∧ Takes q ts q' ∧ u = q'.cur ∧ take q' = .ok q'.cur r := by
  rcases h.cons_inv with ⟨ht, q, hopen, h⟩
  rcases h.append_inv with ⟨q', hts, h⟩
  rcases h.cons_inv with ⟨hu, q'', hclose, hnil⟩
  cases hnil.nil_inv
  exact ⟨ht, q, q', hopen, hts, hu, hclose⟩

end Takes

/-! ### Counting down -/

/-- How many tokens are to be taken before the end of the input, at most. -/
def Parser.left (p : Parser σ) : Nat :=
  TokenSource.left p.lexer + if p.cur.kind = .kEof then 0 else 1

theorem Parser.left_lt_fuel (p : Parser σ) : p.left < p.fuel := by
  rw [Parser.left, Parser.fuel]
  split <;> omega

variable [LawfulTokenSource σ]

theorem left_of_take (h : take p = .ok t q) (hp : p.cur.kind ≠ .kEof) : q.left < p.left := by
  rw [take] at h
  split at h
  · next t' l hl =>
    cases h
    have hbefore : p.left = TokenSource.left p.lexer + 1 := by rw [Parser.left, if_neg hp]
    have hafter : ({ lexer := l, cur := t' } : Parser σ).left =
        TokenSource.left l + if t'.kind = .kEof then 0 else 1 := rfl
    by_cases ht : t'.kind = .kEof
    · have := LawfulTokenSource.left_le hl
      rw [hbefore, hafter, if_pos ht]
      omega
    · have := LawfulTokenSource.left_lt hl ht
      rw [hbefore, hafter, if_neg ht]
      omega
  · cases h

theorem left_le_of_take (h : take p = .ok t q) : q.left ≤ p.left := by
  by_cases hp : p.cur.kind = .kEof
  · rw [take] at h
    split at h
    · next t' l hl =>
      cases h
      rw [Parser.left, Parser.left, if_pos hp]
      split
      · exact LawfulTokenSource.left_le hl
      · next ht => exact LawfulTokenSource.left_lt hl ht
    · cases h
  · exact Nat.le_of_lt (left_of_take h hp)

theorem Takes.left_le (h : Takes p ts q) (hts : ∀ t ∈ ts, t.kind ≠ .kEof) :
    q.left + ts.length ≤ p.left := by
  induction h with
  | nil => exact Nat.le_refl _
  | cons h _ ih =>
      have hstep := left_of_take h (hts _ (List.mem_cons_self ..))
      have htail := ih fun t ht => hts t (List.mem_cons_of_mem _ ht)
      rw [List.length_cons]
      omega

/-- Between two states lies at most one run of tokens before the end of the input. -/
theorem Takes.unique (h : Takes p ts q) (h' : Takes p us q) (hts : ∀ t ∈ ts, t.kind ≠ .kEof)
    (hus : ∀ t ∈ us, t.kind ≠ .kEof) : ts = us := by
  induction h generalizing us with
  | nil =>
      have := h'.left_le hus
      exact (List.length_eq_zero_iff.mp (by omega)).symm
  | cons h htail ih =>
      cases h' with
      | nil =>
          have := (Takes.cons h htail).left_le hts
          rw [List.length_cons] at this
          omega
      | cons h' htail' =>
          rw [h] at h'
          cases h'
          rw [ih htail' (fun t ht => hts t (List.mem_cons_of_mem _ ht))
            (fun t ht => hus t (List.mem_cons_of_mem _ ht))]

end Stream

end Bytewright.Cfgscript
