import Bytewright.Verification.Cfgscript.Grammar
import Bytewright.Verification.Cfgscript.TokenStream

/-! # What the expression parser accepts is derivable -/

namespace Bytewright.Cfgscript

open Bytewright.Common

theorem tooDeep_ne_ok {σ α : Type} {p q : Parser σ} {a : α} : tooDeep p ≠ .ok a q := by
  intro h
  cases h

variable {σ : Type} [TokenSource σ] {p q : Parser σ} {below : Deeper σ} {e : Expr}

/-- Whatever a parser returns, it took the tokens of a derivation of that. -/
def Sound {α : Type} (m : Parse σ α) (phrase : α → Phrase) : Prop :=
  ∀ {p a q}, m p = .ok a q → ∃ ts, Takes p ts q ∧ Derives (phrase a) ts

/-- What `parse_binary(min_prec)` returns binds at least as tight as `min_prec`, and no operator that
does is next. -/
def SoundBinary (m : Parse σ Expr) (minPrec : Int) : Prop :=
  ∀ {p e q}, m p = .ok e q →
    ∃ prec ts, minPrec ≤ prec ∧ 2 ≤ prec ∧ Takes p ts q ∧ Tier prec e ts ∧
      binaryPrecedence q.cur.kind < minPrec

structure Deeper.Sound (below : Deeper σ) : Prop where
  expr : Cfgscript.Sound below.expr .expr
  unary : Cfgscript.Sound below.unary .unary
  binary : ∀ minPrec, 1 ≤ minPrec → minPrec ≤ 12 → SoundBinary (below.binary minPrec) minPrec

/-! ### Primaries -/

theorem leaf_of_leaf? {t : Token} (h : leaf? t = some e) : Leaf t e := by
  rw [leaf?] at h
  cases hk : t.kind <;> rw [hk] at h <;> cases h
  · exact .ident hk
  · exact .int hk
  · exact .float hk
  · exact .str hk
  · exact .true hk
  · exact .false hk
  · exact .null hk

theorem parseElements_sound {expr : Parse σ Expr} (hexpr : Sound expr .expr) (fuel : Nat) :
    Sound (parseElements expr fuel) .elements := by
  induction fuel with
  | zero =>
      intro p es q h
      cases h
  | succ fuel ih =>
      intro p es q h
      rw [parseElements] at h
      rw [bind_eq_ok] at h
      rcases h with ⟨e, p₁, he, h⟩
      rcases hexpr he with ⟨ts, hts, hder⟩
      rw [bind_eq_ok] at h
      rcases h with ⟨comma, p₂, hcomma, h⟩
      rcases accept_eq_ok hcomma with ⟨rfl, hkind, htake⟩ | ⟨rfl, -, rfl⟩
      · simp only [if_true] at h
        rw [bind_of_ok (check_run _ p₂)] at h
        by_cases hclose : p₂.cur.kind = .kRBracket
        · simp only [hclose, decide_true, if_true] at h
          cases h
          exact ⟨_, hts.snoc htake, .lastComma hder hkind⟩
        · simp only [hclose, decide_false, Bool.false_eq_true, if_false] at h
          rw [bind_eq_ok] at h
          rcases h with ⟨es', p₃, hes, h⟩
          cases h
          rcases ih hes with ⟨us, hus, hders⟩
          exact ⟨_, hts.append (.cons htake hus), .element hder hkind hders⟩
      · cases h
        exact ⟨ts, hts, .last hder⟩

theorem parseFields_sound {expr : Parse σ Expr} (hexpr : Sound expr .expr) (offset fuel : Nat) :
    Sound (parseFields expr offset fuel) .fields := by
  induction fuel with
  | zero =>
      intro p fs q h
      cases h
  | succ fuel ih =>
      intro p fs q h
      rw [parseFields, bind_of_ok (check_run _ p)] at h
      split at h
      · cases h
        exact ⟨[], .nil p, .noFields⟩
      · rw [bind_of_ok (check_run _ p)] at h
        split at h
        · cases h
        · rw [bind_eq_ok] at h
          rcases h with ⟨semi, p₁, hsemi, h⟩
          rcases accept_eq_ok hsemi with ⟨rfl, hkind, htake⟩ | ⟨rfl, -, rfl⟩
          · simp only [if_true] at h
            rcases ih h with ⟨ts, hts, hder⟩
            exact ⟨_, .cons htake hts, .stray hkind hder⟩
          · simp only [Bool.false_eq_true, if_false] at h
            rw [bind_eq_ok] at h
            rcases h with ⟨key, p₂, hkey, h⟩
            rw [bind_eq_ok] at h
            rcases h with ⟨assign, p₃, hassign, h⟩
            rw [bind_eq_ok] at h
            rcases h with ⟨e, p₄, he, h⟩
            rw [bind_eq_ok] at h
            rcases h with ⟨semi, p₅, hsemi, h⟩
            rw [bind_eq_ok] at h
            rcases h with ⟨fs', p₆, hfs, h⟩
            cases h
            rcases expect_eq_ok hkey with ⟨hkeyKind, rfl, htakeKey⟩
            rcases expect_eq_ok hassign with ⟨hassignKind, rfl, htakeAssign⟩
            rcases expect_eq_ok hsemi with ⟨hsemiKind, rfl, htakeSemi⟩
            rcases hexpr he with ⟨ts, hts, hder⟩
            rcases ih hfs with ⟨us, hus, hders⟩
            exact ⟨_, .cons htakeKey (.cons htakeAssign (hts.append (.cons htakeSemi hus))),
              .field hkeyKind hassignKind hder hsemiKind hders⟩

theorem parseArray_sound (hbelow : below.Sound) {offset : Nat}
    (h : parseArray below offset p = .ok e q) (hoffset : offset = p.cur.offset) :
    ∃ ts, Takes p ts q ∧ Derives (.primary e) ts := by
  subst hoffset
  rw [parseArray, bind_eq_ok] at h
  rcases h with ⟨l, p₁, hl, h⟩
  rcases expect_eq_ok hl with ⟨hlKind, rfl, htakeL⟩
  rw [bind_eq_ok] at h
  rcases h with ⟨es, p₂, hes, h⟩
  rw [bind_eq_ok] at h
  rcases h with ⟨r, p₃, hr, h⟩
  rcases expect_eq_ok hr with ⟨hrKind, rfl, htakeR⟩
  cases h
  rw [parseElementList, bind_of_ok (check_run _ p₁)] at hes
  split at hes
  · cases hes
    exact ⟨_, .cons htakeL (.single htakeR), .emptyArray hlKind hrKind⟩
  · rw [bind_of_ok (get_run p₁)] at hes
    rcases parseElements_sound hbelow.expr _ hes with ⟨ts, hts, hder⟩
    exact ⟨_, .cons htakeL (hts.snoc htakeR), .array hlKind hder hrKind⟩

theorem parseObject_sound (hbelow : below.Sound) {offset : Nat}
    (h : parseObject below offset p = .ok e q) (hoffset : offset = p.cur.offset) :
    ∃ ts, Takes p ts q ∧ Derives (.primary e) ts := by
  subst hoffset
  rw [parseObject, bind_eq_ok] at h
  rcases h with ⟨l, p₁, hl, h⟩
  rcases expect_eq_ok hl with ⟨hlKind, rfl, htakeL⟩
  rw [bind_of_ok (get_run p₁)] at h
  rw [bind_eq_ok] at h
  rcases h with ⟨fs, p₂, hfs, h⟩
  rw [bind_eq_ok] at h
  rcases h with ⟨r, p₃, hr, h⟩
  rcases expect_eq_ok hr with ⟨hrKind, rfl, htakeR⟩
  cases h
  rcases parseFields_sound hbelow.expr _ _ hfs with ⟨ts, hts, hder⟩
  exact ⟨_, .cons htakeL (hts.snoc htakeR), .object hlKind hder hrKind⟩

theorem parsePrimary_sound (hbelow : below.Sound) : Sound (parsePrimary below) .primary := by
  intro p e q h
  rw [parsePrimary, bind_of_ok (get_run p)] at h
  cases hleaf : leaf? p.cur with
  | some node =>
      simp only [hleaf] at h
      rw [bind_eq_ok] at h
      rcases h with ⟨t, p₁, ht, h⟩
      cases h
      cases cur_of_take ht
      exact ⟨_, .single ht, .leaf (leaf_of_leaf? hleaf)⟩
  | none =>
      simp only [hleaf] at h
      split at h
      · next hparen =>
        rw [bind_eq_ok] at h
        rcases h with ⟨l, p₁, hl, h⟩
        rw [bind_eq_ok] at h
        rcases h with ⟨inner, p₂, hinner, h⟩
        rw [bind_eq_ok] at h
        rcases h with ⟨r, p₃, hr, h⟩
        cases h
        cases cur_of_take hl
        rcases expect_eq_ok hr with ⟨hrKind, rfl, htakeR⟩
        rcases hbelow.expr hinner with ⟨ts, hts, hder⟩
        exact ⟨_, .cons hl (hts.snoc htakeR), .paren hparen hder hrKind⟩
      · split at h
        · exact parseArray_sound hbelow h rfl
        · split at h
          · exact parseObject_sound hbelow h rfl
          · cases h

/-! ### Operators -/

theorem parseUnary_sound (hbelow : below.Sound) : Sound (parseUnary below) .unary := by
  intro p e q h
  rw [parseUnary, bind_of_ok (get_run p)] at h
  split at h
  · next hop =>
    rw [bind_eq_ok] at h
    rcases h with ⟨op, p₁, htake, h⟩
    rw [bind_eq_ok] at h
    rcases h with ⟨operand, p₂, hoperand, h⟩
    cases h
    cases cur_of_take htake
    rcases hbelow.unary hoperand with ⟨ts, hts, hder⟩
    refine ⟨_, .cons htake hts, .unary ?_ hder⟩
    simpa [isUnaryOp, or_assoc] using hop
  · rcases parsePrimary_sound hbelow h with ⟨ts, hts, hder⟩
    exact ⟨ts, hts, .primary hder⟩

/-- The invariant of the operator loop: `lhs` is an operand for the operator that is next. -/
theorem binaryLoop_sound (hbelow : below.Sound) {minPrec : Int} (fuel : Nat) {lhs : Expr}
    {ls : List Token} {start : Parser σ} {prec : Int} (hmin : minPrec ≤ prec) (htwo : 2 ≤ prec)
    (hls : Takes start ls p) (hlhs : Tier prec lhs ls) (hnext : binaryPrecedence p.cur.kind ≤ prec)
    (hpos : 1 ≤ minPrec) (h : binaryLoop below minPrec fuel lhs p = .ok e q) :
    ∃ prec ts, minPrec ≤ prec ∧ 2 ≤ prec ∧ Takes start ts q ∧ Tier prec e ts ∧
      binaryPrecedence q.cur.kind < minPrec := by
  induction fuel generalizing lhs ls p prec with
  | zero => cases h
  | succ fuel ih =>
      rw [binaryLoop, bind_of_ok (get_run p)] at h
      split at h
      · next hstop =>
        cases h
        exact ⟨prec, ls, hmin, htwo, hls, hlhs, hstop⟩
      · next hgo =>
        rw [bind_eq_ok] at h
        rcases h with ⟨op, p₁, htake, h⟩
        rw [bind_eq_ok] at h
        rcases h with ⟨rhs, p₂, hrhs, h⟩
        cases cur_of_take htake
        have hge : 2 ≤ binaryPrecedence p.cur.kind := by
          rcases precedence_cases p.cur.kind with hnone | ⟨level, hmem⟩
          · omega
          · rw [precedence_of_mem hmem]
            exact level.prec_bounds.1
        have hle := precedence_le p.cur.kind
        rcases hbelow.binary _ (by omega) (by omega) hrhs with ⟨prec', us, hmin', -, hus, htier, hnext'⟩
        exact ih (by omega) hge (hls.append (.cons htake hus))
          (.join hge (hlhs.mono hnext) (htier.mono hmin')) (by omega) h

theorem parseBinary_sound (hbelow : below.Sound) {minPrec : Int} (hpos : 1 ≤ minPrec)
    (hmax : minPrec ≤ 12) : SoundBinary (parseBinary below minPrec) minPrec := by
  intro p e q h
  rw [parseBinary, bind_eq_ok] at h
  rcases h with ⟨lhs, p₁, hlhs, h⟩
  rw [bind_of_ok (get_run p₁)] at h
  rcases hbelow.unary hlhs with ⟨ts, hts, hder⟩
  exact binaryLoop_sound hbelow _ hmax (by decide) hts (.of_unary hder)
    ((precedence_le _).trans (by decide)) hpos h

theorem parseTernary_sound (hbelow : below.Sound) : Sound (parseTernary below) .expr := by
  intro p e q h
  rw [parseTernary, bind_eq_ok] at h
  rcases h with ⟨cond, p₁, hcond, h⟩
  rcases parseBinary_sound hbelow (by decide) (by decide) hcond with
    ⟨prec, ts, -, htwo, hts, htier, -⟩
  have hderCond := htier.binary .logicOr htwo
  rw [bind_of_ok (check_run _ p₁)] at h
  split at h
  · next hq =>
    rw [bind_eq_ok] at h
    rcases h with ⟨question, p₂, hquestion, h⟩
    rw [bind_eq_ok] at h
    rcases h with ⟨then_, p₃, hthen, h⟩
    rw [bind_eq_ok] at h
    rcases h with ⟨colon, p₄, hcolon, h⟩
    rw [bind_eq_ok] at h
    rcases h with ⟨else_, p₅, helse, h⟩
    cases h
    cases cur_of_take hquestion
    rcases expect_eq_ok hcolon with ⟨hcolonKind, rfl, htakeColon⟩
    rcases hbelow.expr hthen with ⟨us, hus, hderThen⟩
    rcases hbelow.expr helse with ⟨vs, hvs, hderElse⟩
    exact ⟨_, hts.append (.cons hquestion (hus.append (.cons htakeColon hvs))),
      .ternary hderCond (of_decide_eq_true hq) hderThen hcolonKind hderElse⟩
  · cases h
    exact ⟨ts, hts, .plain hderCond⟩

/-- Every expression production at every depth is sound. -/
theorem productions_sound (room : Nat) : (productions room : Deeper σ).Sound := by
  induction room with
  | zero =>
      exact {
        expr := fun h => absurd h tooDeep_ne_ok
        unary := fun h => absurd h tooDeep_ne_ok
        binary := fun _ _ _ _ _ _ h => absurd h tooDeep_ne_ok }
  | succ room ih =>
      exact {
        expr := parseTernary_sound ih
        unary := parseUnary_sound ih
        binary := fun _ hpos hmax => parseBinary_sound ih hpos hmax }

end Bytewright.Cfgscript
