import Bytewright.Verification.Cfgscript.Completeness
import Bytewright.Verification.Cfgscript.Soundness

/-! # The expression parser and its grammar -/

namespace Bytewright.Cfgscript

/-- Let `ts` be a sequence of tokens with something behind it that cannot continue an expression.
An expression parser that takes just `ts` returns the tree of a derivation; and on a derivable `ts`
it does that, unless it exceeds the depth limit. -/
theorem parseExpr_derives {σ : Type} [TokenSource σ] [LawfulTokenSource σ] (depth : Nat)
    {p q : Parser σ} {ts : List Token} (htakes : Takes p ts q) (hts : ∀ t ∈ ts, t.kind ≠ .kEof)
    (hstop : ¬ Continues q.cur.kind) (e : Expr) :
    (parseExpr depth p = .ok e q → Derives (.expr e) ts) ∧
      (Derives (.expr e) ts → parseExpr depth p = .ok e q ∨ ExceedsDepth (parseExpr depth) p) := by
  constructor
  · intro h
    rcases (productions_sound _).expr h with ⟨us, hus, hder⟩
    rwa [htakes.unique hus hts hder.not_eof]
  · intro h
    exact h.parses _ htakes hstop

/-- `1 - 2 - 3` associates to the left. -/
theorem parseExpr_derives_minus :
    Derives
      (.expr (.binary 6 .kMinus (.binary 2 .kMinus (.int 0 1) (.int 4 2)) (.int 8 3)))
      [{ kind := .kInt, offset := 0, intValue := 1 }, { kind := .kMinus, offset := 2 },
        { kind := .kInt, offset := 4, intValue := 2 }, { kind := .kMinus, offset := 6 },
        { kind := .kInt, offset := 8, intValue := 3 }] :=
  (parseExpr_derives 1 (q := { lexer := ([] : List Token), cur := {} })
    (.cons (p := ⟨[{ kind := .kMinus, offset := 2 }, { kind := .kInt, offset := 4, intValue := 2 },
        { kind := .kMinus, offset := 6 }, { kind := .kInt, offset := 8, intValue := 3 }],
        { kind := .kInt, offset := 0, intValue := 1 }⟩)
      rfl (.cons rfl (.cons rfl (.cons rfl (.single rfl)))))
    (by decide) (not_continues_of_closing (by decide)) _).1 rfl

end Bytewright.Cfgscript
