import Bytewright.Verification.Cfgscript.Grammar
import Bytewright.Verification.Cfgscript.TokenStream

/-! # What is derivable the expression parser accepts

The parser gives the tree of a derivation, unless a production is entered too deep on the way. -/

namespace Bytewright.Cfgscript

open Bytewright.Common

/-- The exception of a production that is entered too deep. -/
def ExceedsDepth {σ α : Type} (m : Parse σ α) (p : Parser σ) : Prop :=
  ∃ offset s, m p = .error (.thrown ⟨.kDepthExceeded, offset, "nesting too deep"⟩) s

/-- `m` returns `a` in front of what `q` is in front of, if the depth allows it. -/
def Gives {σ α : Type} (m : Parse σ α) (p : Parser σ) (a : α) (q : Parser σ) : Prop :=
  m p = .ok a q ∨ ExceedsDepth m p

section Gives

variable {σ α β : Type} {m m' : Parse σ α} {p q r : Parser σ} {a : α} {b : β}

theorem exceedsDepth_tooDeep : ExceedsDepth (tooDeep : Parse σ α) p := ⟨_, _, rfl⟩

theorem ExceedsDepth.bind (h : ExceedsDepth m p) (f : α → Parse σ β) : ExceedsDepth (m >>= f) p := by
  rcases h with ⟨offset, s, h⟩
  exact ⟨offset, s, by rw [bind_run, h]⟩

theorem ExceedsDepth.congr (h : ExceedsDepth m p) (heq : m' q = m p) : ExceedsDepth m' q := by
  rcases h with ⟨offset, s, h⟩
  exact ⟨offset, s, heq.trans h⟩

theorem Gives.of_ok (h : m p = .ok a q) : Gives m p a q := .inl h

theorem Gives.congr (h : Gives m p a r) (heq : m' q = m p) : Gives m' q a r :=
  h.imp heq.trans (·.congr heq)

theorem Gives.bind {f : α → Parse σ β} (h : Gives m p a q) (h' : Gives (f a) q b r) :
    Gives (m >>= f) p b r := by
  rcases h with h | h
  · exact h'.congr (bind_of_ok h)
  · exact .inr (h.bind f)

/-- A step that returns, then the rest. -/
theorem Gives.step {f : α → Parse σ β} (h : m p = .ok a q) (h' : Gives (f a) q b r) :
    Gives (m >>= f) p b r := (Gives.of_ok h).bind h'

end Gives

variable {σ : Type} [TokenSource σ]

/-- `parse_binary` comes to its operator loop with the tree `e`, if the depth allows it. -/
def Reaches (below : Deeper σ) (minPrec : Int) (p : Parser σ) (e : Expr) (q : Parser σ) : Prop :=
  (∃ fuel, q.left < fuel ∧ parseBinary below minPrec p = binaryLoop below minPrec fuel e q) ∨
    ExceedsDepth (parseBinary below minPrec) p

/-- What the parser is to do on the tokens of a phrase, at any depth. -/
def Parses (σ : Type) [TokenSource σ] (ts : List Token) : Phrase → Prop
  | .expr e => ∀ room {p q : Parser σ}, Takes p ts q → ¬ Continues q.cur.kind →
      Gives (productions room).expr p e q
  | .binary level e => ∀ room {p q : Parser σ} {minPrec}, Takes p ts q → minPrec ≤ level.prec →
      binaryPrecedence q.cur.kind ≤ level.prec → Reaches (productions room) minPrec p e q
  | .unary e => ∀ room {p q : Parser σ}, Takes p ts q → Gives (productions room).unary p e q
  | .primary e => ∀ room {p q : Parser σ}, Takes p ts q →
      isUnaryOp p.cur.kind = false ∧ Gives (parsePrimary (productions room)) p e q
  | .elements es => ∀ room fuel {p q : Parser σ}, Takes p ts q → p.left < fuel →
      q.cur.kind = .kRBracket → Gives (parseElements (productions room).expr fuel) p es q
  | .fields fs => ∀ room fuel offset {p q : Parser σ}, Takes p ts q → p.left < fuel →
      q.cur.kind = .kRBrace → Gives (parseFields (productions room).expr offset fuel) p fs q

/-! ### Binary levels -/

section Binary

variable {below : Deeper σ} {minPrec : Int} {p q : Parser σ} {e : Expr} {ts us : List Token}
  {level : Level}

theorem binaryLoop_of_lt {fuel : Nat} (hfuel : q.left < fuel)
    (h : binaryPrecedence q.cur.kind < minPrec) : binaryLoop below minPrec fuel e q = .ok e q := by
  obtain ⟨fuel, rfl⟩ := Nat.exists_eq_add_of_lt hfuel
  rw [binaryLoop, bind_of_ok (get_run q), if_pos h]
  rfl

/-- No operator that binds tight enough is next: the tree is the result. -/
theorem Reaches.gives (h : Reaches below minPrec p e q)
    (hstop : binaryPrecedence q.cur.kind < minPrec) : Gives (parseBinary below minPrec) p e q := by
  rcases h with ⟨fuel, hfuel, h⟩ | h
  · exact .of_ok (h.trans (binaryLoop_of_lt hfuel hstop))
  · exact .inr h

theorem Gives.reaches (h : Gives below.unary p e q) : Reaches below minPrec p e q := by
  rcases h with h | h
  · refine .inl ⟨q.fuel, q.left_lt_fuel, ?_⟩
    rw [parseBinary, bind_of_ok h, bind_of_ok (get_run q)]
  · exact .inr (h.bind _)

theorem Parses.operand_reaches (h : Parses σ ts (level.operand e)) (room : Nat) (hts : Takes p ts q)
    (hmin : minPrec ≤ level.prec + 1) (hnext : binaryPrecedence q.cur.kind ≤ level.prec) :
    Reaches (productions room) minPrec p e q := by
  rw [Level.operand] at h
  cases ht : level.tighter with
  | some tighter =>
      rw [ht] at h
      have hprec := level.prec_tighter ht
      exact h room hts (by omega) (by omega)
  | none =>
      rw [ht] at h
      exact (h room hts).reaches

/-- The right operand, parsed one precedence up and one level deeper. -/
theorem Parses.operand_gives (h : Parses σ ts (level.operand e)) (room : Nat) (hts : Takes p ts q)
    (hnext : binaryPrecedence q.cur.kind ≤ level.prec) :
    Gives ((productions room).binary (level.prec + 1)) p e q := by
  cases room with
  | zero => exact .inr exceedsDepth_tooDeep
  | succ room => exact (h.operand_reaches room hts (Int.le_refl _) hnext).gives (by omega)

variable [LawfulTokenSource σ]

theorem parses_binary {lhs rhs : Expr} {op : Token} (hlhs : Parses σ ts (.binary level lhs))
    (hop : op.kind ∈ level.operators) (hrhs : Parses σ us (level.operand rhs))
    (hus : ∀ t ∈ us, t.kind ≠ .kEof) :
    Parses σ (ts ++ op :: us) (.binary level (.binary op.offset op.kind lhs rhs)) := by
  intro room p q minPrec htakes hmin hnext
  rcases htakes.append_inv with ⟨p₁, hts, htakes⟩
  rcases htakes.cons_inv with ⟨rfl, p₂, htake, hus'⟩
  have hprec := precedence_of_mem hop
  rcases hlhs room hts hmin hprec.le with ⟨fuel, hfuel, h⟩ | h
  · obtain ⟨fuel, rfl⟩ := Nat.exists_eq_add_one_of_ne_zero (Nat.ne_zero_of_lt hfuel)
    -- the loop takes the operator and parses its right operand
    have hloop : binaryLoop (productions room) minPrec (fuel + 1) lhs p₁ =
        ((productions room).binary (level.prec + 1) >>= fun rhs =>
          binaryLoop (productions room) minPrec fuel (.binary p₁.cur.offset p₁.cur.kind lhs rhs)) p₂ := by
      rw [binaryLoop, bind_of_ok (get_run p₁), if_neg (by omega), bind_of_ok htake, hprec]
    rcases hrhs.operand_gives room hus' hnext with hr | hr
    · refine .inl ⟨fuel, ?_, ?_⟩
      · have hstep := left_of_take htake (not_eof_of_mem hop)
        have hle := hus'.left_le hus
        omega
      · rw [h, hloop, bind_of_ok hr]
    · exact .inr ((hr.bind _).congr (h.trans hloop))
  · exact .inr h

end Binary

/-! ### Unary expressions and primaries -/

section Primary

variable {below : Deeper σ} {p q : Parser σ} {e : Expr} {ts : List Token}

theorem parses_unary {op : Token} (hop : op.kind ∈ [TokenKind.kMinus, .kBang, .kTilde])
    (h : Parses σ ts (.unary e)) : Parses σ (op :: ts) (.unary (.unary op.offset op.kind e)) := by
  intro room p q htakes
  rcases htakes.cons_inv with ⟨rfl, p₁, htake, hts⟩
  cases room with
  | zero => exact .inr exceedsDepth_tooDeep
  | succ room =>
      have hunary : isUnaryOp p.cur.kind = true := by simpa [isUnaryOp, or_assoc] using hop
      show Gives (parseUnary (productions room)) p _ q
      rw [parseUnary]
      apply Gives.step (get_run p)
      rw [if_pos hunary]
      exact .step htake ((h room hts).bind (.of_ok rfl))

theorem parses_unary_primary (h : Parses σ ts (.primary e)) : Parses σ ts (.unary e) := by
  intro room p q htakes
  cases room with
  | zero => exact .inr exceedsDepth_tooDeep
  | succ room =>
      rcases h room htakes with ⟨hunary, h⟩
      show Gives (parseUnary (productions room)) p _ q
      rw [parseUnary]
      apply Gives.step (get_run p)
      rwa [hunary, if_neg (by decide)]

theorem leaf?_of_leaf {t : Token} (h : Leaf t e) : leaf? t = some e := by
  cases h <;> simp [leaf?, *]

theorem leaf?_eq_none {t : Token} (h : t.kind ∈ [TokenKind.kLParen, .kLBracket, .kLBrace]) :
    leaf? t = none := by
  simp only [List.mem_cons, List.not_mem_nil, or_false] at h
  rcases h with h | h | h <;> rw [leaf?, h]

theorem not_unaryOp_of_opening {t : Token}
    (h : t.kind ∈ [TokenKind.kLParen, .kLBracket, .kLBrace]) : isUnaryOp t.kind = false := by
  simp only [List.mem_cons, List.not_mem_nil, or_false] at h
  rcases h with h | h | h <;> rw [h] <;> rfl

theorem parsePrimary_of_paren (h : p.cur.kind = .kLParen) :
    parsePrimary below p = (do
      let _ ← take
      let inner ← below.expr
      let _ ← expect .kRParen "')' to close parenthesized expression"
      return inner : Parse σ Expr) p := by
  have hleaf := leaf?_eq_none (t := p.cur) (by rw [h]; decide)
  simp [parsePrimary, bind_run, hleaf, h]

theorem parsePrimary_of_bracket (h : p.cur.kind = .kLBracket) :
    parsePrimary below p = parseArray below p.cur.offset p := by
  have hleaf := leaf?_eq_none (t := p.cur) (by rw [h]; decide)
  simp [parsePrimary, bind_run, hleaf, h]

theorem parsePrimary_of_brace (h : p.cur.kind = .kLBrace) :
    parsePrimary below p = parseObject below p.cur.offset p := by
  have hleaf := leaf?_eq_none (t := p.cur) (by rw [h]; decide)
  simp [parsePrimary, bind_run, hleaf, h]

theorem not_unaryOp_of_leaf {t : Token} (h : Leaf t e) : isUnaryOp t.kind = false := by
  cases h <;> simp [isUnaryOp, *]

theorem parsePrimary_of_leaf (h : leaf? p.cur = some e) (htake : take p = .ok p.cur q) :
    parsePrimary below p = .ok e q := by
  simp [parsePrimary, bind_run, h, htake]

theorem parses_leaf {t : Token} (h : Leaf t e) : Parses σ [t] (.primary e) := by
  intro room p q htakes
  rcases htakes.cons_inv with ⟨rfl, p₁, htake, hnil⟩
  cases hnil.nil_inv
  exact ⟨not_unaryOp_of_leaf h, .of_ok (parsePrimary_of_leaf (leaf?_of_leaf h) htake)⟩

theorem expect_gives {kind : TokenKind} {what : String} {α : Type} {a : α} {r : Parser σ}
    {f : Token → Parse σ α} (h : p.cur.kind = kind) (htake : take p = .ok p.cur q)
    (h' : Gives (f p.cur) q a r) : Gives (expect kind what >>= f) p a r :=
  .step ((expect_of_eq h what).trans htake) h'

theorem not_continues_of_closing {kind : TokenKind}
    (h : kind ∈ [TokenKind.kRParen, .kRBracket, .kRBrace, .kComma, .kColon, .kSemicolon, .kEof]) :
    ¬ Continues kind := by
  rintro (rfl | ⟨level, hlevel⟩)
  · revert h
    decide
  · revert h hlevel
    cases level <;> cases kind <;> decide

theorem parses_paren {l r : Token} (hl : l.kind = .kLParen) (h : Parses σ ts (.expr e))
    (hr : r.kind = .kRParen) : Parses σ (l :: (ts ++ [r])) (.primary e) := by
  intro room p q htakes
  rcases htakes.between_inv with ⟨rfl, p₁, p₂, htakeL, hts, rfl, htakeR⟩
  refine ⟨not_unaryOp_of_opening (by rw [hl]; decide), ?_⟩
  refine Gives.congr ?_ (parsePrimary_of_paren hl)
  apply Gives.step htakeL
  apply Gives.bind (h room hts (not_continues_of_closing (by rw [hr]; decide)))
  exact expect_gives hr htakeR (.of_ok rfl)

/-! ### Aggregates -/

theorem parses_emptyArray {l r : Token} (hl : l.kind = .kLBracket) (hr : r.kind = .kRBracket) :
    Parses σ [l, r] (.primary (.array l.offset [])) := by
  intro room p q htakes
  rcases htakes.cons_inv with ⟨rfl, p₁, htakeL, htakes⟩
  rcases htakes.cons_inv with ⟨rfl, p₂, htakeR, hnil⟩
  cases hnil.nil_inv
  refine ⟨not_unaryOp_of_opening (by rw [hl]; decide), ?_⟩
  have hlist : parseElementList (productions room).expr p₁ = .ok [] p₁ := by
    simp [parseElementList, bind_run, hr]
  refine Gives.congr ?_ (parsePrimary_of_bracket hl)
  apply expect_gives hl htakeL
  apply Gives.step hlist
  exact expect_gives hr htakeR (.of_ok rfl)

theorem Takes.cur_ne_of_starts {kind : TokenKind} (h : Takes p ts q)
    (hstart : ∃ t us, ts = t :: us ∧ Starts t.kind) (hkind : ¬ Starts kind) : p.cur.kind ≠ kind := by
  rcases hstart with ⟨t, us, rfl, ht⟩
  rcases h.cons_inv with ⟨rfl, -⟩
  intro heq
  exact hkind (heq ▸ ht)

theorem parses_array {es : List Expr} {l r : Token} (hl : l.kind = .kLBracket)
    (h : Parses σ ts (.elements es)) (hr : r.kind = .kRBracket)
    (hstart : ∃ t us, ts = t :: us ∧ Starts t.kind) :
    Parses σ (l :: (ts ++ [r])) (.primary (.array l.offset es)) := by
  intro room p q htakes
  rcases htakes.between_inv with ⟨rfl, p₁, p₂, htakeL, hts, rfl, htakeR⟩
  refine ⟨not_unaryOp_of_opening (by rw [hl]; decide), ?_⟩
  -- the first element is in front, not the closing bracket
  have hopen : p₁.cur.kind ≠ .kRBracket := hts.cur_ne_of_starts hstart (by unfold Starts; decide)
  refine Gives.congr ?_ (parsePrimary_of_bracket hl)
  apply expect_gives hl htakeL
  have hlist : parseElementList (productions room).expr p₁ =
      parseElements (productions room).expr p₁.fuel p₁ := by
    simp [parseElementList, bind_run, hopen]
  apply Gives.bind ((h room p₁.fuel hts p₁.left_lt_fuel hr).congr hlist)
  exact expect_gives hr htakeR (.of_ok rfl)

theorem parses_object {fs : List (Bytes × Expr)} {l r : Token} (hl : l.kind = .kLBrace)
    (h : Parses σ ts (.fields fs)) (hr : r.kind = .kRBrace) :
    Parses σ (l :: (ts ++ [r])) (.primary (.object l.offset fs)) := by
  intro room p q htakes
  rcases htakes.between_inv with ⟨rfl, p₁, p₂, htakeL, hts, rfl, htakeR⟩
  refine ⟨not_unaryOp_of_opening (by rw [hl]; decide), ?_⟩
  refine Gives.congr ?_ (parsePrimary_of_brace hl)
  apply expect_gives hl htakeL
  apply Gives.step (get_run p₁)
  apply Gives.bind (h room p₁.fuel _ hts p₁.left_lt_fuel hr)
  exact expect_gives hr htakeR (.of_ok rfl)

end Primary

/-! ### Members -/

section Members

variable {p q : Parser σ} {e : Expr} {es : List Expr} {fs : List (Bytes × Expr)} {ts us : List Token}

theorem parses_last (h : Parses σ ts (.expr e)) : Parses σ ts (.elements [e]) := by
  intro room fuel p q hts hfuel hclose
  obtain ⟨fuel, rfl⟩ := Nat.exists_eq_add_one_of_ne_zero (Nat.ne_zero_of_lt hfuel)
  apply Gives.bind (h room hts (not_continues_of_closing (by rw [hclose]; decide)))
  exact .step (accept_of_ne (by rw [hclose]; decide)) (.of_ok rfl)

theorem parses_lastComma {comma : Token} (h : Parses σ ts (.expr e)) (hc : comma.kind = .kComma) :
    Parses σ (ts ++ [comma]) (.elements [e]) := by
  intro room fuel p q htakes hfuel hclose
  obtain ⟨fuel, rfl⟩ := Nat.exists_eq_add_one_of_ne_zero (Nat.ne_zero_of_lt hfuel)
  rcases htakes.append_inv with ⟨p₁, hts, htakes⟩
  rcases htakes.cons_inv with ⟨rfl, p₂, htake, hnil⟩
  cases hnil.nil_inv
  apply Gives.bind (h room hts (not_continues_of_closing (by rw [hc]; decide)))
  apply Gives.step (accept_of_eq hc htake)
  exact .of_ok (by simp [bind_run, hclose])

theorem parses_noFields : Parses σ [] (.fields []) := by
  intro room fuel offset p q htakes hfuel hclose
  obtain ⟨fuel, rfl⟩ := Nat.exists_eq_add_one_of_ne_zero (Nat.ne_zero_of_lt hfuel)
  cases htakes.nil_inv
  exact .of_ok (by simp [parseFields, bind_run, hclose])

/-- A member that is there: the loop goes past its two tests. -/
theorem parseFields_of_member {expr : Parse σ Expr} {offset fuel : Nat}
    (hclose : p.cur.kind ≠ .kRBrace) (heof : p.cur.kind ≠ .kEof) :
    parseFields expr offset (fuel + 1) p = (do
      if ← accept .kSemicolon then parseFields expr offset fuel
      else
        let key ← expect .kIdent "key identifier in object literal"
        let _ ← expect .kAssign "'=' after object key"
        let value ← expr
        let _ ← expect .kSemicolon "';' after object field"
        return (key.text, value) :: (← parseFields expr offset fuel) : Parse σ _) p := by
  rw [parseFields, bind_of_ok (check_run _ p)]
  simp only [hclose, decide_false, Bool.false_eq_true, if_false]
  rw [bind_of_ok (check_run _ p)]
  simp only [heof, decide_false, Bool.false_eq_true, if_false]

variable [LawfulTokenSource σ]

theorem parses_element {comma : Token} (h : Parses σ ts (.expr e)) (hc : comma.kind = .kComma)
    (hs : Parses σ us (.elements es)) (hts : ∀ t ∈ ts, t.kind ≠ .kEof)
    (hstart : ∃ t vs, us = t :: vs ∧ Starts t.kind) :
    Parses σ (ts ++ comma :: us) (.elements (e :: es)) := by
  intro room fuel p q htakes hfuel hclose
  obtain ⟨fuel, rfl⟩ := Nat.exists_eq_add_one_of_ne_zero (Nat.ne_zero_of_lt hfuel)
  rcases htakes.append_inv with ⟨p₁, hp₁, htakes⟩
  rcases htakes.cons_inv with ⟨rfl, p₂, htake, hus⟩
  have hopen : p₂.cur.kind ≠ .kRBracket := hus.cur_ne_of_starts hstart (by unfold Starts; decide)
  apply Gives.bind (h room hp₁ (not_continues_of_closing (by rw [hc]; decide)))
  apply Gives.step (accept_of_eq hc htake)
  apply Gives.step (check_run _ p₂)
  have hleft : p₂.left < fuel := by
    have hle := hp₁.left_le hts
    have hlt := left_of_take htake (by rw [hc]; decide)
    omega
  simp only [hopen, decide_false, Bool.false_eq_true, if_false]
  exact (hs room fuel hus hleft hclose).bind (.of_ok rfl)

theorem parses_stray {semi : Token} (hs : semi.kind = .kSemicolon) (h : Parses σ ts (.fields fs)) :
    Parses σ (semi :: ts) (.fields fs) := by
  intro room fuel offset p q htakes hfuel hclose
  obtain ⟨fuel, rfl⟩ := Nat.exists_eq_add_one_of_ne_zero (Nat.ne_zero_of_lt hfuel)
  rcases htakes.cons_inv with ⟨rfl, p₁, htake, hts⟩
  have hlt := left_of_take htake (by rw [hs]; decide)
  refine Gives.congr ?_ (parseFields_of_member (by rw [hs]; decide) (by rw [hs]; decide))
  apply Gives.step (accept_of_eq hs htake)
  exact h room fuel offset hts (by omega) hclose

theorem parses_field {key assign semi : Token} (hk : key.kind = .kIdent)
    (ha : assign.kind = .kAssign) (h : Parses σ ts (.expr e)) (hs : semi.kind = .kSemicolon)
    (hf : Parses σ us (.fields fs)) (hts : ∀ t ∈ ts, t.kind ≠ .kEof) :
    Parses σ (key :: assign :: (ts ++ semi :: us)) (.fields ((key.text, e) :: fs)) := by
  intro room fuel offset p q htakes hfuel hclose
  obtain ⟨fuel, rfl⟩ := Nat.exists_eq_add_one_of_ne_zero (Nat.ne_zero_of_lt hfuel)
  rcases htakes.cons_inv with ⟨rfl, p₁, htakeKey, htakes⟩
  rcases htakes.cons_inv with ⟨rfl, p₂, htakeAssign, htakes⟩
  rcases htakes.append_inv with ⟨p₃, hp₃, htakes⟩
  rcases htakes.cons_inv with ⟨rfl, p₄, htakeSemi, hus⟩
  have hleft : p₄.left < fuel := by
    have hkey := left_of_take htakeKey (by rw [hk]; decide)
    have hassign := left_of_take htakeAssign (by rw [ha]; decide)
    have hexpr := hp₃.left_le hts
    have hsemi := left_of_take htakeSemi (by rw [hs]; decide)
    omega
  refine Gives.congr ?_ (parseFields_of_member (by rw [hk]; decide) (by rw [hk]; decide))
  apply Gives.step (accept_of_ne (by rw [hk]; decide))
  apply expect_gives hk htakeKey
  apply expect_gives ha htakeAssign
  apply Gives.bind (h room hp₃ (not_continues_of_closing (by rw [hs]; decide)))
  apply expect_gives hs htakeSemi
  exact (hf room fuel offset hus hleft hclose).bind (.of_ok rfl)

end Members

/-! ### Ternaries -/

section Ternary

variable {e : Expr} {ts us vs : List Token}

theorem parses_plain (h : Parses σ ts (.binary .logicOr e)) : Parses σ ts (.expr e) := by
  intro room p q hts hstop
  cases room with
  | zero => exact .inr exceedsDepth_tooDeep
  | succ room =>
      have hprec := precedence_of_not_continues hstop
      have hcond : Reaches (productions room) 1 p e q :=
        h room hts (by decide) (by rw [hprec]; decide)
      apply Gives.bind (hcond.gives (by rw [hprec]; decide))
      apply Gives.step (check_run _ q)
      have hq : q.cur.kind ≠ .kQuestion := fun heq => hstop (.inl heq)
      simp only [hq, decide_false, Bool.false_eq_true, if_false]
      exact .of_ok rfl

theorem parses_ternary {cond then_ else_ : Expr} {question colon : Token}
    (hcond : Parses σ ts (.binary .logicOr cond)) (hq : question.kind = .kQuestion)
    (hthen : Parses σ us (.expr then_)) (hc : colon.kind = .kColon)
    (helse : Parses σ vs (.expr else_)) :
    Parses σ (ts ++ question :: (us ++ colon :: vs))
      (.expr (.ternary question.offset cond then_ else_)) := by
  intro room p q htakes hstop
  rcases htakes.append_inv with ⟨p₁, hts, htakes⟩
  rcases htakes.cons_inv with ⟨rfl, p₂, htakeQ, htakes⟩
  rcases htakes.append_inv with ⟨p₃, hus, htakes⟩
  rcases htakes.cons_inv with ⟨rfl, p₄, htakeC, hvs⟩
  cases room with
  | zero => exact .inr exceedsDepth_tooDeep
  | succ room =>
      have hreach : Reaches (productions room) 1 p cond p₁ :=
        hcond room hts (by decide) (by rw [hq]; decide)
      apply Gives.bind (hreach.gives (by rw [hq]; decide))
      apply Gives.step (check_run _ p₁)
      simp only [hq, decide_true, if_true]
      apply Gives.step htakeQ
      apply Gives.bind (hthen room hus (not_continues_of_closing (by rw [hc]; decide)))
      apply expect_gives hc htakeC
      exact (helse room hvs hstop).bind (.of_ok rfl)

end Ternary

/-! ### The grammar as a whole -/

variable [LawfulTokenSource σ]

/-- Every phrase is parsed as the tree its derivation yields. -/
theorem Derives.parses {φ : Phrase} {ts : List Token} (h : Derives φ ts) : Parses σ ts φ := by
  induction h with
  | plain _ ih => exact parses_plain ih
  | ternary _ hq _ hc _ ihCond ihThen ihElse => exact parses_ternary ihCond hq ihThen hc ihElse
  | operand _ ih =>
      intro room p q minPrec hts hmin hnext
      exact ih.operand_reaches room hts (by omega) hnext
  | binary _ hop hr ihl ihr => exact parses_binary ihl hop ihr hr.not_eof
  | unary hop _ ih => exact parses_unary hop ih
  | primary _ ih => exact parses_unary_primary ih
  | leaf h => exact parses_leaf h
  | paren hl _ hr ih => exact parses_paren hl ih hr
  | emptyArray hl hr => exact parses_emptyArray hl hr
  | array hl h hr ih => exact parses_array hl ih hr (h.starts trivial)
  | object hl _ hr ih => exact parses_object hl ih hr
  | last _ ih => exact parses_last ih
  | lastComma _ hc ih => exact parses_lastComma ih hc
  | element h hc hs ih ihs => exact parses_element ih hc ihs h.not_eof (hs.starts trivial)
  | noFields => exact parses_noFields
  | stray hs _ ih => exact parses_stray hs ih
  | field hk ha h hs _ ih ihf => exact parses_field hk ha ih hs ihf h.not_eof

end Bytewright.Cfgscript
