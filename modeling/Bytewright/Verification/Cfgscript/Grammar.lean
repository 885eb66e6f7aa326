import Bytewright.Model.Cfgscript.Parser

/-! # The expression grammar

The stratified grammar of `parser.hpp`, as derivations that carry the tree they yield. -/

namespace Bytewright.Cfgscript

open Bytewright.Common

/-- The binary levels, loosest first. -/
inductive Level where
  | logicOr
  | logicAnd
  | bitOr
  | bitXor
  | bitAnd
  | equality
  | relational
  | shift
  | additive
  | multiply
  deriving DecidableEq, Repr

namespace Level

def operators : Level → List TokenKind
  | logicOr => [.kOrOr]
  | logicAnd => [.kAndAnd]
  | bitOr => [.kPipe]
  | bitXor => [.kCaret]
  | bitAnd => [.kAmp]
  | equality => [.kEq, .kNe]
  | relational => [.kLt, .kLe, .kGt, .kGe]
  | shift => [.kShl, .kShr]
  | additive => [.kPlus, .kMinus]
  | multiply => [.kStar, .kSlash, .kPercent]

/-- The level of the operands, unless they are unary expressions. -/
def tighter : Level → Option Level
  | logicOr => some logicAnd
  | logicAnd => some bitOr
  | bitOr => some bitXor
  | bitXor => some bitAnd
  | bitAnd => some equality
  | equality => some relational
  | relational => some shift
  | shift => some additive
  | additive => some multiply
  | multiply => none

end Level

/-- What a nonterminal derives: its tree, or the members of an aggregate. -/
inductive Phrase where
  | expr (e : Expr)
  | binary (level : Level) (e : Expr)
  | unary (e : Expr)
  | primary (e : Expr)
  | elements (es : List Expr)
  | fields (fs : List (Bytes × Expr))

/-- An operand of a level. -/
def Level.operand (level : Level) (e : Expr) : Phrase :=
  match level.tighter with
  | some tighter => .binary tighter e
  | none => .unary e

/-- A primary that is a single token. -/
inductive Leaf : Token → Expr → Prop
  | int {t} (h : t.kind = .kInt) : Leaf t (.int t.offset t.intValue)
  | float {t} (h : t.kind = .kFloat) : Leaf t (.float t.offset t.floatValue)
  | str {t} (h : t.kind = .kString) : Leaf t (.str t.offset t.text)
  | true {t} (h : t.kind = .kTrue) : Leaf t (.bool t.offset true)
  | false {t} (h : t.kind = .kFalse) : Leaf t (.bool t.offset false)
  | null {t} (h : t.kind = .kNull) : Leaf t (.null t.offset)
  | ident {t} (h : t.kind = .kIdent) : Leaf t (.ident t.offset t.text)

/-- The token sequences a phrase derives. A binary level repeats its operators to the left, which is
what the starred rules of the grammar mean with left-associative operators. -/
inductive Derives : Phrase → List Token → Prop
  | plain {e ts} (h : Derives (.binary .logicOr e) ts) : Derives (.expr e) ts
  | ternary {cond then_ else_ ts us vs} {question colon : Token}
      (hcond : Derives (.binary .logicOr cond) ts) (hq : question.kind = .kQuestion)
      (hthen : Derives (.expr then_) us) (hc : colon.kind = .kColon)
      (helse : Derives (.expr else_) vs) :
      Derives (.expr (.ternary question.offset cond then_ else_))
        (ts ++ question :: (us ++ colon :: vs))
  | operand {level : Level} {e ts} (h : Derives (level.operand e) ts) : Derives (.binary level e) ts
  | binary {level : Level} {lhs rhs ts us} {op : Token} (hl : Derives (.binary level lhs) ts)
      (hop : op.kind ∈ level.operators) (hr : Derives (level.operand rhs) us) :
      Derives (.binary level (.binary op.offset op.kind lhs rhs)) (ts ++ op :: us)
  | unary {e ts} {op : Token} (hop : op.kind ∈ [TokenKind.kMinus, .kBang, .kTilde])
      (h : Derives (.unary e) ts) : Derives (.unary (.unary op.offset op.kind e)) (op :: ts)
  | primary {e ts} (h : Derives (.primary e) ts) : Derives (.unary e) ts
  | leaf {t e} (h : Leaf t e) : Derives (.primary e) [t]
  | paren {e ts} {l r : Token} (hl : l.kind = .kLParen) (h : Derives (.expr e) ts)
      (hr : r.kind = .kRParen) : Derives (.primary e) (l :: (ts ++ [r]))
  | emptyArray {l r : Token} (hl : l.kind = .kLBracket) (hr : r.kind = .kRBracket) :
      Derives (.primary (.array l.offset [])) [l, r]
  | array {es ts} {l r : Token} (hl : l.kind = .kLBracket) (h : Derives (.elements es) ts)
      (hr : r.kind = .kRBracket) : Derives (.primary (.array l.offset es)) (l :: (ts ++ [r]))
  | object {fs ts} {l r : Token} (hl : l.kind = .kLBrace) (h : Derives (.fields fs) ts)
      (hr : r.kind = .kRBrace) : Derives (.primary (.object l.offset fs)) (l :: (ts ++ [r]))
  | last {e ts} (h : Derives (.expr e) ts) : Derives (.elements [e]) ts
  | lastComma {e ts} {comma : Token} (h : Derives (.expr e) ts) (hc : comma.kind = .kComma) :
      Derives (.elements [e]) (ts ++ [comma])
  | element {e es ts us} {comma : Token} (h : Derives (.expr e) ts) (hc : comma.kind = .kComma)
      (hs : Derives (.elements es) us) : Derives (.elements (e :: es)) (ts ++ comma :: us)
  | noFields : Derives (.fields []) []
  -- a stray semicolon is an empty member
  | stray {fs ts} {semi : Token} (hs : semi.kind = .kSemicolon) (h : Derives (.fields fs) ts) :
      Derives (.fields fs) (semi :: ts)
  | field {e fs ts us} {key assign semi : Token} (hk : key.kind = .kIdent)
      (ha : assign.kind = .kAssign) (h : Derives (.expr e) ts) (hs : semi.kind = .kSemicolon)
      (hf : Derives (.fields fs) us) :
      Derives (.fields ((key.text, e) :: fs)) (key :: assign :: (ts ++ semi :: us))

/-- The tokens that make an expression in front of them longer. -/
def Continues (kind : TokenKind) : Prop :=
  kind = .kQuestion ∨ ∃ level : Level, kind ∈ level.operators

/-! ### Levels and precedences -/

def Level.prec : Level → Int
  | .logicOr => 2
  | .logicAnd => 3
  | .bitOr => 4
  | .bitXor => 5
  | .bitAnd => 6
  | .equality => 7
  | .relational => 8
  | .shift => 9
  | .additive => 10
  | .multiply => 11

theorem Level.prec_bounds (level : Level) : 2 ≤ level.prec ∧ level.prec ≤ 11 := by
  cases level <;> decide

theorem Level.prec_tighter {level tighter : Level} (h : level.tighter = some tighter) :
    tighter.prec = level.prec + 1 := by
  cases level <;> cases h <;> rfl

theorem Level.prec_of_tightest {level : Level} (h : level.tighter = none) : level.prec = 11 := by
  cases level <;> cases h
  rfl

theorem Level.eq_of_prec_eq {level level' : Level} (h : level.prec = level'.prec) : level = level' := by
  revert h
  cases level <;> cases level' <;> decide

/-- The precedence table puts an operator on its level. -/
theorem precedence_of_mem {level : Level} {kind : TokenKind} (h : kind ∈ level.operators) :
    binaryPrecedence kind = level.prec := by
  revert h
  cases level <;> cases kind <;> decide

/-- Every token is an operator of some level or none of the table. -/
theorem precedence_cases (kind : TokenKind) :
    binaryPrecedence kind = -1 ∨ ∃ level : Level, kind ∈ level.operators := by
  cases kind with
  | kOrOr => exact .inr ⟨.logicOr, by decide⟩
  | kAndAnd => exact .inr ⟨.logicAnd, by decide⟩
  | kPipe => exact .inr ⟨.bitOr, by decide⟩
  | kCaret => exact .inr ⟨.bitXor, by decide⟩
  | kAmp => exact .inr ⟨.bitAnd, by decide⟩
  | kEq => exact .inr ⟨.equality, by decide⟩
  | kNe => exact .inr ⟨.equality, by decide⟩
  | kLt => exact .inr ⟨.relational, by decide⟩
  | kLe => exact .inr ⟨.relational, by decide⟩
  | kGt => exact .inr ⟨.relational, by decide⟩
  | kGe => exact .inr ⟨.relational, by decide⟩
  | kShl => exact .inr ⟨.shift, by decide⟩
  | kShr => exact .inr ⟨.shift, by decide⟩
  | kPlus => exact .inr ⟨.additive, by decide⟩
  | kMinus => exact .inr ⟨.additive, by decide⟩
  | kStar => exact .inr ⟨.multiply, by decide⟩
  | kSlash => exact .inr ⟨.multiply, by decide⟩
  | kPercent => exact .inr ⟨.multiply, by decide⟩
  | _ => exact .inl rfl

theorem precedence_le (kind : TokenKind) : binaryPrecedence kind ≤ 11 := by
  rcases precedence_cases kind with h | ⟨level, h⟩
  · rw [h]
    decide
  · rw [precedence_of_mem h]
    exact level.prec_bounds.2

theorem precedence_of_not_continues {kind : TokenKind} (h : ¬ Continues kind) :
    binaryPrecedence kind = -1 := by
  rcases precedence_cases kind with hnone | hmem
  · exact hnone
  · exact absurd (.inr hmem) h

/-! ### Going down to a looser level -/

/-- `e` is an operand for operators weaker than `prec`: it derives `ts` at every level up to
`prec`, and as a unary expression if `prec` is beyond them all. -/
structure Tier (prec : Int) (e : Expr) (ts : List Token) : Prop where
  binary : ∀ level : Level, level.prec ≤ prec → Derives (.binary level e) ts
  unary : 12 ≤ prec → Derives (.unary e) ts

namespace Tier

variable {prec : Int} {e rhs : Expr} {ts us : List Token}

theorem operand {level : Level} (h : Tier (level.prec + 1) e ts) : Derives (level.operand e) ts := by
  rw [Level.operand]
  cases ht : level.tighter with
  | some tighter => exact h.binary tighter (level.prec_tighter ht).le
  | none => exact h.unary (by rw [level.prec_of_tightest ht]; decide)

theorem mono {prec' : Int} (h : Tier prec e ts) (hle : prec' ≤ prec) : Tier prec' e ts where
  binary level hlevel := h.binary level (hlevel.trans hle)
  unary hprec := h.unary (hprec.trans hle)

/-- What a level derives, every looser level derives. -/
theorem loosen (n : Nat) : ∀ {level looser : Level}, level.prec = looser.prec + n →
    Derives (.binary level e) ts → Derives (.binary looser e) ts := by
  induction n with
  | zero =>
      intro level looser hn h
      have heq : level = looser := Level.eq_of_prec_eq (by omega)
      rwa [← heq]
  | succ n ih =>
      intro level looser hn h
      apply Derives.operand
      rw [Level.operand]
      cases ht : looser.tighter with
      | some tighter =>
          have hprec := looser.prec_tighter ht
          exact ih (by omega) h
      | none =>
          have hbounds := level.prec_bounds
          have hlast := looser.prec_of_tightest ht
          omega

theorem of_binary {level : Level} (h : Derives (.binary level e) ts) : Tier level.prec e ts where
  binary looser hle := by
    obtain ⟨n, hn⟩ := Int.le.dest hle
    exact loosen n hn.symm h
  unary hprec := by
    have := level.prec_bounds
    omega

theorem of_unary (h : Derives (.unary e) ts) : Tier 12 e ts where
  binary looser hle := by
    have hmultiply : Derives (.binary .multiply e) ts := .operand h
    exact (of_binary hmultiply).binary looser looser.prec_bounds.2
  unary _ := h

/-- Joining two operands by an operator. -/
theorem join {op : Token} (hop : 2 ≤ binaryPrecedence op.kind)
    (hl : Tier (binaryPrecedence op.kind) e ts) (hr : Tier (binaryPrecedence op.kind + 1) rhs us) :
    Tier (binaryPrecedence op.kind) (.binary op.offset op.kind e rhs) (ts ++ op :: us) := by
  rcases precedence_cases op.kind with hnone | ⟨level, hmem⟩
  · omega
  · rw [precedence_of_mem hmem] at hl hr ⊢
    exact of_binary (.binary (hl.binary level (Int.le_refl _)) hmem hr.operand)

end Tier

/-! ### First tokens -/

/-- What an expression can begin with. -/
def Starts (kind : TokenKind) : Prop :=
  kind ∈ [TokenKind.kInt, .kFloat, .kString, .kTrue, .kFalse, .kNull, .kIdent, .kLParen, .kLBracket,
    .kLBrace, .kMinus, .kBang, .kTilde]

theorem Leaf.starts {t : Token} {e : Expr} (h : Leaf t e) : Starts t.kind := by
  cases h <;> simp [Starts, *]

/-- The phrases that are not empty. -/
def Phrase.IsExpr : Phrase → Prop
  | .fields _ => False
  | _ => True

theorem Level.operand_isExpr (level : Level) (e : Expr) : (level.operand e).IsExpr := by
  rw [Level.operand]
  cases level.tighter <;> trivial

theorem Derives.starts {φ : Phrase} {ts : List Token} (h : Derives φ ts) :
    φ.IsExpr → ∃ t us, ts = t :: us ∧ Starts t.kind := by
  induction h with
  | plain _ ih => exact ih
  | ternary _ _ _ _ _ ih =>
      intro _
      rcases ih trivial with ⟨t, us, rfl, ht⟩
      exact ⟨t, _, rfl, ht⟩
  | @operand level e ts _ ih => exact fun _ => ih (level.operand_isExpr e)
  | binary _ _ _ ih =>
      intro _
      rcases ih trivial with ⟨t, us, rfl, ht⟩
      exact ⟨t, _, rfl, ht⟩
  | unary hop _ _ => exact fun _ => ⟨_, _, rfl, by revert hop; simp [Starts]; tauto⟩
  | primary _ ih => exact ih
  | leaf h => exact fun _ => ⟨_, _, rfl, h.starts⟩
  | paren hl | emptyArray hl | array hl | object hl => exact fun _ => ⟨_, _, rfl, by simp [Starts, hl]⟩
  | last _ ih => exact ih
  | lastComma _ _ ih =>
      intro _
      rcases ih trivial with ⟨t, us, rfl, ht⟩
      exact ⟨t, _, rfl, ht⟩
  | element _ _ _ ih =>
      intro _
      rcases ih trivial with ⟨t, us, rfl, ht⟩
      exact ⟨t, _, rfl, ht⟩
  | noFields | stray | field => exact False.elim

theorem Leaf.not_eof {t : Token} {e : Expr} (h : Leaf t e) : t.kind ≠ .kEof := by
  cases h <;> simp [*]

theorem not_eof_of_mem {level : Level} {kind : TokenKind} (h : kind ∈ level.operators) :
    kind ≠ .kEof := by
  intro heof
  rw [heof] at h
  have hprec : (-1 : Int) = level.prec := precedence_of_mem h
  have hbounds := level.prec_bounds
  omega

/-- A derived token is never the end of the input. -/
theorem Derives.not_eof {φ : Phrase} {ts : List Token} (h : Derives φ ts) :
    ∀ t ∈ ts, t.kind ≠ .kEof := by
  induction h with
  | plain _ ih | operand _ ih | primary _ ih | last _ ih => exact ih
  | binary _ hop _ ihl ihr =>
      have hop := not_eof_of_mem hop
      grind
  | unary hop _ ih =>
      have hop : ∀ kind ∈ [TokenKind.kMinus, .kBang, .kTilde], kind ≠ .kEof := by decide
      grind
  | leaf h =>
      have := h.not_eof
      grind
  | ternary | paren | array | object | lastComma | element | emptyArray | noFields | stray | field =>
      grind

end Bytewright.Cfgscript
