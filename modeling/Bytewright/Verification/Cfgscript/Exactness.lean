import Bytewright.Library.Wraparound
import Bytewright.Verification.Cfgscript.Scoping

/-! # Integer expressions in exact arithmetic

The evaluator keeps 64 bits of every intermediate result. Where only these are asked for, it might as
well have computed with integers and cut them off once. -/

namespace Bytewright.Cfgscript

open Bytewright.Common Bytewright.Library.Wraparound

/-! ### Exact values -/

/-- The scopes of an exact evaluation, the innermost first. -/
abbrev Scopes := List (List (Bytes × Int))

namespace Scopes

def define (scopes : Scopes) (name : Bytes) (n : Int) : Scopes :=
  match scopes with
  | [] => [[(name, n)]]
  | scope :: outer => ((name, n) :: scope) :: outer

def lookup (scopes : Scopes) (name : Bytes) : Option Int := scopes.findSome? (List.lookup name)

end Scopes

/-- The unary operators whose low bits depend on the low bits of the operand. -/
def exactUnary (op : TokenKind) (x : Int) : Option Int :=
  match op with
  | .kMinus => some (-x)
  | .kTilde => some (Int.lnot x)
  | _ => none

/-- The binary ones. A shift is by an amount that is exact itself. -/
def exactBinary (op : TokenKind) (x y : Int) : Option Int :=
  match op with
  | .kPlus => some (x + y)
  | .kMinus => some (x - y)
  | .kStar => some (x * y)
  | .kAmp => some (Int.land x y)
  | .kPipe => some (Int.lor x y)
  | .kCaret => some (Int.xor x y)
  | .kShl => if 0 ≤ y ∧ y < 64 then some (x * 2 ^ y.toNat) else none
  | _ => none

/-- The value of an expression of these operators, without a bound on its size. -/
def Expr.exact (scopes : Scopes) : Expr → Option Int
  | .int _ i => some i.toInt
  | .ident _ name => scopes.lookup name
  | .unary _ op operand => do exactUnary op (← operand.exact scopes)
  | .binary _ op lhs rhs => do
    let x ← lhs.exact scopes
    let y ← rhs.exact scopes
    exactBinary op x y
  | _ => none

mutual

/-- The node of a statement with exact values behind its names. What it assigns is cut off once. -/
def exactNode (scopes : Scopes) : ParsedStatement → Option (Node × Scopes)
  | .assignment _ path expr => do
    let n ← expr.exact scopes
    let scopes := match path.getLast? with
      | some name => scopes.define name n
      | none => scopes
    return (.assignment path (.int (Int64.ofInt n)), scopes)
  | .block _ name label children => do
    let (nodes, _) ← exactNodes ([] :: scopes) children
    return (.block name label nodes, scopes)
  | .include _ path => return (.include path, scopes)

def exactNodes (scopes : Scopes) : List ParsedStatement → Option (List Node × Scopes)
  | [] => return ([], scopes)
  | st :: stmts => do
    let (node, scopes) ← exactNode scopes st
    let (nodes, scopes) ← exactNodes scopes stmts
    return (node :: nodes, scopes)

end

/-! ### One operator -/

theorem evalUnary_exact {op : TokenKind} {x n : Int} (h : exactUnary op x = some n) (at_ : Nat) :
    evalUnary op (.int (Int64.ofInt x)) at_ = .ok (.int (Int64.ofInt n)) := by
  unfold exactUnary at h
  split at h <;> cases h
  · rw [Int64.ofInt_neg]
    rfl
  · rw [ofInt_lnot]
    rfl

theorem shiftAmount_inRange {k : Nat} (hk : k < 64) :
    ¬ (Int64.ofInt (k : Int) < 0 ∨ Int64.ofInt (k : Int) > 63) := by
  have hvalue := toInt_ofInt_small hk
  rintro (hlt | hgt)
  · have hlt := Int64.lt_iff_toInt_lt.mp hlt
    rw [hvalue, Int64.toInt_zero] at hlt
    omega
  · have hgt := Int64.lt_iff_toInt_lt.mp hgt
    have h63 : (63 : Int64).toInt = 63 := by decide
    rw [hvalue, h63] at hgt
    omega

theorem evalBinary_exact {op : TokenKind} {x y n : Int} (h : exactBinary op x y = some n) (at_ : Nat) :
    evalBinary op (.int (Int64.ofInt x)) (.int (Int64.ofInt y)) at_ = .ok (.int (Int64.ofInt n)) := by
  unfold exactBinary at h
  split at h
  case h_7 =>
    split at h
    · next hy =>
      cases h
      obtain ⟨k, rfl⟩ := Int.eq_ofNat_of_zero_le hy.1
      have hk : k < 64 := by omega
      rw [Int.toNat_natCast, ← shiftLeft_ofInt x hk, evalBinary, evalShift]
      change (if Int64.ofInt (k : Int) < 0 ∨ Int64.ofInt (k : Int) > 63 then _ else _) = _
      rw [if_neg (shiftAmount_inRange hk)]
      rfl
    · cases h
  all_goals cases h
  · rw [Int64.ofInt_add]
    rfl
  · rw [Int64.ofInt_sub]
    rfl
  · rw [Int64.ofInt_mul]
    rfl
  · rw [ofInt_land]
    rfl
  · rw [ofInt_lor]
    rfl
  · rw [ofInt_xor]
    rfl

/-- An operator with exact results is no logical one. -/
theorem not_logical_of_exact {op : TokenKind} {x y n : Int} (h : exactBinary op x y = some n) :
    op ≠ .kAndAnd ∧ op ≠ .kOrOr := by
  constructor <;> (rintro rfl; cases h)

/-! ### Scopes with the words in place of the integers -/

namespace Scopes

/-- What the evaluator has in its scopes. -/
def words (scopes : Scopes) : Environment :=
  scopes.map (List.map fun binding => (binding.1, .int (Int64.ofInt binding.2)))

theorem lookup_scope (scope : List (Bytes × Int)) (name : Bytes) :
    List.lookup name (scope.map fun binding => (binding.1, Value.int (Int64.ofInt binding.2))) =
      (scope.lookup name).map fun n => .int (Int64.ofInt n) := by
  induction scope with
  | nil => rfl
  | cons binding scope ih =>
      rw [List.map_cons, List.lookup_cons, List.lookup_cons]
      cases name == binding.1 with
      | true => rfl
      | false => exact ih

theorem lookup_words (scopes : Scopes) (name : Bytes) :
    scopes.words.lookup name = (scopes.lookup name).map fun n => .int (Int64.ofInt n) := by
  induction scopes with
  | nil => rfl
  | cons scope scopes ih =>
      rw [words, List.map_cons, Environment.lookup, lookup, List.findSome?_cons, List.findSome?_cons,
        lookup_scope]
      cases List.lookup name scope with
      | none => exact ih
      | some n => rfl

theorem words_define (scopes : Scopes) (name : Bytes) (n : Int) :
    (scopes.define name n).words = scopes.words.define name (.int (Int64.ofInt n)) := by
  cases scopes <;> rfl

end Scopes

/-! ### Outcomes -/

/-- `m` is `a`, if the depth of the expressions allows it. -/
def Computes {α : Type} (m : Outcome α) (a : α) : Prop :=
  m = .ok a ∨ ∃ offset, m = .error (.thrown ⟨.kDepthExceeded, offset, "expression nested too deep"⟩)

section Computes

variable {α β : Type} {m : Outcome α} {a : α} {b : β}

theorem Computes.pure (a : α) : Computes (pure a) a := .inl rfl

theorem Computes.bind {f : α → Outcome β} (h : Computes m a) (h' : Computes (f a) b) :
    Computes (m >>= f) b := by
  rcases h with rfl | ⟨offset, rfl⟩
  · exact h'
  · exact .inr ⟨offset, rfl⟩

theorem computes_requireDepth (depth at_ : Nat) : Computes (requireDepth depth at_) () := by
  rw [requireDepth]
  split
  · exact .inr ⟨at_, rfl⟩
  · exact .pure ()

end Computes

/-! ### Expressions and statements -/

/-- An expression with an exact value evaluates to the word of that. -/
theorem evaluate_exact {scopes : Scopes} : ∀ {depth : Nat} {e : Expr} {n : Int},
    e.exact scopes = some n → Computes (evaluate scopes.words depth e) (.int (Int64.ofInt n))
  | depth, .int offset i, n, h => by
      cases h
      refine (computes_requireDepth depth offset).bind ?_
      rw [Int64.ofInt_toInt]
      exact .pure _
  | depth, .ident offset name, n, h => by
      have hlookup : scopes.lookup name = some n := h
      refine (computes_requireDepth depth offset).bind ?_
      rw [Scopes.lookup_words, hlookup]
      exact .pure _
  | depth, .unary offset op operand, n, h => by
      rcases Option.bind_eq_some_iff.mp h with ⟨x, hx, hop⟩
      refine (computes_requireDepth depth offset).bind ((evaluate_exact hx).bind ?_)
      exact .inl (evalUnary_exact hop offset)
  | depth, .binary offset op lhs rhs, n, h => by
      rcases Option.bind_eq_some_iff.mp h with ⟨x, hx, h⟩
      rcases Option.bind_eq_some_iff.mp h with ⟨y, hy, hop⟩
      rcases not_logical_of_exact hop with ⟨hand, hor⟩
      refine (computes_requireDepth depth offset).bind ((evaluate_exact hx).bind ?_)
      rw [if_neg fun h => hand h.1, if_neg fun h => hor h.1]
      refine (evaluate_exact hy).bind ?_
      rw [if_neg fun h => h.elim hand hor]
      exact .inl (evalBinary_exact hop offset)
  | _, .null _, _, h | _, .bool _ _, _, h | _, .float _ _, _, h | _, .str _ _, _, h
  | _, .array _ _, _, h | _, .object _ _, _, h | _, .ternary _ _ _ _, _, h => by cases h

mutual

theorem buildNode_exact : ∀ {st : ParsedStatement} {scopes out : Scopes} {node : Node},
    exactNode scopes st = some (node, out) → Computes (buildNode scopes.words st) (node, out.words)
  | .assignment offset path expr, scopes, out, node, h => by
      rcases Option.bind_eq_some_iff.mp h with ⟨n, hn, h⟩
      cases h
      refine (evaluate_exact hn).bind ?_
      cases path.getLast? with
      | none => exact .pure _
      | some name =>
          rw [Scopes.words_define]
          exact .pure _
  | .block offset name label children, scopes, out, node, h => by
      rcases Option.bind_eq_some_iff.mp h with ⟨⟨nodes, inner⟩, hnodes, h⟩
      cases h
      exact (@buildNodes_exact children ([] :: scopes) inner nodes hnodes).bind (.pure _)
  | .include offset path, scopes, out, node, h => by
      cases h
      exact .pure _

/-- Statements with exact values build the nodes of these, and the scopes keep the words. -/
theorem buildNodes_exact : ∀ {stmts : List ParsedStatement} {scopes out : Scopes} {nodes : List Node},
    exactNodes scopes stmts = some (nodes, out) →
      Computes (buildNodes scopes.words stmts) (nodes, out.words)
  | [], scopes, out, nodes, h => by
      cases h
      exact .pure _
  | st :: stmts, scopes, out, nodes, h => by
      rcases Option.bind_eq_some_iff.mp h with ⟨⟨node, between⟩, hnode, h⟩
      rcases Option.bind_eq_some_iff.mp h with ⟨⟨rest, behind⟩, hrest, h⟩
      cases h
      exact (buildNode_exact hnode).bind ((buildNodes_exact hrest).bind (.pure _))

end

/-- If the statements of a source assign integer expressions of `+`, `-`, `*`, `&`, `|`, `^`, `~` and
`<<` over literals and names, the document has their values in exact arithmetic, cut off to 64 bits
once and where they are assigned. The evaluator refuses it for the depth of an expression at most. -/
theorem parse_exact {data : Bytes} {stmts : List ParsedStatement} {nodes : List Node} {out : Scopes}
    (hsource : parseSource data = .ok stmts) (hexact : exactNodes [[]] stmts = some (nodes, out)) :
    Computes (parse data) { nodes } := by
  rw [parse, hsource]
  exact (buildNodes_exact hexact).bind (.pure _)

/-- A sum that is too large on the way. -/
def overflowing : Bytes := ascii "a=9223372036854775807;b=a+a-a;"

def isOverflowing : Outcome (List ParsedStatement) → Bool
  | .ok [.assignment _ [x] (.int _ i), .assignment _ [y]
      (.binary _ .kMinus (.binary _ .kPlus (.ident _ a) (.ident _ b)) (.ident _ c))] =>
    x == ascii "a" && y == ascii "b" && a == ascii "a" && b == ascii "a" && c == ascii "a" &&
      i == Int64.maxValue
  | _ => false

theorem exactNodes_overflowing {stmts : List ParsedStatement} (h : isOverflowing (.ok stmts) = true) :
    ∃ out, exactNodes [[]] stmts = some ([.assignment [ascii "a"] (.int Int64.maxValue),
      .assignment [ascii "b"] (.int Int64.maxValue)], out) := by
  unfold isOverflowing at h
  split at h
  · next heq =>
    cases heq
    simp only [Bool.and_eq_true, beq_iff_eq] at h
    obtain ⟨⟨⟨⟨⟨rfl, rfl⟩, rfl⟩, rfl⟩, rfl⟩, rfl⟩ := h
    exact ⟨_, rfl⟩
  · cases h

theorem parse_exact_overflowing : Computes (parse overflowing)
    { nodes := [.assignment [ascii "a"] (.int Int64.maxValue),
      .assignment [ascii "b"] (.int Int64.maxValue)] } := by
  have htest : isOverflowing (parseSource overflowing) = true := by decide +kernel
  cases hsource : parseSource overflowing with
  | error e =>
      rw [hsource] at htest
      cases htest
  | ok stmts =>
      rw [hsource] at htest
      rcases exactNodes_overflowing htest with ⟨out, hexact⟩
      exact parse_exact hsource hexact

end Bytewright.Cfgscript
