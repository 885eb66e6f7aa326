import Bytewright.Verification.Cfgscript.Evaluation

/-! # Nesting limits

The parser counts the productions it is in, the evaluator the levels of the tree. The operators of a
left-associative chain are one level to the parser and one level each to the evaluator. -/

namespace Bytewright.Cfgscript

open Bytewright.Common

/-! ### Measures -/

mutual

/-- The levels of the tree. -/
def Expr.height : Expr → Nat
  | .array _ elements => elementsHeight elements + 1
  | .object _ fields => fieldsHeight fields + 1
  | .unary _ _ operand => operand.height + 1
  | .binary _ _ lhs rhs => max lhs.height rhs.height + 1
  | .ternary _ cond then_ else_ => max cond.height (max then_.height else_.height) + 1
  | _ => 1

def elementsHeight : List Expr → Nat
  | [] => 0
  | e :: es => max e.height (elementsHeight es)

def fieldsHeight : List (Bytes × Expr) → Nat
  | [] => 0
  | (_, e) :: fields => max e.height (fieldsHeight fields)

end

mutual

/-- The levels of the tree, when a binary operation on the left of an operator or in front of a `?`
is none of its own. `chained` says that the tree stands there. Brackets leave no level in the tree. -/
def Expr.nesting (chained : Bool) : Expr → Nat
  | .array _ elements => elementsNesting elements + 1
  | .object _ fields => fieldsNesting fields + 1
  | .unary _ _ operand => operand.nesting false + 1
  | .binary _ _ lhs rhs =>
    max (lhs.nesting true) (rhs.nesting false) + if chained then 0 else 1
  | .ternary _ cond then_ else_ =>
    max (cond.nesting true) (max (then_.nesting false) (else_.nesting false)) + 1
  | _ => 1

def elementsNesting : List Expr → Nat
  | [] => 0
  | e :: es => max (e.nesting false) (elementsNesting es)

def fieldsNesting : List (Bytes × Expr) → Nat
  | [] => 0
  | (_, e) :: fields => max (e.nesting false) (fieldsNesting fields)

end

mutual

/-- No binary operation stands on the left of an operator or in front of a `?`. -/
def Expr.chainless (chained : Bool) : Expr → Bool
  | .array _ elements => elementsChainless elements
  | .object _ fields => fieldsChainless fields
  | .unary _ _ operand => operand.chainless false
  | .binary _ _ lhs rhs => !chained && lhs.chainless true && rhs.chainless false
  | .ternary _ cond then_ else_ =>
    cond.chainless true && then_.chainless false && else_.chainless false
  | _ => true

def elementsChainless : List Expr → Bool
  | [] => true
  | e :: es => e.chainless false && elementsChainless es

def fieldsChainless : List (Bytes × Expr) → Bool
  | [] => true
  | (_, e) :: fields => e.chainless false && fieldsChainless fields

end

theorem Expr.nesting_le (chained : Bool) (e : Expr) : e.nesting false ≤ e.nesting chained + 1 := by
  cases e with
  | binary _ _ lhs rhs => simp only [Expr.nesting, Bool.false_eq_true, if_false]; split <;> omega
  | _ => simp [Expr.nesting]

mutual

theorem Expr.height_eq_nesting (chained : Bool) :
    ∀ e : Expr, e.chainless chained = true → e.height = e.nesting chained
  | .array _ elements, h => by
      rw [Expr.height, Expr.nesting, elementsHeight_eq elements h]
  | .object _ fields, h => by
      rw [Expr.height, Expr.nesting, fieldsHeight_eq fields h]
  | .unary _ _ operand, h => by
      rw [Expr.height, Expr.nesting, operand.height_eq_nesting false h]
  | .binary _ _ lhs rhs, h => by
      simp only [Expr.chainless, Bool.and_eq_true, Bool.not_eq_true'] at h
      obtain ⟨⟨rfl, hl⟩, hr⟩ := h
      rw [Expr.height, Expr.nesting, lhs.height_eq_nesting true hl, rhs.height_eq_nesting false hr]
      rfl
  | .ternary _ cond then_ else_, h => by
      simp only [Expr.chainless, Bool.and_eq_true] at h
      rw [Expr.height, Expr.nesting, cond.height_eq_nesting true h.1.1,
        then_.height_eq_nesting false h.1.2, else_.height_eq_nesting false h.2]
  | .null _, _ | .bool _ _, _ | .int _ _, _ | .float _ _, _ | .str _ _, _ | .ident _ _, _ => rfl

theorem elementsHeight_eq :
    ∀ es : List Expr, elementsChainless es = true → elementsHeight es = elementsNesting es
  | [], _ => rfl
  | e :: es, h => by
      simp only [elementsChainless, Bool.and_eq_true] at h
      rw [elementsHeight, elementsNesting, e.height_eq_nesting false h.1, elementsHeight_eq es h.2]

theorem fieldsHeight_eq :
    ∀ fs : List (Bytes × Expr), fieldsChainless fs = true → fieldsHeight fs = fieldsNesting fs
  | [], _ => rfl
  | (_, e) :: fs, h => by
      simp only [fieldsChainless, Bool.and_eq_true] at h
      rw [fieldsHeight, fieldsNesting, e.height_eq_nesting false h.1, fieldsHeight_eq fs h.2]

end

/-! ### The parser -/

section Parser

variable {σ : Type} [TokenSource σ] {p q : Parser σ} {below : Deeper σ} {room : Nat} {e : Expr}

/-- What the productions return is nested `room` deep at most, with a level to spare for the operator
that a binary operation is the left operand of. -/
structure Deeper.Within (below : Deeper σ) (room : Nat) : Prop where
  expr : ∀ {p q e}, below.expr p = .ok e q → e.nesting false ≤ room
  unary : ∀ {p q e}, below.unary p = .ok e q → e.nesting false ≤ room
  binary : ∀ {minPrec p q e}, below.binary minPrec p = .ok e q → e.nesting true + 1 ≤ room

theorem parseElements_within (hbelow : below.Within room) (fuel : Nat) :
    ∀ {p q : Parser σ} {es}, parseElements below.expr fuel p = .ok es q →
      elementsNesting es ≤ room := by
  induction fuel with
  | zero =>
      intro p q es h
      cases h
  | succ fuel ih =>
      intro p q es h
      rw [parseElements] at h
      obtain ⟨e, p₁, he, h⟩ := bind_eq_ok.mp h
      have hnesting := hbelow.expr he
      obtain ⟨comma, p₂, -, h⟩ := bind_eq_ok.mp h
      rw [ite_run] at h
      split at h
      · rw [bind_of_ok (check_run _ p₂), ite_run] at h
        split at h
        · cases h
          simpa [elementsNesting] using hnesting
        · obtain ⟨es', p₃, hes, h⟩ := bind_eq_ok.mp h
          cases h
          exact Nat.max_le.mpr ⟨hnesting, ih hes⟩
      · cases h
        simpa [elementsNesting] using hnesting

theorem parseFields_within (hbelow : below.Within room) (offset fuel : Nat) :
    ∀ {p q : Parser σ} {fs}, parseFields below.expr offset fuel p = .ok fs q →
      fieldsNesting fs ≤ room := by
  induction fuel with
  | zero =>
      intro p q fs h
      cases h
  | succ fuel ih =>
      intro p q fs h
      rw [parseFields, bind_of_ok (check_run _ p), ite_run] at h
      split at h
      · cases h
        exact Nat.zero_le _
      · rw [bind_of_ok (check_run _ p), ite_run] at h
        split at h
        · cases h
        · obtain ⟨semi, p₁, -, h⟩ := bind_eq_ok.mp h
          rw [ite_run] at h
          split at h
          · exact ih h
          · obtain ⟨key, p₂, -, h⟩ := bind_eq_ok.mp h
            obtain ⟨_, p₃, -, h⟩ := bind_eq_ok.mp h
            obtain ⟨e, p₄, he, h⟩ := bind_eq_ok.mp h
            obtain ⟨_, p₅, -, h⟩ := bind_eq_ok.mp h
            obtain ⟨fs', p₆, hfs, h⟩ := bind_eq_ok.mp h
            cases h
            exact Nat.max_le.mpr ⟨hbelow.expr he, ih hfs⟩

theorem Leaf.nesting_eq {t : Token} (h : Leaf t e) (chained : Bool) : e.nesting chained = 1 := by
  cases h <;> simp [Expr.nesting]

theorem parsePrimary_within (hbelow : below.Within room) (h : parsePrimary below p = .ok e q) :
    e.nesting false ≤ room + 1 := by
  rw [parsePrimary, bind_of_ok (get_run p)] at h
  cases hleaf : leaf? p.cur with
  | some node =>
      simp only [hleaf] at h
      obtain ⟨_, p₁, -, h⟩ := bind_eq_ok.mp h
      cases h
      rw [(leaf_of_leaf? hleaf).nesting_eq]
      exact Nat.le_add_left 1 room
  | none =>
      simp only [hleaf] at h
      rw [ite_run] at h
      split at h
      · obtain ⟨_, p₁, -, h⟩ := bind_eq_ok.mp h
        obtain ⟨inner, p₂, hinner, h⟩ := bind_eq_ok.mp h
        obtain ⟨_, p₃, -, h⟩ := bind_eq_ok.mp h
        cases h
        exact (hbelow.expr hinner).trans (Nat.le_succ room)
      · rw [ite_run] at h
        split at h
        · rw [parseArray] at h
          obtain ⟨_, p₁, -, h⟩ := bind_eq_ok.mp h
          obtain ⟨es, p₂, hes, h⟩ := bind_eq_ok.mp h
          obtain ⟨_, p₃, -, h⟩ := bind_eq_ok.mp h
          cases h
          rw [parseElementList, bind_of_ok (check_run _ p₁), ite_run] at hes
          split at hes
          · cases hes
            exact Nat.le_add_left 1 room
          · rw [bind_of_ok (get_run p₁)] at hes
            exact Nat.succ_le_succ (parseElements_within hbelow _ hes)
        · rw [ite_run] at h
          split at h
          · rw [parseObject] at h
            obtain ⟨_, p₁, -, h⟩ := bind_eq_ok.mp h
            rw [bind_of_ok (get_run p₁)] at h
            obtain ⟨fs, p₂, hfs, h⟩ := bind_eq_ok.mp h
            obtain ⟨_, p₃, -, h⟩ := bind_eq_ok.mp h
            cases h
            exact Nat.succ_le_succ (parseFields_within hbelow _ _ hfs)
          · cases h

theorem parseUnary_within (hbelow : below.Within room) (h : parseUnary below p = .ok e q) :
    e.nesting false ≤ room + 1 := by
  rw [parseUnary, bind_of_ok (get_run p), ite_run] at h
  split at h
  · obtain ⟨op, p₁, -, h⟩ := bind_eq_ok.mp h
    obtain ⟨operand, p₂, hoperand, h⟩ := bind_eq_ok.mp h
    cases h
    exact Nat.succ_le_succ (hbelow.unary hoperand)
  · exact parsePrimary_within hbelow h

/-- The left operand of the loop grows by a level of the tree in every round, and its nesting stays
within that of the operands. -/
theorem binaryLoop_within (hbelow : below.Within room) (minPrec : Int) (fuel : Nat) :
    ∀ {p q : Parser σ} {lhs e : Expr}, lhs.nesting true ≤ room →
      binaryLoop below minPrec fuel lhs p = .ok e q → e.nesting true ≤ room := by
  induction fuel with
  | zero =>
      intro p q lhs e _ h
      cases h
  | succ fuel ih =>
      intro p q lhs e hlhs h
      rw [binaryLoop, bind_of_ok (get_run p), ite_run] at h
      split at h
      · cases h
        exact hlhs
      · obtain ⟨op, p₁, -, h⟩ := bind_eq_ok.mp h
        obtain ⟨rhs, p₂, hrhs, h⟩ := bind_eq_ok.mp h
        refine ih ?_ h
        have hnesting : rhs.nesting false ≤ room :=
          (rhs.nesting_le true).trans (hbelow.binary hrhs)
        simpa [Expr.nesting] using ⟨hlhs, hnesting⟩

theorem Expr.nesting_true_le (e : Expr) : e.nesting true ≤ e.nesting false := by
  cases e <;> simp [Expr.nesting]

theorem parseBinary_within (hbelow : below.Within room) {minPrec : Int}
    (h : parseBinary below minPrec p = .ok e q) : e.nesting true ≤ room := by
  rw [parseBinary] at h
  obtain ⟨lhs, p₁, hlhs, h⟩ := bind_eq_ok.mp h
  rw [bind_of_ok (get_run p₁)] at h
  exact binaryLoop_within hbelow minPrec _ (lhs.nesting_true_le.trans (hbelow.unary hlhs)) h

theorem parseTernary_within (hbelow : below.Within room) (h : parseTernary below p = .ok e q) :
    e.nesting false ≤ room + 1 := by
  rw [parseTernary] at h
  obtain ⟨cond, p₁, hcond, h⟩ := bind_eq_ok.mp h
  have hnesting := parseBinary_within hbelow hcond
  rw [bind_of_ok (check_run _ p₁), ite_run] at h
  split at h
  · obtain ⟨question, p₂, -, h⟩ := bind_eq_ok.mp h
    obtain ⟨then_, p₃, hthen, h⟩ := bind_eq_ok.mp h
    obtain ⟨_, p₄, -, h⟩ := bind_eq_ok.mp h
    obtain ⟨else_, p₅, helse, h⟩ := bind_eq_ok.mp h
    cases h
    have hthen := hbelow.expr hthen
    have helse := hbelow.expr helse
    rw [Expr.nesting]
    omega
  · cases h
    exact (e.nesting_le true).trans (Nat.succ_le_succ hnesting)

theorem productions_within (room : Nat) : (productions room : Deeper σ).Within room := by
  induction room with
  | zero =>
      exact {
        expr := fun h => absurd h tooDeep_ne_ok
        unary := fun h => absurd h tooDeep_ne_ok
        binary := fun h => absurd h tooDeep_ne_ok }
  | succ room ih =>
      exact {
        expr := parseTernary_within ih
        unary := parseUnary_within ih
        binary := fun h => Nat.succ_le_succ (parseBinary_within ih h) }

end Parser

/-! ### The evaluator -/

/-- The call does not fail with `kDepthExceeded`. -/
def InDepth {α : Type} (m : Outcome α) : Prop :=
  ∀ e, m = .error (.thrown e) → e.code ≠ .kDepthExceeded

section InDepth

variable {α β : Type} {m : Outcome α} {f : α → Outcome β}

theorem InDepth.pure (a : α) : InDepth (pure a) := nofun

theorem InDepth.evalError {code : ErrorCode} {at_ : Nat} {msg : String}
    (h : code ≠ .kDepthExceeded) : InDepth (evalError code at_ msg : Outcome α) := by
  intro e he
  cases he
  exact h

theorem Ends.inDepth {post : α → Prop} (h : Ends m post) : InDepth m := by
  intro e he
  subst he
  obtain ⟨e', he', hcode⟩ := h
  cases he'
  exact hcode

theorem InDepth.bind (h : InDepth m) (h' : ∀ a, m = .ok a → InDepth (f a)) : InDepth (m >>= f) := by
  cases hm : m with
  | ok a => exact h' a hm
  | error e =>
      intro e' he'
      cases he'
      exact h e' hm

end InDepth

theorem requireDepth_inDepth {depth at_ : Nat} (h : depth ≤ kMaxDepth) :
    InDepth (requireDepth depth at_) := by
  rw [requireDepth, if_neg (Nat.not_lt.mpr h)]
  exact .pure ()

mutual

/-- A tree is evaluated within the limit if its levels, from its depth on, are. -/
theorem evaluate_inDepth (env : Environment) :
    ∀ (depth : Nat) (e : Expr), depth + e.height ≤ kMaxDepth + 1 → InDepth (evaluate env depth e)
  | depth, .null _, h | depth, .bool _ _, h | depth, .int _ _, h | depth, .float _ _, h
  | depth, .str _ _, h => (requireDepth_inDepth (Nat.le_of_succ_le_succ h)).bind fun _ _ => .pure _
  | depth, .ident _ name, h => by
      refine (requireDepth_inDepth (Nat.le_of_succ_le_succ h)).bind fun _ _ => ?_
      split
      · exact .pure _
      · exact .evalError (by decide)
  | depth, .array _ elements, h => by
      rw [Expr.height] at h
      exact (requireDepth_inDepth (by omega)).bind fun _ _ =>
        (evaluateElements_inDepth env (depth + 1) elements (by omega)).bind fun _ _ => .pure _
  | depth, .object _ fields, h => by
      rw [Expr.height] at h
      exact (requireDepth_inDepth (by omega)).bind fun _ _ =>
        (evaluateFields_inDepth env (depth + 1) fields (by omega)).bind fun _ _ => .pure _
  | depth, .unary _ op operand, h => by
      rw [Expr.height] at h
      exact (requireDepth_inDepth (by omega)).bind fun _ _ =>
        (evaluate_inDepth env (depth + 1) operand (by omega)).bind fun v _ =>
          (evalUnary_ends op v _).inDepth
  | depth, .ternary _ cond then_ else_, h => by
      rw [Expr.height] at h
      refine (requireDepth_inDepth (by omega)).bind fun _ _ =>
        (evaluate_inDepth env (depth + 1) cond (by omega)).bind fun v _ => ?_
      split
      · exact evaluate_inDepth env (depth + 1) then_ (by omega)
      · exact evaluate_inDepth env (depth + 1) else_ (by omega)
  | depth, .binary _ op lhs rhs, h => by
      rw [Expr.height] at h
      refine (requireDepth_inDepth (by omega)).bind fun _ _ =>
        (evaluate_inDepth env (depth + 1) lhs (by omega)).bind fun l _ => ?_
      split
      · exact .pure _
      · split
        · exact .pure _
        · refine (evaluate_inDepth env (depth + 1) rhs (by omega)).bind fun r _ => ?_
          split
          · exact .pure _
          · exact (evalBinary_ends op l r _).inDepth

theorem evaluateElements_inDepth (env : Environment) :
    ∀ (depth : Nat) (es : List Expr), depth + elementsHeight es ≤ kMaxDepth + 1 →
      InDepth (evaluateElements env depth es)
  | _, [], _ => .pure _
  | depth, e :: es, h => by
      rw [elementsHeight] at h
      exact (evaluate_inDepth env depth e (by omega)).bind fun _ _ =>
        (evaluateElements_inDepth env depth es (by omega)).bind fun _ _ => .pure _

theorem evaluateFields_inDepth (env : Environment) :
    ∀ (depth : Nat) (fs : List (Bytes × Expr)), depth + fieldsHeight fs ≤ kMaxDepth + 1 →
      InDepth (evaluateFields env depth fs)
  | _, [], _ => .pure _
  | depth, (_, e) :: fs, h => by
      rw [fieldsHeight] at h
      exact (evaluate_inDepth env depth e (by omega)).bind fun _ _ =>
        (evaluateFields_inDepth env depth fs (by omega)).bind fun _ _ => .pure _

end

/-! ### Sources -/

mutual

/-- The expressions of a statement, those of nested statements included. -/
def ParsedStatement.exprs : ParsedStatement → List Expr
  | .assignment _ _ e => [e]
  | .block _ _ _ children => statementsExprs children
  | .include _ _ => []

def statementsExprs : List ParsedStatement → List Expr
  | [] => []
  | st :: stmts => st.exprs ++ statementsExprs stmts

end

mutual

theorem ParsedStatement.Accepted.exprs :
    ∀ {room : Nat} (st : ParsedStatement), st.Accepted room → ∀ e ∈ st.exprs, e.Accepted
  | _, .assignment _ _ _, h, _, he => by
      cases List.mem_singleton.mp he
      exact h.2.2.2
  | _, .block _ _ _ children, h, e, he => StatementsAccepted.exprs children h.2.2 e he

theorem StatementsAccepted.exprs :
    ∀ {room : Nat} (stmts : List ParsedStatement), StatementsAccepted room stmts →
      ∀ e ∈ statementsExprs stmts, e.Accepted
  | _, st :: stmts, h, e, he => by
      obtain hst | hstmts := List.mem_append.mp he
      · exact ParsedStatement.Accepted.exprs st h.1 e hst
      · exact StatementsAccepted.exprs stmts h.2 e hstmts

end

/-- An accepted expression is nested within the limit. It is evaluated without being rejected for its
depth if the levels of its tree are within it too, which they are unless operators are chained. -/
theorem parseSource_depth {data : Bytes} {stmts : List ParsedStatement}
    (h : parseSource data = .ok stmts) : ∀ e ∈ statementsExprs stmts,
      e.nesting false ≤ kMaxDepth ∧
      (e.height ≤ kMaxDepth → ∀ env, InDepth (evaluate env 1 e)) ∧
      (e.chainless false = true → e.height ≤ kMaxDepth) := by
  intro e he
  obtain ⟨p, q, -, hrun⟩ := StatementsAccepted.exprs stmts (parseSource_accepted h) e he
  have hnesting : e.nesting false ≤ kMaxDepth := (productions_within kMaxDepth).expr hrun
  refine ⟨hnesting, fun hheight env => evaluate_inDepth env 1 e (by omega), fun hchainless => ?_⟩
  rw [e.height_eq_nesting false hchainless]
  exact hnesting

/-- An assignment of a sum with 62 minus signs in front of its first term. -/
def signedSum : Bytes := ascii "x=" ++ List.replicate 62 (ch '-') ++ ascii "1+1;"

/-- One assignment of an expression that is nested as deep as the parser allows. -/
def assignsDeepest : Outcome (List ParsedStatement) → Bool
  | .ok [.assignment _ _ e] => e.nesting false = kMaxDepth && e.chainless false
  | _ => false

/-- Its tree has no level more than the parser counts, and is evaluated. -/
theorem parseSource_depth_signedSum : ∃ stmts, parseSource signedSum = .ok stmts ∧
    ∃ e ∈ statementsExprs stmts, e.nesting false = kMaxDepth ∧ e.height ≤ kMaxDepth ∧
      ∀ env, InDepth (evaluate env 1 e) := by
  have hrun : assignsDeepest (parseSource signedSum) = true := by decide +kernel
  unfold assignsDeepest at hrun
  split at hrun
  · next offset path e hparse =>
    obtain ⟨hnesting, hchainless⟩ := Bool.and_eq_true_iff.mp hrun
    have he : e ∈ statementsExprs [.assignment offset path e] := List.mem_singleton_self e
    obtain ⟨-, hevaluates, hlevels⟩ := parseSource_depth hparse e he
    have hheight := hlevels hchainless
    exact ⟨_, hparse, e, he, of_decide_eq_true hnesting, hheight, hevaluates hheight⟩
  · cases hrun

/-- An assignment of a sum of 65 terms. -/
def longSum : Bytes := ascii "x=1" ++ (List.replicate 64 (ascii "+1")).flatten ++ ascii ";"

def exceeds : Outcome Value → Bool
  | .error (.thrown error) => error.code = .kDepthExceeded
  | _ => false

/-- One assignment of an expression that is nested too deep to be evaluated. -/
def assignsDeep : Outcome (List ParsedStatement) → Bool
  | .ok [.assignment _ _ e] => exceeds (evaluate [[]] 1 e)
  | _ => false

/-- The parser accepts it, and the evaluator rejects it. -/
theorem longSum_exceeds_depth : ∃ stmts, parseSource longSum = .ok stmts ∧
    ∃ e ∈ statementsExprs stmts, ¬ InDepth (evaluate [[]] 1 e) := by
  have hrun : assignsDeep (parseSource longSum) = true := by decide +kernel
  unfold assignsDeep at hrun
  split at hrun
  · next offset path e hparse =>
    refine ⟨_, hparse, e, List.mem_singleton_self e, fun hdepth => ?_⟩
    unfold exceeds at hrun
    split at hrun
    · next error heval => exact hdepth error heval (of_decide_eq_true hrun)
    · cases hrun
  · cases hrun

end Bytewright.Cfgscript
