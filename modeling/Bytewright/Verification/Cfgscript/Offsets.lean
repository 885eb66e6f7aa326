import Bytewright.Model.Cfgscript.Document
import Bytewright.Verification.Common.ByteReader

/-! # Source offsets are for errors only -/

namespace Bytewright.Cfgscript

open Bytewright.Common

/-! ### Trees without offsets -/

mutual

/-- The expression without its offsets. -/
def Expr.erase : Expr → Expr
  | .null _ => .null 0
  | .bool _ value => .bool 0 value
  | .int _ value => .int 0 value
  | .float _ value => .float 0 value
  | .str _ value => .str 0 value
  | .ident _ name => .ident 0 name
  | .array _ elements => .array 0 (eraseElements elements)
  | .object _ fields => .object 0 (eraseFields fields)
  | .unary _ op operand => .unary 0 op operand.erase
  | .binary _ op lhs rhs => .binary 0 op lhs.erase rhs.erase
  | .ternary _ cond then_ else_ => .ternary 0 cond.erase then_.erase else_.erase

def eraseElements : List Expr → List Expr
  | [] => []
  | e :: es => e.erase :: eraseElements es

def eraseFields : List (Bytes × Expr) → List (Bytes × Expr)
  | [] => []
  | (key, e) :: fields => (key, e.erase) :: eraseFields fields

end

mutual

/-- The statement without its offsets. -/
def ParsedStatement.erase : ParsedStatement → ParsedStatement
  | .assignment _ path expr => .assignment 0 path expr.erase
  | .block _ name label children => .block 0 name label (eraseStatements children)
  | .include _ path => .include 0 path

def eraseStatements : List ParsedStatement → List ParsedStatement
  | [] => []
  | st :: stmts => st.erase :: eraseStatements stmts

end

/-! ### Calls that return the same -/

/-- Both calls return the same, or neither returns. What they throw may differ. -/
def Agree {α : Type} (m n : Outcome α) : Prop := ∀ a, m = .ok a ↔ n = .ok a

namespace Agree

variable {α β : Type}

theorem refl (m : Outcome α) : Agree m m := fun _ => Iff.rfl

theorem bind {m n : Outcome α} {f g : α → Outcome β} (hm : Agree m n) (hf : ∀ a, Agree (f a) (g a)) :
    Agree (m >>= f) (n >>= g) := by
  intro b
  rw [outcome_bind_eq_ok, outcome_bind_eq_ok]
  exact exists_congr fun a => and_congr (hm a) (hf a b)

theorem ite {c : Prop} [Decidable c] {m n m' n' : Outcome α} (hm : Agree m n) (hm' : Agree m' n') :
    Agree (if c then m else m') (if c then n else n') := by
  split
  · exact hm
  · exact hm'

theorem evalError (code : ErrorCode) (at_ at' : Nat) (msg : String) :
    Agree (evalError code at_ msg : Outcome α) (evalError code at' msg) := by
  intro a
  constructor <;> (intro h; cases h)

end Agree

/-! ### Operators -/

section Operators

variable (op : TokenKind) (l r : Value) (at_ at' : Nat)

theorem requireDepth_agree (depth : Nat) : Agree (requireDepth depth at_) (requireDepth depth at') :=
  .ite (.evalError _ _ _ _) (.refl _)

theorem requireInt_agree (what : String) : Agree (requireInt l at_ what) (requireInt l at' what) := by
  unfold requireInt
  cases l with
  | int i => exact .refl _
  | _ => exact .evalError _ _ _ _

theorem evalArith_agree : Agree (evalArith op l r at_) (evalArith op l r at') := by
  unfold evalArith
  refine .ite (.refl _) (.ite (.evalError _ _ _ _) (.ite ?_ ?_))
  · split
    · exact .refl _
    · exact .refl _
    · exact .refl _
    · exact .evalError _ _ _ _
  · split
    · exact .refl _
    · exact .refl _
    · exact .refl _
    · exact .evalError _ _ _ _

theorem evalDivMod_agree : Agree (evalDivMod op l r at_) (evalDivMod op l r at') := by
  unfold evalDivMod
  refine .ite (.evalError _ _ _ _) (.ite ?_ ?_)
  · exact .ite (.evalError _ _ _ _) (.ite (.refl _) (.evalError _ _ _ _))
  · exact .ite (.evalError _ _ _ _) (.refl _)

theorem evalShift_agree : Agree (evalShift op l r at_) (evalShift op l r at') := by
  unfold evalShift
  refine (requireInt_agree _ _ _ _).bind fun a => (requireInt_agree _ _ _ _).bind fun b => ?_
  exact .ite (.evalError _ _ _ _) (.refl _)

theorem evalCompare_agree : Agree (evalCompare op l r at_) (evalCompare op l r at') := by
  unfold evalCompare
  dsimp only
  split
  · refine .bind (.refl _) fun cmp => ?_
    cases op <;> first | exact .refl _ | exact .evalError _ _ _ _
  · refine .ite (.bind (.refl _) fun cmp => ?_) (.bind (.evalError _ _ _ _) fun cmp => ?_)
    · cases op <;> first | exact .refl _ | exact .evalError _ _ _ _
    · cases op <;> first | exact .refl _ | exact .evalError _ _ _ _

theorem evalBinary_agree : Agree (evalBinary op l r at_) (evalBinary op l r at') := by
  have hints : ∀ (what : String) (f : Int64 → Int64 → Value), Agree
      (do return f (← requireInt l at_ what) (← requireInt r at_ what))
      (do return f (← requireInt l at' what) (← requireInt r at' what)) := fun what f =>
    (requireInt_agree _ _ _ _).bind fun a => (requireInt_agree _ _ _ _).bind fun b => .refl _
  unfold evalBinary
  split
  · exact evalArith_agree _ _ _ _ _
  · exact evalArith_agree _ _ _ _ _
  · exact evalArith_agree _ _ _ _ _
  · exact evalDivMod_agree _ _ _ _ _
  · exact evalDivMod_agree _ _ _ _ _
  · exact evalShift_agree _ _ _ _ _
  · exact evalShift_agree _ _ _ _ _
  · exact hints _ _
  · exact hints _ _
  · exact hints _ _
  · exact .refl _
  · exact .refl _
  · exact evalCompare_agree _ _ _ _ _
  · exact evalCompare_agree _ _ _ _ _
  · exact evalCompare_agree _ _ _ _ _
  · exact evalCompare_agree _ _ _ _ _
  · exact .evalError _ _ _ _

theorem evalUnary_agree : Agree (evalUnary op l at_) (evalUnary op l at') := by
  unfold evalUnary
  split
  · cases l with
    | int i => exact .refl _
    | float f => exact .refl _
    | _ => exact .evalError _ _ _ _
  · exact .refl _
  · exact (requireInt_agree _ _ _ _).bind fun i => .refl _
  · exact .evalError _ _ _ _

end Operators

/-! ### Expressions and statements -/

mutual

theorem evaluate_erase (env : Environment) :
    ∀ (depth : Nat) (e : Expr), Agree (evaluate env depth e.erase) (evaluate env depth e)
  | depth, .null offset | depth, .bool offset _ | depth, .int offset _ | depth, .float offset _
  | depth, .str offset _ =>
      (requireDepth_agree 0 offset depth).bind fun _ => .refl _
  | depth, .ident offset name => by
      refine (requireDepth_agree 0 offset depth).bind fun _ => ?_
      cases env.lookup name with
      | some value => exact .refl _
      | none => exact .evalError _ _ _ _
  | depth, .array offset elements => by
      refine (requireDepth_agree 0 offset depth).bind fun _ => ?_
      exact (evaluateElements_erase env (depth + 1) elements).bind fun _ => .refl _
  | depth, .object offset fields => by
      refine (requireDepth_agree 0 offset depth).bind fun _ => ?_
      exact (evaluateFields_erase env (depth + 1) fields).bind fun _ => .refl _
  | depth, .unary offset op operand => by
      refine (requireDepth_agree 0 offset depth).bind fun _ => ?_
      exact (evaluate_erase env (depth + 1) operand).bind fun v => evalUnary_agree op v 0 offset
  | depth, .ternary offset cond then_ else_ => by
      refine (requireDepth_agree 0 offset depth).bind fun _ => ?_
      refine (evaluate_erase env (depth + 1) cond).bind fun v => ?_
      exact .ite (evaluate_erase env (depth + 1) then_) (evaluate_erase env (depth + 1) else_)
  | depth, .binary offset op lhs rhs => by
      refine (requireDepth_agree 0 offset depth).bind fun _ => ?_
      refine (evaluate_erase env (depth + 1) lhs).bind fun l => ?_
      refine .ite (.refl _) (.ite (.refl _) ?_)
      refine (evaluate_erase env (depth + 1) rhs).bind fun r => ?_
      exact .ite (.refl _) (evalBinary_agree op l r 0 offset)

theorem evaluateElements_erase (env : Environment) :
    ∀ (depth : Nat) (es : List Expr),
      Agree (evaluateElements env depth (eraseElements es)) (evaluateElements env depth es)
  | _, [] => .refl _
  | depth, e :: es =>
      (evaluate_erase env depth e).bind fun _ => (evaluateElements_erase env depth es).bind fun _ => .refl _

theorem evaluateFields_erase (env : Environment) :
    ∀ (depth : Nat) (fs : List (Bytes × Expr)),
      Agree (evaluateFields env depth (eraseFields fs)) (evaluateFields env depth fs)
  | _, [] => .refl _
  | depth, (_, e) :: fs =>
      (evaluate_erase env depth e).bind fun _ => (evaluateFields_erase env depth fs).bind fun _ => .refl _

end

mutual

theorem buildNode_erase :
    ∀ (env : Environment) (st : ParsedStatement), Agree (buildNode env st.erase) (buildNode env st)
  | env, .assignment _ _ e => (evaluate_erase env 1 e).bind fun _ => .refl _
  | env, .block _ _ _ children => (buildNodes_erase ([] :: env) children).bind fun _ => .refl _
  | _, .include _ _ => .refl _

/-- Statements build the same nodes without their offsets. -/
theorem buildNodes_erase : ∀ (env : Environment) (stmts : List ParsedStatement),
    Agree (buildNodes env (eraseStatements stmts)) (buildNodes env stmts)
  | _, [] => .refl _
  | env, st :: stmts =>
      (buildNode_erase env st).bind fun out => (buildNodes_erase out.2 stmts).bind fun _ => .refl _

end

end Bytewright.Cfgscript
