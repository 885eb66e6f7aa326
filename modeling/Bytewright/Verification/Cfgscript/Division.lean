import Bytewright.Library.Signed
import Bytewright.Verification.Cfgscript.Evaluation

/-! # Division of integers

The operators of the evaluator against the operations of the machine, some of which are undefined. -/

namespace Bytewright.Cfgscript

open Bytewright.Common Bytewright.Library

/-! ### The source's own operations -/

/-- The outcome of a signed operation, undefined where its result does not fit. -/
def signedResult : Option Int64 → Outcome Value
  | some i => return .int i
  | none => throw .undefined

/-- `eval_arith`, with the casts by which its integers are added, subtracted and multiplied. -/
def evalArithOnMachine (op : TokenKind) (l r : Value) (at_ : Nat) : Outcome Value :=
  if op = .kPlus ∧ (l.isStr ∨ r.isStr) then return .str (toConcatString l ++ toConcatString r)
  else if !l.isNumber || !r.isNumber then
    evalError .kBadType at_ "arithmetic requires numeric operands"
  else if l.isFloat || r.isFloat then
    match op with
    | .kPlus => return .float (l.asDouble.add r.asDouble)
    | .kMinus => return .float (l.asDouble.sub r.asDouble)
    | .kStar => return .float (l.asDouble.mul r.asDouble)
    | _ => evalError .kBadType at_ "unsupported arithmetic operator"
  else
    match op with
    | .kPlus => return .int (l.asInt.toUInt64 + r.asInt.toUInt64).toInt64
    | .kMinus => return .int (l.asInt.toUInt64 - r.asInt.toUInt64).toInt64
    | .kStar => return .int (l.asInt.toUInt64 * r.asInt.toUInt64).toInt64
    | _ => evalError .kBadType at_ "unsupported arithmetic operator"

/-- `eval_div_mod`, with its two signed operations as far as they are defined. -/
def evalDivModOnMachine (op : TokenKind) (l r : Value) (at_ : Nat) : Outcome Value :=
  if !l.isNumber || !r.isNumber then
    evalError .kBadType at_ "division requires numeric operands"
  else if l.isFloat || r.isFloat then
    if r.asDouble.eq {} then evalError .kStateViolation at_ "division by zero"
    else if op = .kSlash then return .float (l.asDouble.div r.asDouble)
    else evalError .kBadType at_ "'%' requires integer operands"
  else if r.asInt = 0 then
    evalError .kStateViolation at_ (if op = .kSlash then "division by zero" else "modulo by zero")
  else if r.asInt = -1 ∧ l.asInt = kInt64Min then
    return .int (if op = .kSlash then kInt64Min else 0)
  else if op = .kSlash then signedResult (Signed.div l.asInt r.asInt)
  else signedResult (Signed.mod l.asInt r.asInt)

theorem evalArithOnMachine_eq (op : TokenKind) (l r : Value) (at_ : Nat) :
    evalArithOnMachine op l r at_ = evalArith op l r at_ := rfl

/-- The guards leave no operands on which a signed operation is undefined. -/
theorem evalDivModOnMachine_eq (op : TokenKind) (l r : Value) (at_ : Nat) :
    evalDivModOnMachine op l r at_ = evalDivMod op l r at_ := by
  unfold evalDivModOnMachine evalDivMod
  by_cases hzero : r.asInt = 0
  · simp only [if_pos hzero]
  by_cases hleast : r.asInt = -1 ∧ l.asInt = kInt64Min
  · simp only [if_pos hleast]
  · simp only [if_neg hzero, if_neg hleast, Signed.div_eq_some hzero hleast,
      Signed.mod_eq_some hzero hleast, signedResult]

/-- `+`, `-`, `*`, `/` and `%`, as the machine runs them. -/
def evalBinaryOnMachine (op : TokenKind) (l r : Value) (at_ : Nat) : Outcome Value :=
  match op with
  | .kSlash | .kPercent => evalDivModOnMachine op l r at_
  | _ => evalArithOnMachine op l r at_

/-- No step of the operator is undefined: the machine ends as the evaluator does, and the evaluator
with a value or an exception. -/
def Defined (op : TokenKind) : Prop :=
  ∀ l r at_, evalBinaryOnMachine op l r at_ = evalBinary op l r at_ ∧
    evalBinary op l r at_ ≠ .error .undefined

theorem evalBinary_ne_undefined (op : TokenKind) (l r : Value) (at_ : Nat) :
    evalBinary op l r at_ ≠ .error .undefined := by
  intro h
  have hends := evalBinary_ends op l r at_
  rw [h] at hends
  obtain ⟨e, he, -⟩ := hends
  cases he

theorem defined_arith {op : TokenKind} (h : op = .kPlus ∨ op = .kMinus ∨ op = .kStar) : Defined op := by
  intro l r at_
  refine ⟨?_, evalBinary_ne_undefined op l r at_⟩
  rcases h with rfl | rfl | rfl
  · exact evalArithOnMachine_eq .kPlus l r at_
  · exact evalArithOnMachine_eq .kMinus l r at_
  · exact evalArithOnMachine_eq .kStar l r at_

theorem defined_divMod {op : TokenKind} (h : op = .kSlash ∨ op = .kPercent) : Defined op := by
  intro l r at_
  refine ⟨?_, evalBinary_ne_undefined op l r at_⟩
  rcases h with rfl | rfl
  · exact evalDivModOnMachine_eq .kSlash l r at_
  · exact evalDivModOnMachine_eq .kPercent l r at_

/-! ### The law -/

/-- The special case is what the quotient and the remainder wrap around to. -/
theorem evalDivMod_int (op : TokenKind) (x : Int64) {y : Int64} (hy : y ≠ 0) (at_ : Nat) :
    evalDivMod op (.int x) (.int y) at_ = .ok (.int (if op = .kSlash then x / y else x % y)) := by
  by_cases hleast : y = -1 ∧ x = kInt64Min
  · obtain ⟨rfl, rfl⟩ := hleast
    rfl
  · by_cases hop : op = .kSlash <;>
      simp [evalDivMod, Value.isNumber, Value.isFloat, Value.asInt, hy, hleast, hop, pure, Except.pure]

/-- Quotient and remainder of every pair of integers, and the refusal to divide by zero. -/
theorem division_law (x y : Int64) (at_ : Nat) :
    (y ≠ 0 → ∃ q m p,
      evalBinary .kSlash (.int x) (.int y) at_ = .ok (.int q) ∧
      evalBinary .kPercent (.int x) (.int y) at_ = .ok (.int m) ∧
      evalBinary .kStar (.int q) (.int y) at_ = .ok (.int p) ∧
      evalBinary .kPlus (.int p) (.int m) at_ = .ok (.int x) ∧
      m.toInt.natAbs < y.toInt.natAbs ∧ (m = 0 ∨ m.toInt.sign = x.toInt.sign)) ∧
    (y = 0 → ∀ op, op = .kSlash ∨ op = .kPercent →
      ∃ msg, evalBinary op (.int x) (.int y) at_ = .error (.thrown ⟨.kStateViolation, at_, msg⟩)) ∧
    ∀ op ∈ [TokenKind.kSlash, .kPercent, .kStar, .kPlus], Defined op := by
  refine ⟨?_, ?_, ?_⟩
  · intro hy
    refine ⟨x / y, x % y, x / y * y, evalDivMod_int .kSlash x hy at_, evalDivMod_int .kPercent x hy at_,
      rfl, ?_, Signed.natAbs_mod_lt x hy, Signed.mod_eq_zero_or_sign x y⟩
    change Except.ok (Value.int (x / y * y + x % y)) = _
    rw [Signed.div_mul_add_mod]
  · rintro rfl op (rfl | rfl)
    · exact ⟨"division by zero", rfl⟩
    · exact ⟨"modulo by zero", rfl⟩
  · intro op hop
    simp only [List.mem_cons, List.not_mem_nil, or_false] at hop
    rcases hop with rfl | rfl | rfl | rfl
    · exact defined_divMod (.inl rfl)
    · exact defined_divMod (.inr rfl)
    · exact defined_arith (.inr (.inr rfl))
    · exact defined_arith (.inl rfl)

/-- The least integer divided by `-1`, whose quotient does not fit. -/
theorem division_law_least : ∃ q m p,
    evalBinary .kSlash (.int kInt64Min) (.int (-1)) 0 = .ok (.int q) ∧
    evalBinary .kPercent (.int kInt64Min) (.int (-1)) 0 = .ok (.int m) ∧
    evalBinary .kStar (.int q) (.int (-1)) 0 = .ok (.int p) ∧
    evalBinary .kPlus (.int p) (.int m) 0 = .ok (.int kInt64Min) ∧
    m.toInt.natAbs < (-1 : Int64).toInt.natAbs ∧ (m = 0 ∨ m.toInt.sign = kInt64Min.toInt.sign) :=
  (division_law kInt64Min (-1) 0).1 (by decide)

end Bytewright.Cfgscript
