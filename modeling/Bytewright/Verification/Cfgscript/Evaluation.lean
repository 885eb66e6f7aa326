import Bytewright.Verification.Cfgscript.Accepted
import Bytewright.Verification.Cfgscript.Spelling

/-! # What accepted statements evaluate to

The names of an accepted source are the names in its document: components of paths, names of blocks,
and keys of objects, however an object came to be the value of an expression. -/

namespace Bytewright.Cfgscript

open Bytewright.Common

/-! ### Operators -/

/-- The call returns something with `post`, or throws something other than `kDepthExceeded`. -/
def Ends {α : Type} (m : Outcome α) (post : α → Prop) : Prop :=
  match m with
  | .ok a => post a
  | .error f => ∃ e, f = .thrown e ∧ e.code ≠ .kDepthExceeded

section Ends

variable {α β : Type} {m : Outcome α} {f : α → Outcome β} {post : α → Prop} {post' : β → Prop}

theorem Ends.pure {a : α} (h : post a) : Ends (pure a) post := h

theorem Ends.evalError {code : ErrorCode} {at_ : Nat} {msg : String} (h : code ≠ .kDepthExceeded) :
    Ends (evalError code at_ msg : Outcome α) post := ⟨_, rfl, h⟩

theorem Ends.bind (h : Ends m post) (h' : ∀ a, post a → Ends (f a) post') :
    Ends (m >>= f) post' := by
  cases m with
  | ok a => exact h' a h
  | error e => exact h

end Ends

def Value.isScalar : Value → Bool
  | .array _ | .object _ => false
  | _ => true

theorem keyed_of_isScalar {v : Value} (h : v.isScalar = true) : v.Keyed := by
  cases v with
  | array _ | object _ => cases h
  | _ => trivial

theorem requireInt_ends (v : Value) (at_ : Nat) (op : String) :
    Ends (requireInt v at_ op) fun _ => True := by
  unfold requireInt
  split
  · exact .pure trivial
  · exact .evalError nofun

theorem evalArith_ends (op : TokenKind) (l r : Value) (at_ : Nat) :
    Ends (evalArith op l r at_) fun v => v.isScalar = true := by
  unfold evalArith
  repeat' split
  all_goals first | exact .pure rfl | exact .evalError nofun

theorem evalDivMod_ends (op : TokenKind) (l r : Value) (at_ : Nat) :
    Ends (evalDivMod op l r at_) fun v => v.isScalar = true := by
  unfold evalDivMod
  repeat' split
  all_goals first | exact .pure rfl | exact .evalError nofun

theorem evalShift_ends (op : TokenKind) (l r : Value) (at_ : Nat) :
    Ends (evalShift op l r at_) fun v => v.isScalar = true := by
  refine (requireInt_ends l at_ _).bind fun a _ => (requireInt_ends r at_ _).bind fun b _ => ?_
  repeat' split
  all_goals first | exact .pure rfl | exact .evalError nofun

theorem evalCompare_ends (op : TokenKind) (l r : Value) (at_ : Nat) :
    Ends (evalCompare op l r at_) fun v => v.isScalar = true := by
  unfold evalCompare
  repeat' split
  all_goals first | exact .pure rfl | exact .evalError nofun

/-- A binary operator returns a scalar. -/
theorem evalBinary_ends (op : TokenKind) (l r : Value) (at_ : Nat) :
    Ends (evalBinary op l r at_) fun v => v.isScalar = true := by
  have hint : ∀ (msg : String) (f : Int64 → Int64 → Int64),
      Ends (do return Value.int (f (← requireInt l at_ msg) (← requireInt r at_ msg)))
        fun v => v.isScalar = true :=
    fun msg f => (requireInt_ends l at_ msg).bind fun a _ =>
      (requireInt_ends r at_ msg).bind fun b _ => .pure rfl
  cases op with
  | kPlus | kMinus | kStar => exact evalArith_ends _ l r at_
  | kSlash | kPercent => exact evalDivMod_ends _ l r at_
  | kShl | kShr => exact evalShift_ends _ l r at_
  | kAmp => exact hint "&" (· &&& ·)
  | kCaret => exact hint "^" (· ^^^ ·)
  | kPipe => exact hint "|" (· ||| ·)
  | kEq | kNe => exact .pure rfl
  | kLt => exact evalCompare_ends .kLt l r at_
  | kLe => exact evalCompare_ends .kLe l r at_
  | kGt => exact evalCompare_ends .kGt l r at_
  | kGe => exact evalCompare_ends .kGe l r at_
  | _ => exact .evalError nofun

theorem evalUnary_ends (op : TokenKind) (v : Value) (at_ : Nat) :
    Ends (evalUnary op v at_) fun v => v.isScalar = true := by
  unfold evalUnary
  repeat' split
  all_goals first
    | exact .pure rfl
    | exact .evalError nofun
    | exact (requireInt_ends v at_ _).bind fun _ _ => .pure rfl

theorem Ends.of_ok {α : Type} {m : Outcome α} {post : α → Prop} {a : α} (h : Ends m post)
    (hm : m = .ok a) : post a := by
  subst hm
  exact h

/-! ### Scopes -/

/-- Every object that is bound has names for its keys. -/
def Environment.Keyed (env : Environment) : Prop :=
  ∀ scope ∈ env, ∀ entry ∈ scope, entry.2.Keyed

namespace Environment.Keyed

variable {env : Environment} {name : Bytes} {v : Value}

theorem lookup (h : env.Keyed) (hv : env.lookup name = some v) : v.Keyed := by
  obtain ⟨scope, hscope, hlookup⟩ := List.exists_of_findSome?_eq_some hv
  obtain ⟨before, after, rfl, -⟩ := List.lookup_eq_some_iff.mp hlookup
  exact h _ hscope (name, v) (List.mem_append_right before List.mem_cons_self)

theorem define (h : env.Keyed) (hv : v.Keyed) : (env.define name v).Keyed := by
  cases env with
  | nil => simpa [Environment.define, Environment.Keyed] using hv
  | cons scope outer =>
      have hscopes := List.forall_mem_cons.mp h
      exact List.forall_mem_cons.mpr ⟨List.forall_mem_cons.mpr ⟨hv, hscopes.1⟩, hscopes.2⟩

theorem push (h : env.Keyed) : Environment.Keyed ([] :: env) :=
  List.forall_mem_cons.mpr ⟨nofun, h⟩

end Environment.Keyed

theorem lookup_define (env : Environment) (x y : Bytes) (v : Value) :
    (env.define y v).lookup x = if y = x then some v else env.lookup x := by
  cases env with
  | nil =>
      by_cases h : y = x
      · simp [Environment.define, Environment.lookup, h]
      · simp [Environment.define, Environment.lookup, h, Ne.symm h]
  | cons scope outer =>
      by_cases h : y = x
      · simp [Environment.define, Environment.lookup, h]
      · have hne : (x == y) = false := beq_eq_false_iff_ne.mpr (Ne.symm h)
        simp [Environment.define, Environment.lookup, List.findSome?_cons, List.lookup_cons, h, hne]

/-! ### Values -/

mutual

theorem evaluate_keyed {env : Environment} (henv : env.Keyed) :
    ∀ (depth : Nat) (e : Expr) {v : Value}, e.Keyed → evaluate env depth e = .ok v → v.Keyed
  | depth, .null _, v, _, h | depth, .bool _ _, v, _, h | depth, .int _ _, v, _, h
  | depth, .float _ _, v, _, h | depth, .str _ _, v, _, h => by
      obtain ⟨_, -, h⟩ := outcome_bind_eq_ok.mp h
      cases h
      trivial
  | depth, .ident _ name, v, _, h => by
      obtain ⟨_, -, h⟩ := outcome_bind_eq_ok.mp h
      split at h
      · next hlookup =>
        cases h
        exact henv.lookup hlookup
      · cases h
  | depth, .array _ elements, v, he, h => by
      obtain ⟨_, -, h⟩ := outcome_bind_eq_ok.mp h
      obtain ⟨vs, hvs, h⟩ := outcome_bind_eq_ok.mp h
      cases h
      exact evaluateElements_keyed henv (depth + 1) elements he hvs
  | depth, .object _ fields, v, he, h => by
      obtain ⟨_, -, h⟩ := outcome_bind_eq_ok.mp h
      obtain ⟨fs, hfs, h⟩ := outcome_bind_eq_ok.mp h
      cases h
      exact evaluateFields_keyed henv (depth + 1) fields he hfs
  | depth, .unary _ op operand, v, _, h => by
      obtain ⟨_, -, h⟩ := outcome_bind_eq_ok.mp h
      obtain ⟨w, -, h⟩ := outcome_bind_eq_ok.mp h
      exact keyed_of_isScalar ((evalUnary_ends op w _).of_ok h)
  | depth, .ternary _ cond then_ else_, v, he, h => by
      obtain ⟨_, -, h⟩ := outcome_bind_eq_ok.mp h
      obtain ⟨w, -, h⟩ := outcome_bind_eq_ok.mp h
      split at h
      · exact evaluate_keyed henv (depth + 1) then_ he.2.1 h
      · exact evaluate_keyed henv (depth + 1) else_ he.2.2 h
  | depth, .binary _ op lhs rhs, v, _, h => by
      obtain ⟨_, -, h⟩ := outcome_bind_eq_ok.mp h
      obtain ⟨l, -, h⟩ := outcome_bind_eq_ok.mp h
      split at h
      · cases h
        trivial
      · split at h
        · cases h
          trivial
        · obtain ⟨r, -, h⟩ := outcome_bind_eq_ok.mp h
          split at h
          · cases h
            trivial
          · exact keyed_of_isScalar ((evalBinary_ends op l r _).of_ok h)

theorem evaluateElements_keyed {env : Environment} (henv : env.Keyed) :
    ∀ (depth : Nat) (es : List Expr) {vs : List Value}, ElementsKeyed es →
      evaluateElements env depth es = .ok vs → AllElements (fun _ => True) IsName vs
  | _, [], _, _, h => by
      cases h
      trivial
  | depth, e :: es, _, hes, h => by
      obtain ⟨v, hv, h⟩ := outcome_bind_eq_ok.mp h
      obtain ⟨vs, hvs, h⟩ := outcome_bind_eq_ok.mp h
      cases h
      exact ⟨evaluate_keyed henv depth e hes.1 hv, evaluateElements_keyed henv depth es hes.2 hvs⟩

theorem evaluateFields_keyed {env : Environment} (henv : env.Keyed) :
    ∀ (depth : Nat) (fs : List (Bytes × Expr)) {fields : List (Bytes × Value)}, FieldsKeyed fs →
      evaluateFields env depth fs = .ok fields → AllFields (fun _ => True) IsName fields
  | _, [], _, _, h => by
      cases h
      trivial
  | depth, (key, e) :: fs, _, hfs, h => by
      obtain ⟨v, hv, h⟩ := outcome_bind_eq_ok.mp h
      obtain ⟨fields, hfields, h⟩ := outcome_bind_eq_ok.mp h
      cases h
      exact ⟨hfs.1, evaluate_keyed henv depth e hfs.2.1 hv,
        evaluateFields_keyed henv depth fs hfs.2.2 hfields⟩

end

/-! ### Nodes -/

mutual

theorem buildNode_wellFormed :
    ∀ {room : Nat} (st : ParsedStatement) {env env' : Environment} {node : Node}, st.Accepted room →
      env.Keyed → buildNode env st = .ok (node, env') → node.WellFormed room ∧ env'.Keyed
  | _, .assignment _ path e, env, env', node, hst, henv, h => by
      obtain ⟨v, hv, h⟩ := outcome_bind_eq_ok.mp h
      cases h
      have hkeyed := evaluate_keyed henv 1 e hst.2.2.2.keyed hv
      refine ⟨⟨hst.1, hst.2.1, hst.2.2.1, hkeyed⟩, ?_⟩
      split
      · exact henv.define hkeyed
      · exact henv
  | room, .block _ name label children, env, env', node, hst, henv, h => by
      obtain ⟨⟨nodes, env₁⟩, hnodes, h⟩ := outcome_bind_eq_ok.mp h
      cases h
      exact ⟨⟨hst.1, hst.2.1, (buildNodes_wellFormed children hst.2.2 henv.push hnodes).1⟩, henv⟩
  | _, .include _ path, env, env', node, hst, henv, h => by
      cases h
      exact ⟨hst, henv⟩

theorem buildNodes_wellFormed :
    ∀ {room : Nat} (stmts : List ParsedStatement) {env env' : Environment} {nodes : List Node},
      StatementsAccepted room stmts → env.Keyed → buildNodes env stmts = .ok (nodes, env') →
      NodesWellFormed room nodes ∧ env'.Keyed
  | _, [], env, env', nodes, _, henv, h => by
      cases h
      exact ⟨trivial, henv⟩
  | room, st :: stmts, env, env', nodes, hstmts, henv, h => by
      obtain ⟨⟨node, env₁⟩, hnode, h⟩ := outcome_bind_eq_ok.mp h
      obtain ⟨⟨nodes', env₂⟩, hnodes, h⟩ := outcome_bind_eq_ok.mp h
      cases h
      obtain ⟨hwf, henv₁⟩ := buildNode_wellFormed st hstmts.1 henv hnode
      obtain ⟨hall, henv₂⟩ := buildNodes_wellFormed stmts hstmts.2 henv₁ hnodes
      exact ⟨⟨hwf, hall⟩, henv₂⟩

end

theorem buildNodes_append (stmts stmts' : List ParsedStatement) :
    ∀ env : Environment, buildNodes env (stmts ++ stmts') = do
      let (nodes, env) ← buildNodes env stmts
      let (nodes', env) ← buildNodes env stmts'
      return (nodes ++ nodes', env) := by
  induction stmts with
  | nil =>
      intro env
      simp only [List.nil_append, buildNodes, bind, Except.bind, pure, Except.pure]
      cases buildNodes env stmts' <;> rfl
  | cons st stmts ih =>
      intro env
      simp only [List.cons_append, buildNodes, bind, Except.bind]
      cases buildNode env st with
      | error e => rfl
      | ok r =>
          simp only [ih, bind, Except.bind, pure, Except.pure]
          cases buildNodes r.2 stmts with
          | error e => rfl
          | ok r' =>
              simp only
              cases buildNodes r'.2 stmts' <;> rfl

theorem buildNodes_append_ok {env out : Environment} {xs ys : List ParsedStatement} {nodes : List Node}
    (h : buildNodes env (xs ++ ys) = .ok (nodes, out)) :
    ∃ as bs env', buildNodes env xs = .ok (as, env') ∧ buildNodes env' ys = .ok (bs, out) ∧
      nodes = as ++ bs := by
  rw [buildNodes_append] at h
  obtain ⟨⟨as, env'⟩, hxs, h⟩ := outcome_bind_eq_ok.mp h
  obtain ⟨⟨bs, env''⟩, hys, h⟩ := outcome_bind_eq_ok.mp h
  cases h
  exact ⟨as, bs, env', hxs, hys, rfl⟩

theorem parse_eq_ok {data : Bytes} {doc : Document} (h : parse data = .ok doc) :
    ∃ stmts env, parseSource data = .ok stmts ∧ buildNodes [[]] stmts = .ok (doc.nodes, env) := by
  obtain ⟨stmts, hsource, h⟩ := outcome_bind_eq_ok.mp h
  obtain ⟨⟨nodes, env⟩, hnodes, h⟩ := outcome_bind_eq_ok.mp h
  cases h
  exact ⟨stmts, env, hsource, hnodes⟩

theorem parse_wellFormed {data : Bytes} {doc : Document} (h : parse data = .ok doc) :
    NodesWellFormed kMaxDepth doc.nodes := by
  obtain ⟨stmts, env, hsource, hnodes⟩ := parse_eq_ok h
  have henv : Environment.Keyed [[]] := by simp [Environment.Keyed]
  exact (buildNodes_wellFormed stmts (parseSource_accepted hsource) henv hnodes).1

end Bytewright.Cfgscript
