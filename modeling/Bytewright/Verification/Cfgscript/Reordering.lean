import Bytewright.Model.Cfgscript.Flatten
import Bytewright.Verification.Cfgscript.Scoping

/-! # What a statement reads, and which statements may change places -/

namespace Bytewright.Cfgscript

open Bytewright.Common

/-! ### Names -/

mutual

/-- The identifiers of an expression. -/
def Expr.names : Expr → List Bytes
  | .null _ | .bool _ _ | .int _ _ | .float _ _ | .str _ _ => []
  | .ident _ name => [name]
  | .array _ elements => elementNames elements
  | .object _ fields => fieldNames fields
  | .unary _ _ operand => operand.names
  | .binary _ _ lhs rhs => lhs.names ++ rhs.names
  | .ternary _ cond then_ else_ => cond.names ++ (then_.names ++ else_.names)

def elementNames : List Expr → List Bytes
  | [] => []
  | e :: es => e.names ++ elementNames es

def fieldNames : List (Bytes × Expr) → List Bytes
  | [] => []
  | (_, e) :: fields => e.names ++ fieldNames fields

end

mutual

/-- The names a statement takes from the scopes it stands in. -/
def ParsedStatement.free : ParsedStatement → List Bytes
  | .assignment _ _ expr => expr.names
  | .block _ _ _ children => freeNames children
  | .include _ _ => []

/-- The same of a list, in which a statement binds a name for those behind it. -/
def freeNames : List ParsedStatement → List Bytes
  | [] => []
  | st :: stmts => st.free ++ (freeNames stmts).filter fun x => st.binds? ≠ some x

end

/-! ### Environments that agree -/

/-- These names have the same values, or none. -/
def AgreeOn (names : Bytes → Prop) (env env' : Environment) : Prop :=
  ∀ x, names x → env'.lookup x = env.lookup x

section AgreeOn

variable {names names' : Bytes → Prop} {env env' : Environment}

theorem AgreeOn.mono (h : AgreeOn names env env') (hsub : ∀ x, names' x → names x) :
    AgreeOn names' env env' :=
  fun x hx => h x (hsub x hx)

theorem AgreeOn.push (h : AgreeOn names env env') : AgreeOn names ([] :: env) ([] :: env') := h

theorem AgreeOn.define (h : AgreeOn names env env') (name : Bytes) (v : Value) :
    AgreeOn (fun x => names x ∨ some name = some x) (env.define name v) (env'.define name v) := by
  intro x hx
  rw [lookup_define, lookup_define]
  split
  · rfl
  · next hne => exact h x (hx.resolve_right fun heq => hne (Option.some.inj heq))

end AgreeOn

mutual

/-- An expression depends on its identifiers only. -/
theorem evaluate_congr {env env' : Environment} : ∀ (depth : Nat) (e : Expr),
    AgreeOn (· ∈ e.names) env env' → evaluate env' depth e = evaluate env depth e
  | _, .null _, _ | _, .bool _ _, _ | _, .int _ _, _ | _, .float _ _, _ | _, .str _ _, _ => by
      simp only [evaluate]
  | depth, .ident offset name, h => by
      simp only [evaluate, h name (List.mem_singleton_self name)]
  | depth, .array offset elements, h => by
      simp only [evaluate, evaluateElements_congr (depth + 1) elements h]
  | depth, .object offset fields, h => by
      simp only [evaluate, evaluateFields_congr (depth + 1) fields h]
  | depth, .unary offset op operand, h => by
      simp only [evaluate, evaluate_congr (depth + 1) operand h]
  | depth, .ternary offset cond then_ else_, h => by
      have hcond := evaluate_congr (depth + 1) cond (h.mono fun x hx => List.mem_append_left _ hx)
      have hthen := evaluate_congr (depth + 1) then_
        (h.mono fun x hx => List.mem_append_right _ (List.mem_append_left _ hx))
      have helse := evaluate_congr (depth + 1) else_
        (h.mono fun x hx => List.mem_append_right _ (List.mem_append_right _ hx))
      simp only [evaluate, hcond, hthen, helse]
  | depth, .binary offset op lhs rhs, h => by
      have hlhs := evaluate_congr (depth + 1) lhs (h.mono fun x hx => List.mem_append_left _ hx)
      have hrhs := evaluate_congr (depth + 1) rhs (h.mono fun x hx => List.mem_append_right _ hx)
      simp only [evaluate, hlhs, hrhs]

theorem evaluateElements_congr {env env' : Environment} : ∀ (depth : Nat) (es : List Expr),
    AgreeOn (· ∈ elementNames es) env env' → evaluateElements env' depth es = evaluateElements env depth es
  | _, [], _ => by simp only [evaluateElements]
  | depth, e :: es, h => by
      have hhead := evaluate_congr depth e (h.mono fun x hx => List.mem_append_left _ hx)
      have htail := evaluateElements_congr depth es (h.mono fun x hx => List.mem_append_right _ hx)
      simp only [evaluateElements, hhead, htail]

theorem evaluateFields_congr {env env' : Environment} : ∀ (depth : Nat) (fs : List (Bytes × Expr)),
    AgreeOn (· ∈ fieldNames fs) env env' → evaluateFields env' depth fs = evaluateFields env depth fs
  | _, [], _ => by simp only [evaluateFields]
  | depth, (key, e) :: fs, h => by
      have hhead := evaluate_congr depth e (h.mono fun x hx => List.mem_append_left _ hx)
      have htail := evaluateFields_congr depth fs (h.mono fun x hx => List.mem_append_right _ hx)
      simp only [evaluateFields, hhead, htail]

end

/-! ### Statements from scopes that agree -/

/-- The same outcome, and scopes behind it that agree on these names. -/
def SameOutcome {α : Type} (names : Bytes → Prop) (m m' : Outcome (α × Environment)) : Prop :=
  (∃ a out out', m = .ok (a, out) ∧ m' = .ok (a, out') ∧ AgreeOn names out out') ∨
    ∃ e, m = .error e ∧ m' = .error e

section SameOutcome

variable {α β : Type} {names names' : Bytes → Prop} {m m' : Outcome (α × Environment)}

theorem SameOutcome.pure {a : α} {out out' : Environment} (h : AgreeOn names out out') :
    SameOutcome names (pure (a, out)) (pure (a, out')) :=
  .inl ⟨a, out, out', rfl, rfl, h⟩

theorem SameOutcome.bind {f f' : α × Environment → Outcome (β × Environment)} (h : SameOutcome names m m')
    (hf : ∀ a out out', AgreeOn names out out' → SameOutcome names' (f (a, out)) (f' (a, out'))) :
    SameOutcome names' (m >>= f) (m' >>= f') := by
  rcases h with ⟨a, out, out', rfl, rfl, hagree⟩ | ⟨e, rfl, rfl⟩
  · exact hf a out out' hagree
  · exact .inr ⟨e, rfl, rfl⟩

theorem SameOutcome.ok {a : α} {out : Environment} (h : SameOutcome names m m') (hm : m = .ok (a, out)) :
    ∃ out', m' = .ok (a, out') ∧ AgreeOn names out out' := by
  rcases h with ⟨b, out₁, out', hok, hok', hagree⟩ | ⟨e, herror, -⟩
  · cases hm.symm.trans hok
    exact ⟨out', hok', hagree⟩
  · cases hm.symm.trans herror

end SameOutcome

mutual

/-- A statement depends on the names it takes from the scopes around it only. -/
theorem buildNode_congr {env env' : Environment} {names : Bytes → Prop} : ∀ st : ParsedStatement,
    (∀ x ∈ st.free, names x) → AgreeOn names env env' →
      SameOutcome (fun x => names x ∨ st.binds? = some x) (buildNode env st) (buildNode env' st)
  | .assignment _ path expr, hfree, h => by
      rw [buildNode, buildNode, evaluate_congr 1 expr (h.mono hfree)]
      cases evaluate env 1 expr with
      | error e => exact .inr ⟨e, rfl, rfl⟩
      | ok v =>
          refine .pure ?_
          rw [ParsedStatement.binds?]
          cases path.getLast? with
          | none => exact h.mono fun x hx => hx.resolve_right (by simp)
          | some name => exact h.define name v
  | .block _ name label children, hfree, h => by
      have hchildren := buildNodes_congr children hfree h.push
      rw [buildNode, buildNode]
      refine hchildren.bind fun nodes _ _ _ => .pure ?_
      exact h.mono fun x hx => hx.resolve_right (by simp [ParsedStatement.binds?])
  | .include _ path, _, h => by
      rw [buildNode, buildNode]
      exact .pure (h.mono fun x hx => hx.resolve_right (by simp [ParsedStatement.binds?]))

theorem buildNodes_congr {env env' : Environment} {names : Bytes → Prop} :
    ∀ stmts : List ParsedStatement, (∀ x ∈ freeNames stmts, names x) → AgreeOn names env env' →
      SameOutcome names (buildNodes env stmts) (buildNodes env' stmts)
  | [], _, h => by
      rw [buildNodes, buildNodes]
      exact .pure h
  | st :: stmts, hfree, h => by
      have hhead := buildNode_congr st (fun x hx => hfree x (List.mem_append_left _ hx)) h
      have hbehind : ∀ x ∈ freeNames stmts, names x ∨ st.binds? = some x := by
        intro x hx
        by_cases hbound : st.binds? = some x
        · exact .inr hbound
        · refine .inl (hfree x (List.mem_append_right _ ?_))
          exact List.mem_filter.mpr ⟨hx, decide_eq_true hbound⟩
      rw [buildNodes, buildNodes]
      refine hhead.bind fun node out out' hout => ?_
      refine (buildNodes_congr stmts hbehind hout).bind fun nodes _ _ hend => .pure ?_
      exact hend.mono fun x hx => .inl hx

end

/-! ### Statements that change places -/

/-- Neither statement binds a name that the other one reads or binds. -/
structure Independent (st st' : ParsedStatement) : Prop where
  first : ∀ x, st.binds? = some x → x ∉ st'.free
  second : ∀ x, st'.binds? = some x → x ∉ st.free
  apart : ∀ x, st.binds? = some x → st'.binds? ≠ some x

theorem lookup_buildNode {env out : Environment} {st : ParsedStatement} {node : Node}
    (h : buildNode env st = .ok (node, out)) {x : Bytes} (hx : st.binds? ≠ some x) :
    out.lookup x = env.lookup x := by
  cases st with
  | assignment offset path expr =>
      rcases outcome_bind_eq_ok.mp h with ⟨v, -, h⟩
      cases h
      rw [ParsedStatement.binds?] at hx
      cases hname : path.getLast? with
      | none => rfl
      | some name =>
          rw [hname] at hx
          exact (lookup_define env x name v).trans (if_neg fun heq => hx (congrArg some heq))
  | block offset name label children =>
      rcases outcome_bind_eq_ok.mp h with ⟨nodes, -, h⟩
      cases h
      rfl
  | «include» offset path =>
      cases h
      rfl

/-- All names have the same values. -/
abbrev SameScopes (env env' : Environment) : Prop := AgreeOn (fun _ => True) env env'

/-- Two independent statements build their nodes in either order. -/
theorem buildNode_swap {env env₁ env₂ : Environment} {st st' : ParsedStatement} {node node' : Node}
    (hindependent : Independent st st') (h : buildNode env st = .ok (node, env₁))
    (h' : buildNode env₁ st' = .ok (node', env₂)) :
    ∃ env₃ env₄, buildNode env st' = .ok (node', env₃) ∧ buildNode env₃ st = .ok (node, env₄) ∧
      SameScopes env₂ env₄ := by
  -- the second statement does not see what the first one binds
  have hfirst : AgreeOn (fun x => st.binds? ≠ some x) env₁ env := fun x hx => (lookup_buildNode h hx).symm
  have hfree' : ∀ x ∈ st'.free, st.binds? ≠ some x := fun x hx hbinds => hindependent.first x hbinds hx
  rcases (buildNode_congr st' hfree' hfirst).ok h' with ⟨env₃, hnode', hagree'⟩
  have hsecond : AgreeOn (fun x => st'.binds? ≠ some x) env env₃ := fun x hx => lookup_buildNode hnode' hx
  have hfree : ∀ x ∈ st.free, st'.binds? ≠ some x := fun x hx hbinds => hindependent.second x hbinds hx
  rcases (buildNode_congr st hfree hsecond).ok h with ⟨env₄, hnode, hagree⟩
  refine ⟨env₃, env₄, hnode', hnode, fun x _ => ?_⟩
  by_cases hx' : st'.binds? = some x
  · have hx : st.binds? ≠ some x := fun hx => hindependent.apart x hx hx'
    rw [lookup_buildNode hnode hx, hagree' x (.inr hx')]
  · rw [hagree x (.inl hx'), lookup_buildNode h' hx']

/-- The second list comes from the first by exchanging independent neighbours, also inside blocks. -/
inductive Reordered : List ParsedStatement → List ParsedStatement → Prop where
  | refl (stmts : List ParsedStatement) : Reordered stmts stmts
  | cons {stmts stmts' : List ParsedStatement} (st : ParsedStatement) (h : Reordered stmts stmts') :
      Reordered (st :: stmts) (st :: stmts')
  | block {children children' : List ParsedStatement} (offset : Nat) (name : Bytes) (label : Option Bytes)
      (stmts : List ParsedStatement) (h : Reordered children children') :
      Reordered (.block offset name label children :: stmts) (.block offset name label children' :: stmts)
  | swap {st st' : ParsedStatement} (stmts : List ParsedStatement) (h : Independent st st') :
      Reordered (st :: st' :: stmts) (st' :: st :: stmts)
  | trans {stmts stmts' stmts'' : List ParsedStatement} (h : Reordered stmts stmts')
      (h' : Reordered stmts' stmts'') : Reordered stmts stmts''

/-- The name a node assigns in the scopes it stands in. -/
def Node.binds? : Node → Option Bytes
  | .assignment path _ => path.getLast?
  | _ => none

theorem binds?_buildNode {env out : Environment} {st : ParsedStatement} {node : Node}
    (h : buildNode env st = .ok (node, out)) : node.binds? = st.binds? := by
  cases st with
  | assignment offset path expr =>
      rcases outcome_bind_eq_ok.mp h with ⟨v, -, h⟩
      cases h
      rfl
  | block offset name label children =>
      rcases outcome_bind_eq_ok.mp h with ⟨nodes, -, h⟩
      cases h
      rfl
  | «include» offset path =>
      cases h
      rfl

/-- The second list comes from the first by exchanging neighbours that do not assign the same name, also
inside blocks. -/
inductive Rearranged : List Node → List Node → Prop where
  | refl (nodes : List Node) : Rearranged nodes nodes
  | cons {nodes nodes' : List Node} (node : Node) (h : Rearranged nodes nodes') :
      Rearranged (node :: nodes) (node :: nodes')
  | block {children children' : List Node} (name : Bytes) (label : Option Bytes) (nodes : List Node)
      (h : Rearranged children children') :
      Rearranged (.block name label children :: nodes) (.block name label children' :: nodes)
  | swap {node node' : Node} (nodes : List Node) (h : ∀ x, node.binds? = some x → node'.binds? ≠ some x) :
      Rearranged (node :: node' :: nodes) (node' :: node :: nodes)
  | trans {nodes nodes' nodes'' : List Node} (h : Rearranged nodes nodes') (h' : Rearranged nodes' nodes'') :
      Rearranged nodes nodes''

theorem Independent.symm {st st' : ParsedStatement} (h : Independent st st') : Independent st' st :=
  ⟨h.second, h.first, fun x hx hx' => h.apart x hx' hx⟩

theorem Reordered.symm {stmts stmts' : List ParsedStatement} (h : Reordered stmts stmts') :
    Reordered stmts' stmts := by
  induction h with
  | refl stmts => exact .refl stmts
  | cons st _ ih => exact .cons st ih
  | block offset name label stmts _ ih => exact .block offset name label stmts ih
  | swap stmts h => exact .swap stmts h.symm
  | trans _ _ ih ih' => exact ih'.trans ih

theorem buildNodes_cons_ok {env out : Environment} {st : ParsedStatement} {stmts : List ParsedStatement}
    {nodes : List Node} (h : buildNodes env (st :: stmts) = .ok (nodes, out)) :
    ∃ node env₁ rest, buildNode env st = .ok (node, env₁) ∧ buildNodes env₁ stmts = .ok (rest, out) ∧
      nodes = node :: rest := by
  rcases outcome_bind_eq_ok.mp h with ⟨⟨node, env₁⟩, hnode, h⟩
  rcases outcome_bind_eq_ok.mp h with ⟨⟨rest, env₂⟩, hrest, h⟩
  cases h
  exact ⟨node, env₁, rest, hnode, hrest, rfl⟩

theorem buildNodes_cons {env env₁ out : Environment} {st : ParsedStatement} {stmts : List ParsedStatement}
    {node : Node} {rest : List Node} (hnode : buildNode env st = .ok (node, env₁))
    (hrest : buildNodes env₁ stmts = .ok (rest, out)) :
    buildNodes env (st :: stmts) = .ok (node :: rest, out) := by
  rw [buildNodes, hnode]
  change (buildNodes env₁ stmts >>= fun r => _) = _
  rw [hrest]
  rfl

/-- Scopes that are the same to look up in build the same nodes. -/
theorem buildNodes_same {env env' out : Environment} {stmts : List ParsedStatement} {nodes : List Node}
    (hsame : SameScopes env env') (h : buildNodes env stmts = .ok (nodes, out)) :
    ∃ out', buildNodes env' stmts = .ok (nodes, out') ∧ SameScopes out out' :=
  (buildNodes_congr stmts (fun _ _ => trivial) hsame).ok h

/-- Reordered statements build rearranged nodes. -/
theorem buildNodes_reordered {stmts stmts' : List ParsedStatement} (hreordered : Reordered stmts stmts') :
    ∀ {env out : Environment} {nodes : List Node}, buildNodes env stmts = .ok (nodes, out) →
      ∃ nodes' out', buildNodes env stmts' = .ok (nodes', out') ∧ Rearranged nodes nodes' ∧
        SameScopes out out' := by
  induction hreordered with
  | refl stmts =>
      intro env out nodes h
      exact ⟨nodes, out, h, .refl nodes, fun _ _ => rfl⟩
  | cons st _ ih =>
      intro env out nodes h
      rcases buildNodes_cons_ok h with ⟨node, env₁, rest, hnode, hrest, rfl⟩
      rcases ih hrest with ⟨rest', out', hrest', hrearranged, hsame⟩
      exact ⟨node :: rest', out', buildNodes_cons hnode hrest', .cons node hrearranged, hsame⟩
  | @block children children' offset name label stmts _ ih =>
      intro env out nodes h
      rcases buildNodes_block h with ⟨inner, inside, behind, hinside, hbehind, rfl⟩
      rcases ih hinside with ⟨inside', inner', hinside', hrearranged, -⟩
      have hnode : buildNode env (.block offset name label children') =
          .ok (.block name label inside', env) := by
        rw [buildNode, hinside']
        rfl
      exact ⟨_, out, buildNodes_cons hnode hbehind, .block name label behind hrearranged, fun _ _ => rfl⟩
  | swap stmts hindependent =>
      intro env out nodes h
      rcases buildNodes_cons_ok h with ⟨node, env₁, tail, hnode, htail, rfl⟩
      rcases buildNodes_cons_ok htail with ⟨node', env₂, rest, hnode', hrest, rfl⟩
      rcases buildNode_swap hindependent hnode hnode' with ⟨env₃, env₄, hfirst, hsecond, hsame⟩
      rcases buildNodes_same hsame hrest with ⟨out', hrest', hsame'⟩
      have hapart : ∀ x, node.binds? = some x → node'.binds? ≠ some x := by
        rw [binds?_buildNode hnode, binds?_buildNode hnode']
        exact hindependent.apart
      exact ⟨_, out', buildNodes_cons hfirst (buildNodes_cons hsecond hrest'), .swap rest hapart, hsame'⟩
  | trans _ _ ih ih' =>
      intro env out nodes h
      rcases ih h with ⟨nodes₁, out₁, h₁, hrearranged, hsame⟩
      rcases ih' h₁ with ⟨nodes₂, out₂, h₂, hrearranged', hsame'⟩
      exact ⟨nodes₂, out₂, h₂, hrearranged.trans hrearranged',
        fun x hx => (hsame' x hx).trans (hsame x hx)⟩

theorem flattenNodes_rearranged {nodes nodes' : List Node} (h : Rearranged nodes nodes') :
    ∀ path, (flattenNodes path nodes').Perm (flattenNodes path nodes) := by
  induction h with
  | refl nodes => exact fun path => .refl _
  | cons node _ ih =>
      intro path
      rw [flattenNodes, flattenNodes]
      exact (ih path).append_left _
  | block name label nodes _ ih =>
      intro path
      rw [flattenNodes, flattenNodes, flattenNode, flattenNode]
      exact (ih _).append_right _
  | swap nodes _ =>
      intro path
      simp only [flattenNodes, ← List.append_assoc]
      exact List.perm_append_comm.append_right _
  | trans _ _ ih ih' => exact fun path => (ih' path).trans (ih path)

theorem parse_of_reordered {data data' : Bytes} {stmts stmts' : List ParsedStatement} {doc : Document}
    (hsource : parseSource data = .ok stmts) (hsource' : parseSource data' = .ok stmts')
    (hreordered : Reordered (eraseStatements stmts) (eraseStatements stmts')) (h : parse data = .ok doc) :
    ∃ doc', parse data' = .ok doc' ∧ Rearranged doc.nodes doc'.nodes := by
  rcases parse_erased h hsource with ⟨env, hbuild⟩
  rcases buildNodes_reordered hreordered hbuild with ⟨nodes', out', hbuild', hrearranged, -⟩
  have hnodes := (buildNodes_erase [[]] stmts' _).mp hbuild'
  refine ⟨⟨nodes'⟩, ?_, hrearranged⟩
  rw [parse, hsource']
  change (buildNodes [[]] stmts' >>= fun r => _) = _
  rw [hnodes]
  rfl

/-- Two sources of which one has the statements of the other, up to exchanging neighbours that do not
depend on each other, are accepted together, and then have the same nodes but for their order, and
the same flattened entries. -/
theorem parse_reordered {data data' : Bytes} {stmts stmts' : List ParsedStatement}
    (hsource : parseSource data = .ok stmts) (hsource' : parseSource data' = .ok stmts')
    (hreordered : Reordered (eraseStatements stmts) (eraseStatements stmts')) :
    ((∃ doc, parse data = .ok doc) ↔ ∃ doc', parse data' = .ok doc') ∧
    ∀ doc doc', parse data = .ok doc → parse data' = .ok doc' →
      Rearranged doc.nodes doc'.nodes ∧ (flatten doc').Perm (flatten doc) := by
  refine ⟨⟨fun ⟨doc, h⟩ => ?_, fun ⟨doc', h'⟩ => ?_⟩, fun doc doc' h h' => ?_⟩
  · rcases parse_of_reordered hsource hsource' hreordered h with ⟨doc', h', -⟩
    exact ⟨doc', h'⟩
  · rcases parse_of_reordered hsource' hsource hreordered.symm h' with ⟨doc, h, -⟩
    exact ⟨doc, h⟩
  · rcases parse_of_reordered hsource hsource' hreordered h with ⟨doc₁, h₁, hrearranged⟩
    cases h'.symm.trans h₁
    exact ⟨hrearranged, flattenNodes_rearranged hrearranged []⟩

/-- The path of an assignment, and the literal or the name that is assigned. -/
def plainAssignment? : ParsedStatement → Option (List Bytes × (Int64 ⊕ Bytes))
  | .assignment _ path (.int _ i) => some (path, .inl i)
  | .assignment _ path (.ident _ x) => some (path, .inr x)
  | _ => none

/-- The statement at no offset. -/
def plainStatement (x : List Bytes × (Int64 ⊕ Bytes)) : ParsedStatement :=
  .assignment 0 x.1 (x.2.elim (Expr.int 0) (Expr.ident 0))

theorem eraseStatements_plain {stmts : List ParsedStatement} {xs : List (List Bytes × (Int64 ⊕ Bytes))}
    (h : stmts.mapM plainAssignment? = some xs) : eraseStatements stmts = xs.map plainStatement := by
  induction stmts generalizing xs with
  | nil =>
      cases h
      rfl
  | cons st stmts ih =>
      rw [List.mapM_cons] at h
      rcases Option.bind_eq_some_iff.mp h with ⟨x, hx, h⟩
      rcases Option.bind_eq_some_iff.mp h with ⟨rest, hrest, h⟩
      cases h
      have hhead : st.erase = plainStatement x := by
        unfold plainAssignment? at hx
        split at hx
        · cases hx
          rfl
        · cases hx
          rfl
        · cases hx
      rw [eraseStatements, hhead, ih hrest]
      rfl

theorem parseSource_plain {data : Bytes} {xs : List (List Bytes × (Int64 ⊕ Bytes))}
    (h : (parseSource data).toOption.bind (List.mapM plainAssignment?) = some xs) :
    ∃ stmts, parseSource data = .ok stmts ∧ eraseStatements stmts = xs.map plainStatement := by
  cases hsource : parseSource data with
  | error e =>
      rw [hsource] at h
      cases h
  | ok stmts =>
      rw [hsource] at h
      exact ⟨stmts, rfl, eraseStatements_plain h⟩

/-- An assignment that reads a name, in front of one to another name and behind it. -/
theorem parse_reordered_nameRead :
    ((∃ doc, parse (ascii "a=1;b=a;c=2;") = .ok doc) ↔ ∃ doc', parse (ascii "a=1;c=2;b=a;") = .ok doc') ∧
    ∀ doc doc', parse (ascii "a=1;b=a;c=2;") = .ok doc → parse (ascii "a=1;c=2;b=a;") = .ok doc' →
      Rearranged doc.nodes doc'.nodes ∧ (flatten doc').Perm (flatten doc) := by
  have hread : (parseSource (ascii "a=1;b=a;c=2;")).toOption.bind (List.mapM plainAssignment?) =
      some [([ascii "a"], .inl 1), ([ascii "b"], .inr (ascii "a")), ([ascii "c"], .inl 2)] := by
    decide +kernel
  have hread' : (parseSource (ascii "a=1;c=2;b=a;")).toOption.bind (List.mapM plainAssignment?) =
      some [([ascii "a"], .inl 1), ([ascii "c"], .inl 2), ([ascii "b"], .inr (ascii "a"))] := by
    decide +kernel
  rcases parseSource_plain hread with ⟨stmts, hsource, herased⟩
  rcases parseSource_plain hread' with ⟨stmts', hsource', herased'⟩
  refine parse_reordered hsource hsource' ?_
  rw [herased, herased']
  have hindependent : Independent (plainStatement ([ascii "b"], .inr (ascii "a")))
      (plainStatement ([ascii "c"], .inl 2)) := by
    refine ⟨fun x _ => List.not_mem_nil, fun x hx hfree => ?_, by decide⟩
    cases hx
    exact absurd hfree (by decide)
  exact .cons _ (.swap [] hindependent)

end Bytewright.Cfgscript
