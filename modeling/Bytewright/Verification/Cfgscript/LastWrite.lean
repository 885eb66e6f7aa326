import Bytewright.Verification.Cfgscript.Evaluation
import Bytewright.Verification.Cfgscript.Paths

/-! # Names assigned several times

An expression sees the latest assignment in front of it, a query the first of the document. -/

namespace Bytewright.Cfgscript

open Bytewright.Common

/-- The values that are assigned to a name, in order. -/
def assigned (x : Bytes) (nodes : List Node) : List Value :=
  nodes.filterMap fun
    | .assignment path v => if path = [x] then some v else none
    | _ => none

/-- All nodes are assignments to a single name. -/
def Flat (nodes : List Node) : Prop := ∀ node ∈ nodes, ∃ x v, node = .assignment [x] v

def FlatStatements (stmts : List ParsedStatement) : Prop :=
  ∀ st ∈ stmts, ∃ offset x e, st = .assignment offset [x] e

section Assigned

variable {nodes : List Node} {x : Bytes}

@[simp] theorem assigned_nil : assigned x [] = [] := rfl

@[simp] theorem assigned_cons (y : Bytes) (v : Value) :
    assigned x (.assignment [y] v :: nodes) = if y = x then v :: assigned x nodes
      else assigned x nodes := by
  by_cases h : y = x <;> simp [assigned, h]

/-! ### The evaluator -/

/-- Behind flat statements a name is bound to the value of its last assignment. -/
theorem buildNodes_flat {stmts : List ParsedStatement} (hflat : FlatStatements stmts) :
    ∀ {env env' : Environment} {nodes : List Node}, buildNodes env stmts = .ok (nodes, env') →
      Flat nodes ∧ ∀ x, env'.lookup x = (assigned x nodes).getLast?.or (env.lookup x) := by
  induction stmts with
  | nil =>
      intro env env' nodes h
      cases h
      exact ⟨nofun, fun x => rfl⟩
  | cons st stmts ih =>
      intro env env' nodes h
      obtain ⟨offset, y, e, rfl⟩ := hflat st List.mem_cons_self
      obtain ⟨⟨node, env₁⟩, hnode, h⟩ := outcome_bind_eq_ok.mp h
      obtain ⟨⟨nodes', env₂⟩, hnodes, h⟩ := outcome_bind_eq_ok.mp h
      cases h
      obtain ⟨v, -, hdefine⟩ := outcome_bind_eq_ok.mp hnode
      cases hdefine
      obtain ⟨hrest, hlookup⟩ := ih (fun st hst => hflat st (List.mem_cons_of_mem _ hst)) hnodes
      refine ⟨List.forall_mem_cons.mpr ⟨⟨y, v, rfl⟩, hrest⟩, fun x => ?_⟩
      rw [hlookup, assigned_cons]
      show (assigned x nodes').getLast?.or ((env.define y v).lookup x) = _
      rw [lookup_define]
      split
      · cases (assigned x nodes').eq_nil_or_concat with
        | inl hnil => simp [hnil]
        | inr hconcat =>
            obtain ⟨vs, w, hvs⟩ := hconcat
            simp [hvs, List.getLast?_cons]
      · rfl

/-- An assignment behind the others takes the value of its expression in the scopes behind them. -/
theorem buildNodes_snoc {stmts : List ParsedStatement} {env env' : Environment} {nodes : List Node}
    {e : Expr} {v : Value} (h : buildNodes env stmts = .ok (nodes, env'))
    (he : evaluate env' 1 e = .ok v) (offset : Nat) (path : List Bytes) :
    ∃ env'', buildNodes env (stmts ++ [.assignment offset path e]) =
      .ok (nodes ++ [.assignment path v], env'') := by
  simp only [buildNodes_append, h, buildNodes, buildNode, he, bind, Except.bind, pure, Except.pure]
  exact ⟨_, rfl⟩

/-! ### The query -/

theorem walkBlocks_flat (hflat : Flat nodes) (steps : List Step) : walkBlocks x steps nodes = none := by
  induction nodes with
  | nil => rfl
  | cons node nodes ih =>
      obtain ⟨y, v, rfl⟩ := hflat node List.mem_cons_self
      simp only [walkBlocks, walkBlock]
      exact ih fun node hnode => hflat node (List.mem_cons_of_mem _ hnode)

theorem walkAssignments_flat (hflat : Flat nodes) :
    walkAssignments [.name x] nodes = (assigned x nodes).head? := by
  induction nodes with
  | nil => rfl
  | cons node nodes ih =>
      obtain ⟨y, v, rfl⟩ := hflat node List.mem_cons_self
      have ih := ih fun node hnode => hflat node (List.mem_cons_of_mem _ hnode)
      by_cases h : y = x
      · simp [walkAssignments, matchAssignmentPath, walkValue, h]
      · simp [walkAssignments, matchAssignmentPath, h, Ne.symm h, ih]

theorem query_flat {doc : Document} (hflat : Flat doc.nodes) (hx : IsName x) :
    query doc x = (assigned x doc.nodes).head? := by
  have htokens : tokenize (x ++ [].flatMap stepText) = some [.name x] := tokenize_steps hx nofun
  rw [List.flatMap_nil, List.append_nil] at htokens
  rw [query, htokens]
  show walkNodes [.name x] doc.nodes = _
  rw [walkNodes, walkBlocks_flat hflat, walkAssignments_flat hflat]

end Assigned

/-! ### Sources -/

/-- `x` is assigned by one of the statements. -/
def Assigns (x : Bytes) (stmts : List ParsedStatement) : Prop :=
  ∃ offset e, ParsedStatement.assignment offset [x] e ∈ stmts

theorem isName_of_assigns {x : Bytes} {room : Nat} :
    ∀ stmts : List ParsedStatement, StatementsAccepted room stmts → Assigns x stmts → IsName x
  | [], _, ⟨_, _, hmem⟩ => nomatch hmem
  | st :: stmts, haccepted, ⟨offset, e, hmem⟩ => by
      obtain rfl | hmem := List.mem_cons.mp hmem
      · exact haccepted.1.2.2.1 x (List.mem_singleton_self x)
      · exact isName_of_assigns stmts haccepted.2 ⟨offset, e, hmem⟩

theorem assigned_ne_nil {x : Bytes} {stmts : List ParsedStatement} (hx : Assigns x stmts) :
    ∀ {env env' : Environment} {nodes : List Node}, buildNodes env stmts = .ok (nodes, env') →
      assigned x nodes ≠ [] := by
  obtain ⟨offset, e, hmem⟩ := hx
  induction stmts with
  | nil => cases hmem
  | cons st stmts ih =>
      intro env env' nodes h
      obtain ⟨⟨node, env₁⟩, hnode, h⟩ := outcome_bind_eq_ok.mp h
      obtain ⟨⟨nodes', env₂⟩, hnodes, h⟩ := outcome_bind_eq_ok.mp h
      cases h
      obtain rfl | hmem := List.mem_cons.mp hmem
      · obtain ⟨v, -, hdefine⟩ := outcome_bind_eq_ok.mp hnode
        cases hdefine
        simp
      · have hsplit : assigned x ([node] ++ nodes') = assigned x [node] ++ assigned x nodes' :=
          List.filterMap_append
        intro hnil
        exact ih hmem hnodes (List.append_eq_nil_iff.mp (hsplit.symm.trans hnil)).2

/-- For a source of assignments to single names: a reference to `x` behind them evaluates to the last
value assigned to `x`, and the query of `x` returns the same value if and only if the first value
assigned to `x` is the same as the last. -/
theorem query_last_write_iff {data : Bytes} {stmts : List ParsedStatement} {doc : Document}
    (hsource : parseSource data = .ok stmts) (hparse : parse data = .ok doc)
    (hflat : FlatStatements stmts) {x : Bytes} (hx : Assigns x stmts) (offset at_ : Nat)
    (path : List Bytes) :
    ∃ v env, buildNodes [[]] (stmts ++ [.assignment offset path (.ident at_ x)]) =
        .ok (doc.nodes ++ [.assignment path v], env) ∧
      (query doc x = some v ↔
        (assigned x doc.nodes).head? = (assigned x doc.nodes).getLast?) := by
  have hname : IsName x := isName_of_assigns stmts (parseSource_accepted hsource) hx
  obtain ⟨stmts', env, hsource', hnodes⟩ := parse_eq_ok hparse
  cases hsource.symm.trans hsource'
  obtain ⟨hflatNodes, hlookup⟩ := buildNodes_flat hflat hnodes
  obtain ⟨v, hlast⟩ : ∃ v, (assigned x doc.nodes).getLast? = some v := by
    rw [← Option.isSome_iff_exists, List.getLast?_isSome]
    exact assigned_ne_nil hx hnodes
  have hvalue : evaluate env 1 (.ident at_ x) = .ok v := by
    have henv : env.lookup x = some v := by rw [hlookup, hlast, Option.some_or]
    have hdepth : ¬ 1 > kMaxDepth := by decide
    simp [evaluate, requireDepth, hdepth, henv, bind, Except.bind, pure, Except.pure]
  obtain ⟨env', hbuild⟩ := buildNodes_snoc hnodes hvalue offset path
  refine ⟨v, env', hbuild, ?_⟩
  rw [query_flat hflatNodes hname, hlast]

/-- A name that gets its first value back. -/
def restored : Bytes := ascii "x=1;x=2;x=1;"

/-- Three assignments of integers to `x`, of which the third repeats the first. -/
def assignsAgain : Outcome (List ParsedStatement) → Bool
  | .ok [.assignment _ [x] (.int _ i), .assignment _ [y] (.int _ _), .assignment _ [z] (.int _ j)] =>
    x = ascii "x" ∧ y = ascii "x" ∧ z = ascii "x" ∧ i = j
  | _ => false

/-- The query and the reference agree. -/
theorem query_last_write_iff_restored : ∃ stmts doc v env,
    parseSource restored = .ok stmts ∧ parse restored = .ok doc ∧
      buildNodes [[]] (stmts ++ [.assignment 0 [ascii "y"] (.ident 0 (ascii "x"))]) =
        .ok (doc.nodes ++ [.assignment [ascii "y"] v], env) ∧
      query doc (ascii "x") = some v := by
  have hrun : assignsAgain (parseSource restored) = true := by decide +kernel
  unfold assignsAgain at hrun
  split at hrun
  · next offset₁ x at₁ i offset₂ y at₂ j offset₃ z at₃ k hsource =>
    obtain ⟨rfl, rfl, rfl, rfl⟩ := of_decide_eq_true hrun
    let doc : Document :=
      { nodes := [.assignment [ascii "x"] (.int i), .assignment [ascii "x"] (.int j),
          .assignment [ascii "x"] (.int i)] }
    have hparse : parse restored = .ok doc := by
      rw [parse, hsource]
      rfl
    have hflat : FlatStatements [.assignment offset₁ [ascii "x"] (.int at₁ i),
        .assignment offset₂ [ascii "x"] (.int at₂ j), .assignment offset₃ [ascii "x"] (.int at₃ i)] := by
      simp [FlatStatements]
    obtain ⟨v, env, hbuild, hquery⟩ := query_last_write_iff hsource hparse hflat
      ⟨offset₁, .int at₁ i, List.mem_cons_self⟩ 0 0 [ascii "y"]
    exact ⟨_, doc, v, env, hsource, hparse, hbuild, hquery.mpr rfl⟩
  · cases hrun

/-- A name that is assigned twice. -/
def twice : Bytes := ascii "x=1;x=2;"

/-- Two assignments of integers that differ to `x`. -/
def assignsTwice : Outcome (List ParsedStatement) → Bool
  | .ok [.assignment _ [x] (.int _ i), .assignment _ [y] (.int _ j)] =>
    x = ascii "x" ∧ y = ascii "x" ∧ i ≠ j
  | _ => false

theorem twice_statements : ∃ offset₁ offset₂ at₁ at₂ i j, i ≠ j ∧ parseSource twice =
    .ok [.assignment offset₁ [ascii "x"] (.int at₁ i), .assignment offset₂ [ascii "x"] (.int at₂ j)] := by
  have hrun : assignsTwice (parseSource twice) = true := by decide +kernel
  unfold assignsTwice at hrun
  split at hrun
  · next offset₁ x at₁ i offset₂ y at₂ j hsource =>
    obtain ⟨rfl, rfl, hne⟩ := of_decide_eq_true hrun
    exact ⟨offset₁, offset₂, at₁, at₂, i, j, hne, hsource⟩
  · cases hrun

theorem twice_document {stmts : List ParsedStatement} {doc : Document} {env : Environment}
    (hsource : parseSource twice = .ok stmts) (hnodes : buildNodes [[]] stmts = .ok (doc.nodes, env)) :
    parse twice = .ok doc := by
  rw [parse, hsource]
  show (buildNodes [[]] stmts >>= fun r => (pure { nodes := r.1 } : Outcome Document)) = _
  rw [hnodes]
  rfl

/-- The query returns the first value, a reference behind the assignments the second. -/
theorem query_first_write : ∃ stmts doc v env,
    parseSource twice = .ok stmts ∧ parse twice = .ok doc ∧ FlatStatements stmts ∧
      Assigns (ascii "x") stmts ∧
      buildNodes [[]] (stmts ++ [.assignment 0 [ascii "y"] (.ident 0 (ascii "x"))]) =
        .ok (doc.nodes ++ [.assignment [ascii "y"] v], env) ∧
      query doc (ascii "x") ≠ some v := by
  obtain ⟨offset₁, offset₂, at₁, at₂, i, j, hne, hsource⟩ := twice_statements
  let doc : Document :=
    { nodes := [.assignment [ascii "x"] (.int i), .assignment [ascii "x"] (.int j)] }
  have hparse : parse twice = .ok doc := twice_document hsource rfl
  refine ⟨_, doc, .int j, _, hsource, hparse, by simp [FlatStatements],
    ⟨offset₁, .int at₁ i, List.mem_cons_self⟩, rfl, fun hquery => hne ?_⟩
  have hfirst : query doc (ascii "x") = some (.int i) := rfl
  cases hfirst.symm.trans hquery
  rfl

end Bytewright.Cfgscript
