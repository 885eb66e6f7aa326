import Bytewright.Verification.Cfgscript.Evaluation
import Bytewright.Verification.Cfgscript.Offsets

/-! # Blocks keep their bindings to themselves -/

namespace Bytewright.Cfgscript

open Bytewright.Common

/-! ### A block in its surroundings -/

/-- What is around one block: its head, and its siblings before and behind it. -/
structure Frame (α : Type) where
  before : List α
  name : Bytes
  label : Option Bytes
  after : List α

/-- The list in which the innermost of the nested blocks, given from the outside in, has these
children. -/
def plug {α : Type} (block : Bytes → Option Bytes → List α → α) : List (Frame α) → List α → List α
  | [], children => children
  | f :: frames, children => f.before ++ block f.name f.label (plug block frames children) :: f.after

/-- The statements with these children of the innermost block, their offsets erased. -/
abbrev plugStatements := plug (ParsedStatement.block 0)

abbrev plugNodes := plug Node.block

/-- The frames are around the same places. -/
def Frame.Matches {α β : Type} (f : Frame α) (g : Frame β) : Prop :=
  g.before.length = f.before.length ∧ g.name = f.name ∧ g.label = f.label ∧
    g.after.length = f.after.length

/-- The name a statement binds in the scope it stands in. -/
def ParsedStatement.binds? : ParsedStatement → Option Bytes
  | .assignment _ path _ => path.getLast?
  | _ => none

/-- No statement of the list binds the name in its scope. -/
def Unbound (name : Bytes) (stmts : List ParsedStatement) : Prop := ∀ st ∈ stmts, st.binds? ≠ some name

/-! ### Lists of statements -/

section Build

variable {env out : Environment} {stmts : List ParsedStatement} {nodes : List Node}

theorem length_buildNodes (h : buildNodes env stmts = .ok (nodes, out)) :
    nodes.length = stmts.length := by
  induction stmts generalizing env nodes with
  | nil =>
      cases h
      rfl
  | cons st stmts ih =>
      obtain ⟨⟨node, env₁⟩, -, h⟩ := outcome_bind_eq_ok.mp h
      obtain ⟨⟨nodes', env₂⟩, hnodes, h⟩ := outcome_bind_eq_ok.mp h
      cases h
      rw [List.length_cons, List.length_cons, ih hnodes]

/-- A block leaves the scopes around it as they are. -/
theorem buildNodes_block {offset : Nat} {name : Bytes} {label : Option Bytes}
    {children after : List ParsedStatement}
    (h : buildNodes env (.block offset name label children :: after) = .ok (nodes, out)) :
    ∃ inner inside behind, buildNodes ([] :: env) children = .ok (inside, inner) ∧
      buildNodes env after = .ok (behind, out) ∧ nodes = .block name label inside :: behind := by
  obtain ⟨⟨node, env₁⟩, hnode, h⟩ := outcome_bind_eq_ok.mp h
  obtain ⟨⟨inside, inner⟩, hinside, hnode⟩ := outcome_bind_eq_ok.mp hnode
  cases hnode
  obtain ⟨⟨behind, env₂⟩, hbehind, h⟩ := outcome_bind_eq_ok.mp h
  cases h
  exact ⟨inner, inside, behind, hinside, hbehind, rfl⟩

/-- A binding stays until the name is bound again. -/
theorem lookup_buildNodes {name : Bytes} {value : Value} (h : buildNodes env stmts = .ok (nodes, out))
    (hunbound : Unbound name stmts) (hname : env.lookup name = some value) :
    out.lookup name = some value := by
  induction stmts generalizing env nodes with
  | nil =>
      cases h
      exact hname
  | cons st stmts ih =>
      obtain ⟨⟨node, env₁⟩, hnode, h⟩ := outcome_bind_eq_ok.mp h
      obtain ⟨⟨nodes', env₂⟩, hnodes, h⟩ := outcome_bind_eq_ok.mp h
      cases h
      obtain ⟨hst, hstmts⟩ := List.forall_mem_cons.mp hunbound
      refine ih hnodes hstmts ?_
      cases st with
      | assignment offset path expr =>
          obtain ⟨v, -, hnode⟩ := outcome_bind_eq_ok.mp hnode
          cases hnode
          split
          · next other hother =>
            have hne : other ≠ name := fun heq => hst (heq ▸ hother)
            rw [lookup_define, if_neg hne]
            exact hname
          · exact hname
      | block offset blockName label children =>
          obtain ⟨⟨inside, inner⟩, -, hnode⟩ := outcome_bind_eq_ok.mp hnode
          cases hnode
          exact hname
      | «include» offset path =>
          cases hnode
          exact hname

end Build

/-! ### Building around a block -/

/-- What is built around the innermost block, and the scopes it is entered with. -/
def buildFrames (env : Environment) :
    List (Frame ParsedStatement) → Outcome (List (Frame Node) × Environment)
  | [] => return ([], env)
  | f :: frames => do
    let (before, env) ← buildNodes env f.before
    let (nodeFrames, inner) ← buildFrames ([] :: env) frames
    let (after, _) ← buildNodes env f.after
    return ({ before, name := f.name, label := f.label, after } :: nodeFrames, inner)

section Frames

variable {env inner out : Environment} {frames : List (Frame ParsedStatement)}
  {nodeFrames : List (Frame Node)} {children : List ParsedStatement} {nodes : List Node}

/-- What is around a block is built without it. -/
theorem buildNodes_plug (h : buildNodes env (plugStatements frames children) = .ok (nodes, out)) :
    ∃ nodeFrames inner inside env', buildFrames env frames = .ok (nodeFrames, inner) ∧
      buildNodes inner children = .ok (inside, env') ∧ nodes = plugNodes nodeFrames inside := by
  induction frames generalizing env nodes out with
  | nil => exact ⟨[], env, nodes, out, rfl, h, rfl⟩
  | cons f frames ih =>
      rw [plugStatements, plug] at h
      obtain ⟨before, rest, env₁, hbefore, hrest, rfl⟩ := buildNodes_append_ok h
      obtain ⟨env₂, inside, after, hinside, hafter, rfl⟩ := buildNodes_block hrest
      obtain ⟨nodeFrames, inner, innermost, env', hframes, hchildren, rfl⟩ := ih hinside
      refine ⟨{ before, name := f.name, label := f.label, after } :: nodeFrames, inner, innermost, env',
        ?_, hchildren, rfl⟩
      simp only [buildFrames, hbefore, hframes, hafter, bind, Except.bind]
      rfl

theorem buildFrames_matches (h : buildFrames env frames = .ok (nodeFrames, inner)) :
    List.Forall₂ Frame.Matches frames nodeFrames := by
  induction frames generalizing env nodeFrames with
  | nil =>
      cases h
      exact .nil
  | cons f frames ih =>
      obtain ⟨⟨before, env₁⟩, hbefore, h⟩ := outcome_bind_eq_ok.mp h
      obtain ⟨⟨rest, inner'⟩, hrest, h⟩ := outcome_bind_eq_ok.mp h
      obtain ⟨⟨after, env₂⟩, hafter, h⟩ := outcome_bind_eq_ok.mp h
      cases h
      exact .cons ⟨length_buildNodes hbefore, rfl, rfl, length_buildNodes hafter⟩ (ih hrest)

/-- A name reaches a nested block unless it is bound again on the way there. -/
theorem lookup_buildFrames {name : Bytes} {value : Value}
    (h : buildFrames env frames = .ok (nodeFrames, inner))
    (hunbound : ∀ f ∈ frames, Unbound name f.before) (hname : env.lookup name = some value) :
    inner.lookup name = some value := by
  induction frames generalizing env nodeFrames with
  | nil =>
      cases h
      exact hname
  | cons f frames ih =>
      obtain ⟨⟨before, env₁⟩, hbefore, h⟩ := outcome_bind_eq_ok.mp h
      obtain ⟨⟨rest, inner'⟩, hrest, h⟩ := outcome_bind_eq_ok.mp h
      obtain ⟨⟨after, env₂⟩, -, h⟩ := outcome_bind_eq_ok.mp h
      cases h
      obtain ⟨hf, hframes⟩ := List.forall_mem_cons.mp hunbound
      have hbehind := lookup_buildNodes hbefore hf hname
      exact ih hrest hframes hbehind

end Frames

/-! ### Accepted sources -/

/-- The nodes of an accepted source, off its statements without their offsets. -/
theorem parse_erased {data : Bytes} {doc : Document} {stmts : List ParsedStatement}
    (h : parse data = .ok doc) (hstmts : parseSource data = .ok stmts) :
    ∃ env, buildNodes [[]] (eraseStatements stmts) = .ok (doc.nodes, env) := by
  obtain ⟨stmts', env, hsource, hbuild⟩ := parse_eq_ok h
  rw [hstmts] at hsource
  cases hsource
  exact ⟨env, (buildNodes_erase [[]] stmts _).mpr hbuild⟩

/-- Behind a binding its name has the value bound, in the statements of the same block and in those of
nested blocks, up to where the name is bound again. -/
theorem binding_visible {env out : Environment} {pre mid rest : List ParsedStatement}
    {path : List Bytes} {name : Bytes} {expr : Expr} {frames : List (Frame ParsedStatement)}
    {nodes : List Node} (hname : path.getLast? = some name)
    (hframes : ∀ f ∈ frames, Unbound name f.before) (hmid : Unbound name mid)
    (h : buildNodes env (pre ++ .assignment 0 path expr :: plugStatements frames (mid ++ rest)) =
      .ok (nodes, out)) :
    ∃ value before nodeFrames between inner behind env', env'.lookup name = some value ∧
      buildNodes env' rest = .ok (behind, inner) ∧ before.length = pre.length ∧
      List.Forall₂ Frame.Matches frames nodeFrames ∧ between.length = mid.length ∧
      nodes = before ++ .assignment path value :: plugNodes nodeFrames (between ++ behind) := by
  obtain ⟨before, tail, env₁, hbefore, htail, rfl⟩ := buildNodes_append_ok h
  obtain ⟨⟨node, env₂⟩, hnode, htail⟩ := outcome_bind_eq_ok.mp htail
  obtain ⟨⟨nodes', env₃⟩, hnodes, htail⟩ := outcome_bind_eq_ok.mp htail
  cases htail
  obtain ⟨value, -, hnode⟩ := outcome_bind_eq_ok.mp hnode
  cases hnode
  rw [hname] at hnodes
  obtain ⟨nodeFrames, inner, inside, env₄, hbuilt, hinside, rfl⟩ := buildNodes_plug hnodes
  obtain ⟨between, behind, env', hbetween, hbehind, rfl⟩ := buildNodes_append_ok hinside
  have hbound : (env₁.define name value).lookup name = some value := by
    rw [lookup_define, if_pos rfl]
  have hinner := lookup_buildFrames hbuilt hframes hbound
  exact ⟨value, before, nodeFrames, between, env₄, behind, env', lookup_buildNodes hbetween hmid hinner,
    hbehind, length_buildNodes hbefore, buildFrames_matches hbuilt, length_buildNodes hbetween, rfl⟩

/-- Exchange the statements of one block, at any depth: all nodes outside it stay as they are. What is
bound inside the block is seen inside it only, from there on. -/
theorem block_scoping {data data' : Bytes} {doc doc' : Document} {stmts stmts' : List ParsedStatement}
    {frames : List (Frame ParsedStatement)} {children children' : List ParsedStatement}
    (h : parse data = .ok doc) (hstmts : parseSource data = .ok stmts)
    (hplace : eraseStatements stmts = plugStatements frames children)
    (h' : parse data' = .ok doc') (hstmts' : parseSource data' = .ok stmts')
    (hplace' : eraseStatements stmts' = plugStatements frames children') :
    ∃ nodeFrames inside inside', List.Forall₂ Frame.Matches frames nodeFrames ∧
      doc.nodes = plugNodes nodeFrames inside ∧ doc'.nodes = plugNodes nodeFrames inside' ∧
      ∀ pre path name expr nested mid rest,
        children = pre ++ .assignment 0 path expr :: plugStatements nested (mid ++ rest) →
        path.getLast? = some name → (∀ f ∈ nested, Unbound name f.before) → Unbound name mid →
        ∃ value before nestedNodes between inner behind env, env.lookup name = some value ∧
          buildNodes env rest = .ok (behind, inner) ∧ before.length = pre.length ∧
          List.Forall₂ Frame.Matches nested nestedNodes ∧ between.length = mid.length ∧
          inside = before ++ .assignment path value :: plugNodes nestedNodes (between ++ behind) := by
  obtain ⟨env, hbuild⟩ := parse_erased h hstmts
  obtain ⟨env', hbuild'⟩ := parse_erased h' hstmts'
  rw [hplace] at hbuild
  rw [hplace'] at hbuild'
  obtain ⟨nodeFrames, inner, inside, out, hframes, hinside, hnodes⟩ := buildNodes_plug hbuild
  obtain ⟨nodeFrames', inner', inside', out', hframes', -, hnodes'⟩ := buildNodes_plug hbuild'
  rw [hframes] at hframes'
  cases hframes'
  refine ⟨nodeFrames, inside, inside', buildFrames_matches hframes, hnodes, hnodes', ?_⟩
  rintro pre path name expr nested mid rest rfl hname hnested hmid
  exact binding_visible hname hnested hmid hinside

/-- A name that a block binds again, and the same without the block's statement. -/
def shadowed : Bytes := ascii "x=1;b\x7bx=2;\x7dy=x;"

def unshadowed : Bytes := ascii "x=1;b\x7b\x7dy=x;"

/-- What is around the block of both. -/
def aroundShadow : Frame ParsedStatement where
  before := [.assignment 0 [ascii "x"] (.int 0 1)]
  name := ascii "b"
  label := none
  after := [.assignment 0 [ascii "y"] (.ident 0 (ascii "x"))]

def isShadowed : Outcome (List ParsedStatement) → Bool
  | .ok [.assignment _ path (.int _ i), .block _ name none [.assignment _ inner (.int _ j)],
      .assignment _ last (.ident _ x)] =>
    path = [ascii "x"] ∧ i = 1 ∧ name = ascii "b" ∧ inner = [ascii "x"] ∧ j = 2 ∧ last = [ascii "y"] ∧
      x = ascii "x"
  | _ => false

def isUnshadowed : Outcome (List ParsedStatement) → Bool
  | .ok [.assignment _ path (.int _ i), .block _ name none [], .assignment _ last (.ident _ x)] =>
    path = [ascii "x"] ∧ i = 1 ∧ name = ascii "b" ∧ last = [ascii "y"] ∧ x = ascii "x"
  | _ => false

theorem parseSource_shadowed : ∃ stmts, parseSource shadowed = .ok stmts ∧
    eraseStatements stmts = plugStatements [aroundShadow] [.assignment 0 [ascii "x"] (.int 0 2)] := by
  have hrun : isShadowed (parseSource shadowed) = true := by decide +kernel
  unfold isShadowed at hrun
  split at hrun
  · next hparse =>
    obtain ⟨rfl, rfl, rfl, rfl, rfl, rfl, rfl⟩ := of_decide_eq_true hrun
    exact ⟨_, hparse, rfl⟩
  · cases hrun

theorem parseSource_unshadowed : ∃ stmts, parseSource unshadowed = .ok stmts ∧
    eraseStatements stmts = plugStatements [aroundShadow] [] := by
  have hrun : isUnshadowed (parseSource unshadowed) = true := by decide +kernel
  unfold isUnshadowed at hrun
  split at hrun
  · next hparse =>
    obtain ⟨rfl, rfl, rfl, rfl, rfl⟩ := of_decide_eq_true hrun
    exact ⟨_, hparse, rfl⟩
  · cases hrun

theorem block_scoping_shadowed : ∃ doc doc' nodeFrames inside inside',
    parse shadowed = .ok doc ∧ parse unshadowed = .ok doc' ∧
      doc.nodes = plugNodes nodeFrames inside ∧ doc'.nodes = plugNodes nodeFrames inside' := by
  obtain ⟨stmts, hstmts, hplace⟩ := parseSource_shadowed
  obtain ⟨stmts', hstmts', hplace'⟩ := parseSource_unshadowed
  have hok : (parse shadowed).isOk = true := by decide +kernel
  have hok' : (parse unshadowed).isOk = true := by decide +kernel
  cases h : parse shadowed with
  | error e =>
      rw [h] at hok
      cases hok
  | ok doc =>
      cases h' : parse unshadowed with
      | error e =>
          rw [h'] at hok'
          cases hok'
      | ok doc' =>
          obtain ⟨nodeFrames, inside, inside', -, hnodes, hnodes', -⟩ :=
            block_scoping h hstmts hplace h' hstmts' hplace'
          exact ⟨doc, doc', nodeFrames, inside, inside', rfl, rfl, hnodes, hnodes'⟩

end Bytewright.Cfgscript
