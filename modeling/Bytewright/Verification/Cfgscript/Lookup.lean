import Bytewright.Verification.Cfgscript.Places

/-! # Querying flattened paths

A walk finds what stands at its steps, if no block it prefers and no assignment it reaches first
settles it elsewhere. -/

namespace Bytewright.Cfgscript

open Bytewright.Common Bytewright.Library

/-! ### What a walk finds stands there -/

section Walks

variable {w : Value} {nodes : List Node}

theorem walkValue_sound {steps : List Step} :
    ∀ {v : Value}, walkValue v steps = some w →
      ∃ parts, steps = parts.map Part.step ∧ Stands v parts w := by
  induction steps with
  | nil =>
      intro v h
      cases h
      exact ⟨[], rfl, .here w⟩
  | cons step steps ih =>
      intro v h
      cases step with
      | index i =>
          cases v with
          | array vs =>
              rw [walkValue] at h
              split at h
              · next x hx =>
                obtain ⟨parts, rfl, hw⟩ := ih h
                exact ⟨.element i.toNat :: parts, by simp [Part.step], .element hx hw⟩
              · cases h
          | _ => cases h
      | name name =>
          cases v with
          | object fields =>
              rw [walkValue] at h
              split at h
              · next x hx =>
                obtain ⟨parts, rfl, hw⟩ := ih h
                obtain ⟨before, after, rfl, -⟩ := List.lookup_eq_some_iff.mp hx
                exact ⟨.member name :: parts, rfl, .member (by simp) hw⟩
              · cases h
          | _ => cases h

theorem matchAssignmentPath_eq_some {path : List Bytes} :
    ∀ {steps rest : List Step}, matchAssignmentPath path steps = some rest ↔
      steps = path.map Step.name ++ rest := by
  induction path with
  | nil =>
      intro steps rest
      simp [matchAssignmentPath]
  | cons part path ih =>
      intro steps rest
      cases steps with
      | nil => simp [matchAssignmentPath]
      | cons step steps =>
          cases step with
          | index i => simp [matchAssignmentPath]
          | name name =>
              rw [matchAssignmentPath]
              by_cases h : name = part
              · simp [h, ih]
              · simp [h]

theorem walkAssignments_sound {steps : List Step} (h : walkAssignments steps nodes = some w) :
    ∃ names parts, steps = placeSteps names parts ∧ Holds nodes names parts w := by
  induction nodes with
  | nil => cases h
  | cons node nodes ih =>
      have hskip : walkAssignments steps nodes = some w →
          ∃ names parts, steps = placeSteps names parts ∧ Holds (node :: nodes) names parts w := by
        intro h
        obtain ⟨names, parts, hsteps, hw⟩ := ih h
        exact ⟨names, parts, hsteps, hw.mono (List.subset_cons_self _ _)⟩
      cases node with
      | assignment path v =>
          rw [walkAssignments] at h
          split at h
          · exact hskip h
          · split at h
            · next rest hrest =>
              obtain ⟨parts, rfl, hw⟩ := walkValue_sound h
              exact ⟨path, parts, matchAssignmentPath_eq_some.mp hrest,
                .assignment List.mem_cons_self hw⟩
            · exact hskip h
      | block name label children => exact hskip h
      | «include» file => exact hskip h

theorem walkBlock_eq (name : Bytes) (steps : List Step) (label : Option Bytes)
    (children : List Node) :
    walkBlock name steps (.block name label children) = walkNodes steps children := by
  cases steps with
  | nil => simp [walkBlock, walkNodes]
  | cons step steps => cases step <;> simp [walkBlock, walkNodes]

theorem walkBlock_ne {name blockName : Bytes} (h : blockName ≠ name) (steps : List Step)
    (label : Option Bytes) (children : List Node) :
    walkBlock name steps (.block blockName label children) = none := by
  simp [walkBlock, h]

theorem walkNodes_eq_some {steps : List Step} (h : walkNodes steps nodes = some w) :
    (∃ name rest, steps = .name name :: rest ∧ walkBlocks name rest nodes = some w) ∨
      walkAssignments steps nodes = some w := by
  cases steps with
  | nil => cases h
  | cons step rest =>
      cases step with
      | index i => cases h
      | name name =>
          rw [walkNodes] at h
          split at h
          · next hblocks =>
            cases h
            exact .inl ⟨name, rest, rfl, hblocks⟩
          · exact .inr h

mutual

theorem walkBlock_sound {name : Bytes} {steps : List Step} :
    ∀ node : Node, walkBlock name steps node = some w →
      ∃ names parts, .name name :: steps = placeSteps names parts ∧ Holds [node] names parts w
  | .assignment path v, h => by simp [walkBlock] at h
  | .include file, h => by simp [walkBlock] at h
  | .block blockName label children, h => by
      by_cases hname : blockName = name
      · subst hname
        rw [walkBlock_eq] at h
        have hchildren : ∃ names parts, steps = placeSteps names parts ∧
            Holds children names parts w := by
          obtain ⟨name', rest, rfl, hblocks⟩ | hassignments := walkNodes_eq_some h
          · exact walkBlocks_sound children hblocks
          · exact walkAssignments_sound hassignments
        obtain ⟨names, parts, hsteps, hw⟩ := hchildren
        exact ⟨blockName :: names, parts, by rw [hsteps]; rfl, .block List.mem_cons_self hw⟩
      · rw [walkBlock_ne hname] at h
        cases h

theorem walkBlocks_sound {name : Bytes} {steps : List Step} :
    ∀ nodes : List Node, walkBlocks name steps nodes = some w →
      ∃ names parts, .name name :: steps = placeSteps names parts ∧ Holds nodes names parts w
  | node :: nodes, h => by
      rw [walkBlocks] at h
      split at h
      · next hnode =>
        cases h
        obtain ⟨names, parts, hsteps, hw⟩ := walkBlock_sound node hnode
        exact ⟨names, parts, hsteps, hw.mono (by simp)⟩
      · obtain ⟨names, parts, hsteps, hw⟩ := walkBlocks_sound nodes h
        exact ⟨names, parts, hsteps, hw.mono (List.subset_cons_self _ _)⟩

end

end Walks

/-! ### Values that can be walked -/

/-- No object inside repeats a key, and the size of every array is a `std::size_t`. -/
structure Value.Addressable (v : Value) : Prop where
  keys : ∀ parts fields, Stands v parts (.object fields) → (fields.map Prod.fst).Nodup
  sizes : ∀ parts vs, Stands v parts (.array vs) → vs.length < 2 ^ 64

theorem addressable_scalar {v : Value} (hv : v.isScalar = true) : v.Addressable := by
  constructor
  · intro parts fields h
    obtain ⟨-, rfl⟩ := (stands_scalar hv).mp h
    cases hv
  · intro parts vs h
    obtain ⟨-, rfl⟩ := (stands_scalar hv).mp h
    cases hv

theorem addressable_array {vs : List Value} (hsize : vs.length < 2 ^ 64)
    (hvs : ∀ v ∈ vs, v.Addressable) : (Value.array vs).Addressable := by
  constructor
  · intro parts fields h
    cases h with
    | element hx hw => exact (hvs _ (List.mem_of_getElem? hx)).keys _ _ hw
  · intro parts ws h
    cases h with
    | here => exact hsize
    | element hx hw => exact (hvs _ (List.mem_of_getElem? hx)).sizes _ _ hw

theorem addressable_object {fields : List (Bytes × Value)} (hkeys : (fields.map Prod.fst).Nodup)
    (hfields : ∀ field ∈ fields, field.2.Addressable) : (Value.object fields).Addressable := by
  constructor
  · intro parts inner h
    cases h with
    | here => exact hkeys
    | member hx hw => exact (hfields _ hx).keys _ _ hw
  · intro parts vs h
    cases h with
    | member hx hw => exact (hfields _ hx).sizes _ _ hw

theorem lookup_of_mem {fields : List (Bytes × Value)} {key : Bytes} {v : Value}
    (h : (fields.map Prod.fst).Nodup) (hmem : (key, v) ∈ fields) : fields.lookup key = some v := by
  obtain ⟨before, after, rfl⟩ := List.append_of_mem hmem
  rw [List.map_append, List.nodup_append] at h
  refine List.lookup_eq_some_iff.mpr ⟨before, after, rfl, fun entry hentry => ?_⟩
  have hne : entry.1 ≠ key :=
    h.2.2 entry.1 (List.mem_map_of_mem hentry) key (by simp)
  simpa using hne.symm

theorem Value.Addressable.element {vs : List Value} {k : Nat} {v : Value}
    (h : (Value.array vs).Addressable) (hv : vs[k]? = some v) : k < 2 ^ 64 ∧ v.Addressable :=
  ⟨Nat.lt_trans (List.getElem?_eq_some_iff.mp hv).1 (h.sizes [] vs (.here _)),
    fun _ _ hw => h.keys _ _ (.element hv hw), fun _ _ hw => h.sizes _ _ (.element hv hw)⟩

theorem Value.Addressable.member {fields : List (Bytes × Value)} {key : Bytes} {v : Value}
    (h : (Value.object fields).Addressable) (hv : (key, v) ∈ fields) :
    fields.lookup key = some v ∧ v.Addressable :=
  ⟨lookup_of_mem (h.keys [] fields (.here _)) hv,
    fun _ _ hw => h.keys _ _ (.member hv hw), fun _ _ hw => h.sizes _ _ (.member hv hw)⟩

theorem Stands.indices {v w : Value} {parts : List Part} (h : Stands v parts w)
    (hv : v.Addressable) : ∀ k, .element k ∈ parts → k < 2 ^ 64 := by
  induction h with
  | here => nofun
  | element hx _ ih =>
      obtain ⟨hk, hinner⟩ := hv.element hx
      intro k' hk'
      cases hk' with
      | head => exact hk
      | tail _ hk' => exact ih hinner k' hk'
  | member hx _ ih =>
      intro k' hk'
      cases hk' with
      | tail _ hk' => exact ih (hv.member hx).2 k' hk'

theorem Holds.proper {nodes : List Node} {names : List Bytes} {parts : List Part} {w : Value}
    (h : Holds nodes names parts w) :
    ∀ {room : Nat}, NodesWellFormed room nodes → AllNodes Value.Addressable nodes →
      ProperPlace names parts := by
  induction h with
  | assignment hmem hv =>
      intro room hwf hvalues
      obtain ⟨-, hne, hnames, hkeyed⟩ := hwf.mem hmem
      exact ⟨hne, hnames, hv.keys hkeyed, hv.indices (hvalues.mem hmem)⟩
  | block hmem _ ih =>
      intro room hwf hvalues
      obtain ⟨-, hname, hchildren⟩ := hwf.mem hmem
      have hinner := ih hchildren (hvalues.mem hmem)
      exact ⟨List.cons_ne_nil _ _, List.forall_mem_cons.mpr ⟨hname, hinner.names⟩,
        hinner.keys, hinner.indices⟩

theorem walkValue_complete {v w : Value} {parts : List Part} (h : Stands v parts w)
    (hv : v.Addressable) : walkValue v (parts.map Part.step) = some w := by
  induction h with
  | here => rfl
  | element hx _ ih =>
      obtain ⟨hk, hinner⟩ := hv.element hx
      rw [List.map_cons, Part.step, walkValue]
      simp [UInt64.toNat_ofNat_of_lt' hk, hx, ih hinner]
  | member hx _ ih =>
      obtain ⟨hlookup, hinner⟩ := hv.member hx
      rw [List.map_cons, Part.step, walkValue]
      simp [member?, hlookup, ih hinner]

/-! ### Nodes that can be walked -/

/-- The node settles a walk of the steps: something stands there in a block, or they begin with the
path of an assignment. -/
def Node.Settles : Node → List Step → Prop
  | .assignment path _, steps => path.map Step.name <+: steps
  | .block name label children, steps =>
      ∃ names parts v, steps = placeSteps names parts ∧ Holds [.block name label children] names parts v
  | .include _, _ => False

theorem Node.Settles.head {name : Bytes} {label : Option Bytes} {children : List Node} {steps : List Step}
    (h : (Node.block name label children).Settles steps) : steps.head? = some (.name name) := by
  obtain ⟨names, parts, v, rfl, hv⟩ := h
  cases hv with
  | assignment hmem => cases List.mem_singleton.mp hmem
  | block hmem =>
      cases List.mem_singleton.mp hmem
      rfl

def Node.isBlock : Node → Bool
  | .block _ _ _ => true
  | _ => false

/-- None of the nodes is a block that settles the walk. -/
def BlocksPass (nodes : List Node) (steps : List Step) : Prop :=
  ∀ node ∈ nodes, node.isBlock = true → ¬ node.Settles steps

/-- None of the nodes is an assignment that settles the walk. -/
def AssignmentsPass (nodes : List Node) (steps : List Step) : Prop :=
  ∀ node ∈ nodes, node.isBlock = false → ¬ node.Settles steps

/-- `w` stands at the place, and the walk to it is settled by nothing else. In every list of nodes it tries
the blocks first, and of the same kind the nodes in order. -/
inductive Unobstructed : List Node → List Bytes → List Part → Value → Prop
  | assignment {before after : List Node} {path : List Bytes} {v w : Value} {parts : List Part}
      (hv : Stands v parts w) (hblocks : BlocksPass (before ++ after) (placeSteps path parts))
      (hbefore : AssignmentsPass before (placeSteps path parts)) :
      Unobstructed (before ++ .assignment path v :: after) path parts w
  | block {before after children : List Node} {name : Bytes} {label : Option Bytes} {names : List Bytes}
      {w : Value} {parts : List Part} (hw : Unobstructed children names parts w)
      (hbefore : BlocksPass before (placeSteps (name :: names) parts)) :
      Unobstructed (before ++ .block name label children :: after) (name :: names) parts w

theorem Unobstructed.holds {nodes : List Node} {names : List Bytes} {parts : List Part} {w : Value}
    (h : Unobstructed nodes names parts w) : Holds nodes names parts w := by
  induction h with
  | assignment hv => exact .assignment (List.mem_append_right _ List.mem_cons_self) hv
  | block _ _ ih => exact .block (List.mem_append_right _ List.mem_cons_self) ih

/-! ### What stands there is found -/

theorem walkBlocks_eq (name : Bytes) (steps : List Step) (nodes : List Node) :
    walkBlocks name steps nodes = nodes.findSome? (walkBlock name steps) := by
  induction nodes with
  | nil => rfl
  | cons node nodes ih =>
      rw [walkBlocks, List.findSome?_cons, ih]
      cases walkBlock name steps node <;> rfl

/-- What the walk makes of an assignment. Whatever its value holds there settles it. -/
def walkAssignment (steps : List Step) : Node → Option (Option Value)
  | .assignment path v => if path = [] then none else (matchAssignmentPath path steps).map (walkValue v)
  | _ => none

theorem walkAssignments_eq (steps : List Step) (nodes : List Node) :
    walkAssignments steps nodes = (nodes.findSome? (walkAssignment steps)).join := by
  induction nodes with
  | nil => rfl
  | cons node nodes ih =>
      cases node with
      | assignment path v =>
          rw [walkAssignments, List.findSome?_cons, walkAssignment, ih]
          split
          · rfl
          · cases matchAssignmentPath path steps <;> rfl
      | block name label children => exact ih
      | «include» file => exact ih

theorem walkBlock_none {name : Bytes} {steps : List Step} {node : Node}
    (h : ¬ node.Settles (.name name :: steps)) : walkBlock name steps node = none := by
  refine Option.eq_none_iff_forall_ne_some.mpr fun v hv => ?_
  obtain ⟨names, parts, hsteps, hw⟩ := walkBlock_sound node hv
  cases node with
  | block blockName label children => exact h ⟨names, parts, v, hsteps, hw⟩
  | assignment | «include» => simp [walkBlock] at hv

theorem walkAssignment_none {steps : List Step} {node : Node} (h : ¬ node.Settles steps) :
    walkAssignment steps node = none := by
  cases node with
  | block | «include» => rfl
  | assignment path v =>
      have hmatch : matchAssignmentPath path steps = none :=
        Option.eq_none_iff_forall_ne_some.mpr fun rest hrest =>
          h ⟨rest, (matchAssignmentPath_eq_some.mp hrest).symm⟩
      simp [walkAssignment, hmatch]

theorem walkBlocks_none {name : Bytes} {steps : List Step} {nodes : List Node}
    (h : BlocksPass nodes (.name name :: steps)) : walkBlocks name steps nodes = none := by
  rw [walkBlocks_eq]
  refine List.findSome?_eq_none_iff.mpr fun node hnode => ?_
  cases node with
  | assignment | «include» => simp [walkBlock]
  | block => exact walkBlock_none (h _ hnode rfl)

theorem walkAssignments_none {steps : List Step} {nodes : List Node} (h : AssignmentsPass nodes steps) :
    nodes.findSome? (walkAssignment steps) = none := by
  refine List.findSome?_eq_none_iff.mpr fun node hnode => ?_
  cases node with
  | block | «include» => rfl
  | assignment => exact walkAssignment_none (h _ hnode rfl)

section

variable {before after children : List Node} {path : List Bytes} {v w : Value}

/-- The value of an assignment that no other assignment settles is walked. -/
theorem walkAssignments_complete {parts : List Part} (hpath : path ≠ []) (hvalue : v.Addressable)
    (hv : Stands v parts w) (hbefore : AssignmentsPass before (placeSteps path parts)) :
    walkAssignments (placeSteps path parts) (before ++ .assignment path v :: after) = some w := by
  have hmatch : matchAssignmentPath path (placeSteps path parts) = some (parts.map Part.step) :=
    matchAssignmentPath_eq_some.mpr rfl
  have hhere : walkAssignment (placeSteps path parts) (.assignment path v) = some (some w) := by
    simp [walkAssignment, hpath, hmatch, walkValue_complete hv hvalue]
  rw [walkAssignments_eq, List.findSome?_append, walkAssignments_none hbefore, Option.none_or,
    List.findSome?_cons, hhere]
  rfl

/-- What is found in a block is found, if none before it settles the walk. -/
theorem walkBlocks_complete {name : Bytes} {steps : List Step} {label : Option Bytes}
    (hbefore : BlocksPass before (.name name :: steps)) (hfound : walkNodes steps children = some w) :
    walkBlocks name steps (before ++ .block name label children :: after) = some w := by
  rw [walkBlocks_eq, List.findSome?_append, ← walkBlocks_eq, walkBlocks_none hbefore, Option.none_or,
    List.findSome?_cons, walkBlock_eq, hfound]

theorem BlocksPass.assignment {steps : List Step} (h : BlocksPass (before ++ after) steps) :
    BlocksPass (before ++ .assignment path v :: after) steps := by
  intro node hnode hblock
  have hother : node ≠ .assignment path v := by
    intro heq
    rw [heq] at hblock
    cases hblock
  exact h node (by simpa [hother] using hnode) hblock

end

theorem placeSteps_cons (name : Bytes) (names : List Bytes) (parts : List Part) :
    placeSteps (name :: names) parts = .name name :: placeSteps names parts := rfl

/-- What nothing obstructs is found. -/
theorem walkNodes_complete {names : List Bytes} {parts : List Part} {w : Value} {nodes : List Node}
    (h : Unobstructed nodes names parts w) :
    ∀ {room : Nat}, NodesWellFormed room nodes → AllNodes Value.Addressable nodes →
      walkNodes (placeSteps names parts) nodes = some w := by
  induction h with
  | @assignment before after path v w parts hv hblocks hbefore =>
      intro room hwf hvalues
      have hmem : Node.assignment path v ∈ before ++ .assignment path v :: after := by simp
      obtain ⟨-, hne, -⟩ := hwf.mem hmem
      have hassignments := @walkAssignments_complete _ after _ _ _ _ hne (hvalues.mem hmem) hv hbefore
      have hpass : BlocksPass (before ++ .assignment path v :: after) (placeSteps path parts) :=
        hblocks.assignment
      obtain ⟨name, names, rfl⟩ := List.exists_cons_of_ne_nil hne
      rw [placeSteps_cons] at hassignments hpass ⊢
      rw [walkNodes, walkBlocks_none hpass]
      exact hassignments
  | @block before after children name label names w parts _ hbefore ih =>
      intro room hwf hvalues
      have hmem : Node.block name label children ∈ before ++ .block name label children :: after := by simp
      have hchildren := ih (hwf.mem hmem).2.2 (hvalues.mem hmem)
      rw [placeSteps_cons] at hbefore ⊢
      rw [walkNodes, walkBlocks_complete hbefore hchildren]

/-! ### Queries -/

/-- The entry is that of a leaf of the document. -/
structure FlatEntry.Records (e : FlatEntry) (doc : Document) (names : List Bytes) (parts : List Part)
    (w : Value) : Prop where
  holds : Holds doc.nodes names parts w
  leaf : w.isLeaf = true
  path : e.path = placeText [] names parts
  value : e.value = renderScalar w

/-- Every entry of a document without labels and includes is that of a leaf, and if nothing obstructs the
walk to the leaf, the query for the path of the entry finds it. -/
theorem query_flatten {data : Bytes} {doc : Document} (h : parse data = .ok doc)
    (hplain : NodesPlain doc.nodes) (hvalues : AllNodes Value.Addressable doc.nodes) :
    ∀ e ∈ flatten doc, (∃ names parts w, e.Records doc names parts w) ∧
      ∀ names parts w, e.Records doc names parts w → Unobstructed doc.nodes names parts w →
        ∃ v, query doc e.path = some v ∧ renderScalar v = e.value := by
  intro e he
  constructor
  · obtain ⟨names, parts, w, hw, hleaf, rfl⟩ := (mem_flattenNodes doc.nodes hplain).mp he
    exact ⟨names, parts, w, hw, hleaf, rfl, rfl⟩
  · intro names parts w hrecords hclear
    have hwf := parse_wellFormed h
    refine ⟨w, ?_, hrecords.value.symm⟩
    rw [hrecords.path, query, tokenize_place (hrecords.holds.proper hwf hvalues)]
    exact walkNodes_complete hclear hwf hvalues

/-- A block with an array, and an object. -/
def mixed : Bytes := ascii "a\x7bb=[true];\x7dc=\x7bd=null;\x7d;"

def mixedDocument : Document where
  nodes := [.block (ascii "a") none [.assignment [ascii "b"] (.array [.bool true])],
    .assignment [ascii "c"] (.object [(ascii "d", .null)])]

def isMixed : Outcome Document → Bool
  | .ok { nodes := [.block a none [.assignment [b] (.array [.bool true])],
      .assignment [c] (.object [(d, .null)])] } =>
    a = ascii "a" ∧ b = ascii "b" ∧ c = ascii "c" ∧ d = ascii "d"
  | _ => false

theorem parse_mixed : parse mixed = .ok mixedDocument := by
  have hrun : isMixed (parse mixed) = true := by decide +kernel
  unfold isMixed at hrun
  split at hrun
  · next heq =>
    obtain ⟨rfl, rfl, rfl, rfl⟩ := of_decide_eq_true hrun
    exact heq
  · cases hrun

theorem query_flatten_mixed :
    (∃ v, query mixedDocument (ascii "a.b[0]") = some v ∧ renderScalar v = ascii "true") ∧
      ∃ v, query mixedDocument (ascii "c.d") = some v ∧ renderScalar v = ascii "null" := by
  have hvalues : AllNodes Value.Addressable mixedDocument.nodes :=
    ⟨⟨addressable_array (by decide) (by simpa using addressable_scalar rfl), trivial⟩,
      addressable_object (by decide) (by simpa using addressable_scalar rfl), trivial⟩
  have hplain : NodesPlain mixedDocument.nodes := by simp [NodesPlain, Node.Plain, mixedDocument]
  have hquery := query_flatten parse_mixed hplain hvalues
  constructor
  · -- the block is the first node, and the assignment the first one in it
    have hinner : Unobstructed [.assignment [ascii "b"] (.array [.bool true])] [ascii "b"] [.element 0]
        (.bool true) :=
      @Unobstructed.assignment [] [] _ _ _ _ (.element rfl (.here _)) nofun nofun
    have hclear : Unobstructed mixedDocument.nodes [ascii "a", ascii "b"] [.element 0] (.bool true) :=
      @Unobstructed.block [] _ _ _ _ _ _ _ hinner nofun
    exact (hquery ⟨ascii "a.b[0]", ascii "true"⟩ (by decide +kernel)).2 _ _ _
      ⟨hclear.holds, rfl, by decide +kernel, rfl⟩ hclear
  · -- nothing in the block has a path that begins with `c`
    have hpass : ∀ node ∈ mixedDocument.nodes.take 1,
        ¬ node.Settles (placeSteps [ascii "c"] [.member (ascii "d")]) := by
      intro node hnode hsettles
      cases List.mem_singleton.mp hnode
      exact absurd hsettles.head (by decide)
    have hclear : Unobstructed mixedDocument.nodes [ascii "c"] [.member (ascii "d")] .null :=
      @Unobstructed.assignment (mixedDocument.nodes.take 1) [] _ _ _ _ (.member (by simp) (.here _))
        (fun node hnode _ => hpass node hnode) fun node hnode _ => hpass node hnode
    exact (hquery ⟨ascii "c.d", ascii "null"⟩ (by decide +kernel)).2 _ _ _
      ⟨hclear.holds, rfl, by decide +kernel, rfl⟩ hclear

/-- A block that holds an object where an assignment behind it has a leaf. -/
def preferred : Bytes := ascii "a\x7bb=\x7bc=true;\x7d;\x7da.b=false;"

def preferredDocument : Document where
  nodes := [.block (ascii "a") none [.assignment [ascii "b"] (.object [(ascii "c", .bool true)])],
    .assignment [ascii "a", ascii "b"] (.bool false)]

def isPreferred : Outcome Document → Bool
  | .ok { nodes := [.block a none [.assignment [b] (.object [(c, .bool true)])],
      .assignment [a', b'] (.bool false)] } =>
    a = ascii "a" ∧ b = ascii "b" ∧ c = ascii "c" ∧ a' = ascii "a" ∧ b' = ascii "b"
  | _ => false

theorem parse_preferred : parse preferred = .ok preferredDocument := by
  have hrun : isPreferred (parse preferred) = true := by decide +kernel
  unfold isPreferred at hrun
  split at hrun
  · next heq =>
    obtain ⟨rfl, rfl, rfl, rfl, rfl⟩ := of_decide_eq_true hrun
    exact heq
  · cases hrun

/-- The paths differ, and the query for the second one returns the object in the block. -/
theorem query_preferred_block : ∃ doc e, parse preferred = .ok doc ∧ NodesPlain doc.nodes ∧
    ((flatten doc).map FlatEntry.path).Nodup ∧ e ∈ flatten doc ∧
      ∀ v, query doc e.path = some v → renderScalar v ≠ e.value := by
  refine ⟨preferredDocument, ⟨ascii "a.b", ascii "false"⟩, parse_preferred,
    by simp [preferredDocument, NodesPlain, Node.Plain], by decide, by decide, fun v hv => ?_⟩
  have hfirst : query preferredDocument (ascii "a.b") = some (.object [(ascii "c", .bool true)]) := rfl
  cases hfirst.symm.trans hv
  decide

end Bytewright.Cfgscript
