import Bytewright.Verification.Cfgscript.Lookup

/-! # Queries for elements

Where no two siblings begin with the same name, a query that finds an array finds its elements behind
an index. The digits of the index go through a word of 64 bits. -/

namespace Bytewright.Cfgscript

open Bytewright.Common Bytewright.Library

/-- The name that a query looks for at a node. -/
def Node.firstName? : Node → Option Bytes
  | .assignment path _ => path.head?
  | .block name _ _ => some name
  | .include _ => none

/-- The nodes are those of the document, or of a block in it. -/
inductive Within : List Node → List Node → Prop
  | here (nodes : List Node) : Within nodes nodes
  | block {nodes children level : List Node} {name : Bytes} {label : Option Bytes}
      (h : .block name label children ∈ nodes) (hlevel : Within children level) : Within nodes level

/-- No two siblings begin with the same name. -/
def DistinctNames (nodes : List Node) : Prop :=
  ∀ level, Within nodes level → (level.filterMap Node.firstName?).Nodup

/-! ### The one node of a name -/

theorem eq_of_nodup_filterMap {α β : Type} {f : α → Option β} {l : List α} {a b : α} {c : β}
    (h : (l.filterMap f).Nodup) (ha : a ∈ l) (hb : b ∈ l) (hfa : f a = some c) (hfb : f b = some c) :
    b = a := by
  rcases List.append_of_mem ha with ⟨before, after, rfl⟩
  rw [List.filterMap_append, List.filterMap_cons_some hfa, List.nodup_append, List.nodup_cons] at h
  rcases h with ⟨-, ⟨hafter, -⟩, hbefore⟩
  rcases List.mem_append.mp hb with hb | hb
  · exact absurd rfl (hbefore c (List.mem_filterMap.mpr ⟨b, hb, hfb⟩) c List.mem_cons_self)
  · rcases List.mem_cons.mp hb with rfl | hb
    · rfl
    · exact absurd (List.mem_filterMap.mpr ⟨b, hb, hfb⟩) hafter

theorem findSome?_of_unique {α β : Type} {f : α → Option β} {l : List α} {b : α} (hb : b ∈ l)
    (h : ∀ a ∈ l, a = b ∨ f a = none) : l.findSome? f = f b := by
  cases hfb : f b with
  | none =>
      refine List.findSome?_eq_none_iff.mpr fun a ha => ?_
      rcases h a ha with rfl | hfa
      · exact hfb
      · exact hfa
  | some c =>
      cases hfound : l.findSome? f with
      | none => cases (List.findSome?_eq_none_iff.mp hfound b hb).symm.trans hfb
      | some d =>
          rcases List.exists_of_findSome?_eq_some hfound with ⟨a, ha, hfa⟩
          rcases h a ha with rfl | hnone
          · exact hfa.symm.trans hfb
          · cases hnone.symm.trans hfa

section Walks

variable {name : Bytes} {steps : List Step} {node : Node} {nodes : List Node} {v : Value}

theorem walkBlock_eq_none (h : node.firstName? ≠ some name) : walkBlock name steps node = none := by
  cases node with
  | assignment | «include» => simp [walkBlock]
  | block blockName label children => exact walkBlock_ne (by simpa [Node.firstName?] using h) ..

theorem walkAssignment_eq_none (h : node.firstName? ≠ some name) :
    walkAssignment (.name name :: steps) node = none := by
  cases node with
  | block | «include» => rfl
  | assignment path v =>
      cases path with
      | nil => simp [walkAssignment]
      | cons part path =>
          have hne : name ≠ part := by simpa [Node.firstName?, eq_comm] using h
          simp [walkAssignment, matchAssignmentPath, hne]

/-- What a walk finds at one node. -/
theorem walkNodes_of_unique (hmem : node ∈ nodes)
    (h : ∀ other ∈ nodes, other = node ∨ other.firstName? ≠ some name) :
    walkNodes (.name name :: steps) nodes = walkNodes (.name name :: steps) [node] := by
  have hblocks := findSome?_of_unique (f := walkBlock name steps) hmem fun other hother =>
    (h other hother).imp_right walkBlock_eq_none
  have hassignments := findSome?_of_unique (f := walkAssignment (.name name :: steps)) hmem
    fun other hother => (h other hother).imp_right walkAssignment_eq_none
  simp only [walkNodes, walkBlocks_eq, walkAssignments_eq, hblocks, hassignments, List.findSome?_singleton]

/-- A walk finds nothing but behind a node of its first name. -/
theorem exists_of_walkNodes (h : walkNodes (.name name :: steps) nodes = some v) :
    ∃ node ∈ nodes, node.firstName? = some name := by
  by_contra hno
  have hblocks : walkBlocks name steps nodes = none := by
    rw [walkBlocks_eq]
    exact List.findSome?_eq_none_iff.mpr fun node hnode =>
      walkBlock_eq_none fun hname => hno ⟨node, hnode, hname⟩
  have hassignments : nodes.findSome? (walkAssignment (.name name :: steps)) = none :=
    List.findSome?_eq_none_iff.mpr fun node hnode =>
      walkAssignment_eq_none fun hname => hno ⟨node, hnode, hname⟩
  simp [walkNodes, hblocks, walkAssignments_eq, hassignments] at h

theorem walkNodes_block (name : Bytes) (steps : List Step) (label : Option Bytes)
    (children : List Node) :
    walkNodes (.name name :: steps) [.block name label children] = walkNodes steps children := by
  rw [walkNodes, walkBlocks_eq, List.findSome?_singleton, walkBlock_eq]
  cases walkNodes steps children <;> rfl

theorem walkNodes_assignment (name : Bytes) (steps : List Step) (path : List Bytes) (v : Value) :
    walkNodes (.name name :: steps) [.assignment (name :: path) v] =
      (matchAssignmentPath path steps).bind (walkValue v) := by
  simp only [walkNodes, walkBlocks, walkBlock, walkAssignments, matchAssignmentPath]
  cases matchAssignmentPath path steps <;> rfl

end Walks

/-! ### Longer walks -/

theorem walkValue_append (steps more : List Step) : ∀ v : Value,
    walkValue v (steps ++ more) = (walkValue v steps).bind fun w => walkValue w more := by
  induction steps with
  | nil => exact fun v => rfl
  | cons step steps ih =>
      intro v
      cases step <;> cases v <;> simp only [List.cons_append, walkValue, Option.bind_none]
      · split <;> simp [ih]
      · split <;> simp [ih]

/-- Where a walk finds a value, longer walks go on in it. -/
theorem walkNodes_append {steps : List Step} (more : List Step) :
    ∀ {nodes : List Node} {v : Value}, DistinctNames nodes → walkNodes steps nodes = some v →
      walkNodes (steps ++ more) nodes = walkValue v more := by
  induction steps with
  | nil => nofun
  | cons step steps ih =>
      intro nodes v hdistinct h
      cases step with
      | index i => cases h
      | name name =>
          rcases exists_of_walkNodes h with ⟨node, hmem, hname⟩
          have hunique : ∀ other ∈ nodes, other = node ∨ other.firstName? ≠ some name :=
            fun other hother => (em (other.firstName? = some name)).imp_left fun hother' =>
              eq_of_nodup_filterMap (hdistinct nodes (.here nodes)) hmem hother hname hother'
          rw [walkNodes_of_unique hmem hunique] at h
          rw [List.cons_append, walkNodes_of_unique hmem hunique]
          cases node with
          | «include» file => cases hname
          | block blockName label children =>
              cases hname
              rw [walkNodes_block] at h ⊢
              exact ih (fun level hlevel => hdistinct level (.block hmem hlevel)) h
          | assignment path w =>
              cases path with
              | nil => cases hname
              | cons part path =>
                  cases hname
                  rw [walkNodes_assignment] at h ⊢
                  rcases Option.bind_eq_some_iff.mp h with ⟨rest, hrest, hv⟩
                  have hmore : matchAssignmentPath path (steps ++ more) = some (rest ++ more) := by
                    rw [matchAssignmentPath_eq_some] at hrest ⊢
                    rw [hrest, List.append_assoc]
                  rw [hmore, Option.bind_some, walkValue_append, hv, Option.bind_some]

/-! ### An index behind a path -/

theorem stops_piecesText_append {pieces : List Piece} (digits : Bytes)
    (h : Stops isNameByte (piecesText pieces)) :
    Stops isNameByte (piecesText (pieces ++ [⟨false, .index digits⟩])) := by
  have hbracket : isNameByte (ch '[') = false := by decide
  rw [piecesText, List.flatMap_append]
  cases htext : pieces.flatMap Piece.text with
  | nil => simpa [Stops, Piece.text, Segment.body] using hbracket
  | cons c text =>
      rw [piecesText, htext] at h
      exact h

theorem Pieces.append_index {pieces : List Piece} {digits : Bytes} (h : Pieces pieces)
    (hdigits : (Segment.index digits).WellFormed) : Pieces (pieces ++ [⟨false, .index digits⟩]) := by
  induction h with
  | nil => exact .cons hdigits nofun .nil
  | cons hwf hstops _ ih =>
      exact .cons hwf (fun hname => stops_piecesText_append digits (hstops hname)) ih

theorem tokenize_append_index {path digits : Bytes} {steps : List Step} (h : tokenize path = some steps)
    (hne : steps ≠ []) (hdigits : (Segment.index digits).WellFormed) :
    tokenize (path ++ (Segment.index digits).text) = some (steps ++ [.index (indexValue digits)]) := by
  rcases tokenize_eq_some_iff.mp h with ⟨pieces, ⟨hpieces, hopens⟩, rfl, rfl⟩
  refine tokenize_eq_some_iff.mpr
    ⟨pieces ++ [⟨false, .index digits⟩], ⟨hpieces.append_index hdigits, ?_⟩, ?_, ?_⟩
  · cases pieces with
    | nil => exact absurd rfl hne
    | cons p pieces => exact hopens
  · simp [piecesText, Piece.text, Segment.text, Segment.isName]
  · simp [Segment.step]

/-- A query behind a path that finds a value goes on in this value. -/
theorem query_append_index {doc : Document} {path digits : Bytes} {vs : List Value}
    (hdistinct : DistinctNames doc.nodes) (h : query doc path = some (.array vs))
    (hdigits : (Segment.index digits).WellFormed) :
    query doc (path ++ (Segment.index digits).text) = vs[decimalValue digits % 2 ^ 64]? := by
  rw [query] at h
  split at h
  · next steps hsteps =>
    have hne : steps ≠ [] := by
      rintro rfl
      cases h
    have hindex : (indexValue digits).toNat = decimalValue digits % 2 ^ 64 := by
      rw [indexValue_eq, UInt64.toNat_ofNat']
    rw [query, tokenize_append_index hsteps hne hdigits]
    simp only [walkNodes_append _ hdistinct h, walkValue, hindex]
    cases vs[decimalValue digits % 2 ^ 64]? <;> rfl
  · cases h

/-- A query for an element finds it, or nothing behind the last one, unless the word that takes up
the digits drops just what makes the index too large. -/
theorem query_index_iff {doc : Document} {path digits : Bytes} {vs : List Value}
    (hdistinct : DistinctNames doc.nodes) (h : query doc path = some (.array vs))
    (hsize : vs.length < 2 ^ 64) (hne : digits ≠ []) (hdigits : ∀ c ∈ digits, isDigit c = true) :
    query doc (path ++ ascii "[" ++ digits ++ ascii "]") = vs[decimalValue digits]? ↔
      (decimalValue digits < vs.length ∨ vs.length ≤ decimalValue digits % 2 ^ 64) := by
  have htext : path ++ ascii "[" ++ digits ++ ascii "]" = path ++ (Segment.index digits).text := by
    simp [Segment.text, Segment.isName, Segment.body, ascii, ch, Char.toUInt8]
  rw [htext, query_append_index hdistinct h ⟨hne, hdigits⟩]
  by_cases hlt : decimalValue digits < vs.length
  · rw [Nat.mod_eq_of_lt (hlt.trans hsize)]
    exact iff_of_true rfl (.inl hlt)
  · rw [List.getElem?_eq_none (Nat.not_lt.mp hlt), List.getElem?_eq_none_iff]
    simp [hlt]

/-- The document of `a = [true];`. -/
def arrayDocument : Document where
  nodes := [.assignment [ascii "a"] (.array [.bool true])]

theorem distinctNames_array : DistinctNames arrayDocument.nodes := by
  intro level hlevel
  cases hlevel with
  | here => decide
  | block h => simp [arrayDocument] at h

theorem query_array : query arrayDocument (ascii "a") = some (.array [.bool true]) := rfl

theorem query_index_iff_array :
    query arrayDocument (ascii "a" ++ ascii "[" ++ ascii "1" ++ ascii "]") =
      [Value.bool true][decimalValue (ascii "1")]? :=
  (query_index_iff distinctNames_array query_array (by decide +kernel) (by decide +kernel) (by decide +kernel)).mpr
    (.inr (by decide +kernel))

/-- The index `2 ^ 64` finds the first element. -/
theorem query_array_wraps : ∃ (doc : Document) (path digits : Bytes) (vs : List Value),
    DistinctNames doc.nodes ∧ query doc path = some (.array vs) ∧ vs.length < 2 ^ 64 ∧ digits ≠ [] ∧
      (∀ c ∈ digits, isDigit c = true) ∧ vs.length ≤ decimalValue digits ∧
      (query doc (path ++ ascii "[" ++ digits ++ ascii "]")).isSome = true := by
  have hlarge : [Value.bool true].length ≤ decimalValue (ascii "18446744073709551616") := by decide +kernel
  exact ⟨arrayDocument, ascii "a", ascii "18446744073709551616", _, distinctNames_array, query_array,
    by decide +kernel, by decide +kernel, by decide +kernel, hlarge, rfl⟩

end Bytewright.Cfgscript
