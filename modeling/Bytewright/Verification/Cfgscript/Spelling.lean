import Bytewright.Verification.Cfgscript.Scanning

/-! # Canonical text

What the serializer writes, as a relation that leaves the layout open: the white space between the
tokens of an aggregate, and the comma behind its last element. -/

namespace Bytewright.Cfgscript

open Bytewright.Common Bytewright.Library

/-! ### Parts of a document -/

mutual

/-- Every scalar in a value satisfies `p`, and every key satisfies `k`. -/
def Value.All (p : Value → Prop) (k : Bytes → Prop) : Value → Prop
  | .array vs => AllElements p k vs
  | .object fields => AllFields p k fields
  | v => p v

def AllElements (p : Value → Prop) (k : Bytes → Prop) : List Value → Prop
  | [] => True
  | v :: vs => v.All p k ∧ AllElements p k vs

def AllFields (p : Value → Prop) (k : Bytes → Prop) : List (Bytes × Value) → Prop
  | [] => True
  | (key, v) :: fields => k key ∧ v.All p k ∧ AllFields p k fields

end

/-- No float is inside. -/
abbrev Value.FloatFree (v : Value) : Prop := v.All (fun v => v.isFloat = false) fun _ => True

/-- Every key inside is a name. -/
abbrev Value.Keyed (v : Value) : Prop := v.All (fun _ => True) IsName

mutual

/-- Every value that is assigned satisfies `p`. -/
def Node.AllValues (p : Value → Prop) : Node → Prop
  | .assignment _ v => p v
  | .block _ _ children => AllNodes p children
  | .include _ => True

def AllNodes (p : Value → Prop) : List Node → Prop
  | [] => True
  | node :: nodes => node.AllValues p ∧ AllNodes p nodes

end

def Document.FloatFree (doc : Document) : Prop := AllNodes Value.FloatFree doc.nodes

mutual

/-- The names are names, and blocks are nested at most `room` deep. -/
def Node.WellFormed : (room : Nat) → Node → Prop
  | room, .assignment path v => 1 ≤ room ∧ path ≠ [] ∧ (∀ name ∈ path, IsName name) ∧ v.Keyed
  | room, .block name _ children => 1 ≤ room ∧ IsName name ∧ NodesWellFormed (room - 1) children
  | room, .include _ => 1 ≤ room

def NodesWellFormed : (room : Nat) → List Node → Prop
  | _, [] => True
  | room, node :: nodes => node.WellFormed room ∧ NodesWellFormed room nodes

end

/-! ### Members -/

/-- A condition on lists that hands one to the head and itself to the tail holds of every member. -/
theorem forall_mem_of_cons {α : Type} {p : α → Prop} {P : List α → Prop}
    (hcons : ∀ x xs, P (x :: xs) → p x ∧ P xs) {xs : List α} (h : P xs) : ∀ x ∈ xs, p x := by
  induction xs with
  | nil => nofun
  | cons x xs ih =>
      obtain ⟨hx, hxs⟩ := hcons x xs h
      exact List.forall_mem_cons.mpr ⟨hx, ih hxs⟩

theorem AllNodes.mem {p : Value → Prop} {nodes : List Node} {node : Node} (h : AllNodes p nodes)
    (hmem : node ∈ nodes) : node.AllValues p :=
  forall_mem_of_cons (fun _ _ h => h) h node hmem

theorem NodesWellFormed.mem {room : Nat} {nodes : List Node} {node : Node}
    (h : NodesWellFormed room nodes) (hmem : node ∈ nodes) : node.WellFormed room :=
  forall_mem_of_cons (fun _ _ h => h) h node hmem

theorem AllElements.mem {p : Value → Prop} {k : Bytes → Prop} {vs : List Value} {v : Value}
    (h : AllElements p k vs) (hmem : v ∈ vs) : v.All p k :=
  forall_mem_of_cons (fun _ _ h => h) h v hmem

theorem AllFields.mem {p : Value → Prop} {k : Bytes → Prop} {fields : List (Bytes × Value)}
    {key : Bytes} {v : Value} (h : AllFields p k fields) (hmem : (key, v) ∈ fields) :
    k key ∧ v.All p k :=
  @forall_mem_of_cons _ (fun field => k field.1 ∧ field.2.All p k) _
    (fun _ _ h => ⟨⟨h.1, h.2.1⟩, h.2.2⟩) fields h (key, v) hmem

/-! ### Text -/

/-- What a piece of text stands for. -/
inductive Content where
  | value (v : Value)
  | elements (vs : List Value)
  | fields (fields : List (Bytes × Value))
  | node (node : Node)
  | nodes (nodes : List Node)

inductive Spells : Content → Bytes → Prop
  | null : Spells (.value .null) (ascii "null")
  | bool (b : Bool) : Spells (.value (.bool b)) (ascii (if b then "true" else "false"))
  | nonneg {i : Int64} (h : ¬ i < 0) : Spells (.value (.int i)) (decimal i.toInt.toNat)
  | neg {i : Int64} (h : i < 0) : Spells (.value (.int i)) (ch '-' :: decimal i.toInt.natAbs)
  | str (s : Bytes) : Spells (.value (.str s)) (quoted s)
  | emptyArray : Spells (.value (.array [])) (ascii "[]")
  | array {vs t} (h : Spells (.elements vs) t) :
      Spells (.value (.array vs)) (ch '[' :: (t ++ [ch ']']))
  | object {fields t} (h : Spells (.fields fields) t) :
      Spells (.value (.object fields)) (ch '{' :: (t ++ [ch '}']))
  | last {v ws t} (hws : Blank ws) (h : Spells (.value v) t) : Spells (.elements [v]) (ws ++ t)
  | lastComma {v ws t us} (hws : Blank ws) (h : Spells (.value v) t) (hus : Blank us) :
      Spells (.elements [v]) (ws ++ (t ++ ch ',' :: us))
  | element {v vs ws t us} (hws : Blank ws) (h : Spells (.value v) t)
      (hs : Spells (.elements vs) us) : Spells (.elements (v :: vs)) (ws ++ (t ++ ch ',' :: us))
  | noFields {ws} (hws : Blank ws) : Spells (.fields []) ws
  | field {key v fields ws t us} (hws : Blank ws) (hkey : IsName key) (h : Spells (.value v) t)
      (hs : Spells (.fields fields) us) :
      Spells (.fields ((key, v) :: fields)) (ws ++ (key ++ (ascii " = " ++ (t ++ ch ';' :: us))))
  | assignment {path v t} (hpath : path ≠ []) (hnames : ∀ name ∈ path, IsName name)
      (h : Spells (.value v) t) :
      Spells (.node (.assignment path v)) (renderPath path ++ (ascii " = " ++ (t ++ [ch ';'])))
  | block {name label nodes t} (hname : IsName name) (h : Spells (.nodes nodes) t) :
      Spells (.node (.block name label nodes))
        (name ++ (renderLabel label ++ (ascii " \x7b" ++ (t ++ [ch '}']))))
  | include (path : Bytes) :
      Spells (.node (.include path)) (ascii "include" ++ (ascii " " ++ (quoted path ++ [ch ';'])))
  | noNodes {ws} (hws : Blank ws) : Spells (.nodes []) ws
  | nodes {node nodes ws t us} (hws : Blank ws) (h : Spells (.node node) t)
      (hs : Spells (.nodes nodes) us) : Spells (.nodes (node :: nodes)) (ws ++ (t ++ us))

/-! ### The serializer's layouts -/

theorem blank_indent (depth : Nat) (opts : SerializeOptions) : Blank (indent depth opts) := by
  intro c hc
  rw [List.eq_of_mem_replicate hc]
  decide

theorem blank_ascii {s : String} (h : (ascii s).all isSpace = true) : Blank (ascii s) :=
  List.all_eq_true.mp h

theorem blank_space : Blank (ascii " ") := blank_ascii (by decide)

theorem blank_newline : Blank (ascii "\n") := blank_ascii (by decide)

/-- White space goes over to what is behind it. -/
theorem Spells.elements_blank {vs : List Value} {ws t : Bytes} (hws : Blank ws)
    (h : Spells (.elements vs) t) : Spells (.elements vs) (ws ++ t) := by
  cases h with
  | last hus h => rw [← List.append_assoc]; exact .last (hws.append hus) h
  | lastComma hus h hvs => rw [← List.append_assoc]; exact .lastComma (hws.append hus) h hvs
  | element hus h hs => rw [← List.append_assoc]; exact .element (hws.append hus) h hs

theorem Spells.fields_blank {fields : List (Bytes × Value)} {ws t : Bytes} (hws : Blank ws)
    (h : Spells (.fields fields) t) : Spells (.fields fields) (ws ++ t) := by
  cases h with
  | noFields hus => exact .noFields (hws.append hus)
  | field hus hkey h hs => rw [← List.append_assoc]; exact .field (hws.append hus) hkey h hs

theorem Spells.nodes_blank {nodes : List Node} {ws t : Bytes} (hws : Blank ws)
    (h : Spells (.nodes nodes) t) : Spells (.nodes nodes) (ws ++ t) := by
  cases h with
  | noNodes hus => exact .noNodes (hws.append hus)
  | nodes hus h hs => rw [← List.append_assoc]; exact .nodes (hws.append hus) h hs

theorem spells_int (i : Int64) : Spells (.value (.int i)) (intBytes i) := by
  unfold intBytes
  split
  · next h => exact .neg h
  · next h => exact .nonneg h

mutual

theorem spells_value (opts : SerializeOptions) (depth : Nat) :
    ∀ v : Value, v.FloatFree → v.Keyed → Spells (.value v) (renderValue opts depth v)
  | .null, _, _ => .null
  | .bool b, _, _ => .bool b
  | .int i, _, _ => spells_int i
  | .float _, hfloat, _ => nomatch hfloat
  | .str s, _, _ => .str s
  | .array [], _, _ => .emptyArray
  | .array (v :: vs), hfloat, hkeyed => by
      rw [renderValue]
      split
      · have hv := spells_value opts depth v hfloat.1 hkeyed.1
        exact .array (spells_elements opts depth vs hfloat.2 hkeyed.2 hv)
      · have hv := spells_value opts (depth + 1) v hfloat.1 hkeyed.1
        have hs := spells_elementLines opts (depth + 1) (blank_indent depth opts) vs hfloat.2 hkeyed.2 hv
        simpa [renderElementLines, ascii, ch, Char.toUInt8] using
          Spells.array (hs.elements_blank blank_newline)
  | .object [], _, _ => .object (.noFields .nil)
  | .object ((key, v) :: fields), hfloat, hkeyed => by
      rw [renderValue]
      split
      · have hv := spells_value opts depth v hfloat.2.1 hkeyed.2.1
        have hs := spells_fields opts depth fields hfloat.2.2 hkeyed.2.2
        simpa [ascii, ch, Char.toUInt8] using Spells.object (.field blank_space hkeyed.1 hv hs)
      · have h := spells_fieldLines opts (depth + 1) ((key, v) :: fields) hfloat hkeyed
          (blank_indent depth opts)
        simpa [ascii, ch, Char.toUInt8] using Spells.object (h.fields_blank blank_newline)

/-- The elements on one line, behind a first one that is spelled `t`. -/
theorem spells_elements (opts : SerializeOptions) (depth : Nat) :
    ∀ vs : List Value, (Value.array vs).FloatFree → (Value.array vs).Keyed →
      ∀ {v : Value} {t : Bytes}, Spells (.value v) t →
        Spells (.elements (v :: vs)) (t ++ renderElements opts depth vs)
  | [], _, _, _, _, hv => by simpa [renderElements] using Spells.last .nil hv
  | v' :: vs, hfloat, hkeyed, _, _, hv => by
      have hv' := spells_value opts depth v' hfloat.1 hkeyed.1
      have hs := spells_elements opts depth vs hfloat.2 hkeyed.2 hv'
      simpa [renderElements, ascii, ch, Char.toUInt8] using
        Spells.element .nil hv (hs.elements_blank blank_space)

theorem spells_elementLines (opts : SerializeOptions) (depth : Nat) {ws : Bytes} (hws : Blank ws) :
    ∀ vs : List Value, (Value.array vs).FloatFree → (Value.array vs).Keyed →
      ∀ {v : Value} {t : Bytes}, Spells (.value v) t →
        Spells (.elements (v :: vs))
          (indent depth opts ++ (t ++ (ascii ",\n" ++ (renderElementLines opts depth vs ++ ws))))
  | [], _, _, _, _, hv => by
      simpa [renderElementLines, ascii, ch, Char.toUInt8] using
        Spells.lastComma (blank_indent depth opts) hv (blank_newline.append hws)
  | v' :: vs, hfloat, hkeyed, _, _, hv => by
      have hv' := spells_value opts depth v' hfloat.1 hkeyed.1
      have hs := spells_elementLines opts depth hws vs hfloat.2 hkeyed.2 hv'
      simpa [renderElementLines, ascii, ch, Char.toUInt8] using
        Spells.element (blank_indent depth opts) hv (hs.elements_blank blank_newline)

theorem spells_fields (opts : SerializeOptions) (depth : Nat) :
    ∀ fields : List (Bytes × Value), (Value.object fields).FloatFree → (Value.object fields).Keyed →
      Spells (.fields fields) (renderFields opts depth fields ++ ascii " ")
  | [], _, _ => .noFields blank_space
  | (key, v) :: fields, hfloat, hkeyed => by
      have hv := spells_value opts depth v hfloat.2.1 hkeyed.2.1
      have hs := spells_fields opts depth fields hfloat.2.2 hkeyed.2.2
      simpa [renderFields, ascii, ch, Char.toUInt8] using Spells.field blank_space hkeyed.1 hv hs

theorem spells_fieldLines (opts : SerializeOptions) (depth : Nat) :
    ∀ fields : List (Bytes × Value), (Value.object fields).FloatFree → (Value.object fields).Keyed →
      ∀ {ws : Bytes}, Blank ws → Spells (.fields fields) (renderFieldLines opts depth fields ++ ws)
  | [], _, _, _, hws => .noFields hws
  | (key, v) :: fields, hfloat, hkeyed, _, hws => by
      have hv := spells_value opts depth v hfloat.2.1 hkeyed.2.1
      have hs := spells_fieldLines opts depth fields hfloat.2.2 hkeyed.2.2 hws
      simpa [renderFieldLines, ascii, ch, Char.toUInt8] using
        Spells.field (blank_indent depth opts) hkeyed.1 hv (hs.fields_blank blank_newline)

end

mutual

theorem spells_node (opts : SerializeOptions) (depth : Nat) :
    ∀ {room : Nat} (node : Node), node.AllValues Value.FloatFree → node.WellFormed room →
      ∃ t, renderNode opts depth node = indent depth opts ++ (t ++ ascii "\n") ∧
        Spells (.node node) t
  | _, .assignment path v, hfloat, hwf => by
      have h := Spells.assignment hwf.2.1 hwf.2.2.1 (spells_value opts depth v hfloat hwf.2.2.2)
      exact ⟨_, by simp [renderNode, ascii, ch, Char.toUInt8], h⟩
  | _, .block name label children, hfloat, hwf => by
      have hs := spells_nodes opts (depth + 1) children hfloat hwf.2.2 (blank_indent depth opts)
      cases children with
      | nil =>
          refine ⟨_, ?_, .block hwf.2.1 (.noNodes .nil)⟩
          simp [renderNode, ascii, ch, Char.toUInt8]
      | cons node nodes =>
          refine ⟨_, ?_, .block hwf.2.1 (hs.nodes_blank blank_newline)⟩
          simp [renderNode, ascii, ch, Char.toUInt8]
  | _, .include path, _, _ => by
      refine ⟨_, ?_, .include path⟩
      simp [renderNode, ascii, ch, Char.toUInt8]

theorem spells_nodes (opts : SerializeOptions) (depth : Nat) :
    ∀ {room : Nat} (nodes : List Node), AllNodes Value.FloatFree nodes →
      NodesWellFormed room nodes → ∀ {ws : Bytes}, Blank ws →
        Spells (.nodes nodes) (renderNodes opts depth nodes ++ ws)
  | _, [], _, _, _, hws => .noNodes hws
  | _, node :: nodes, hfloat, hwf, _, hws => by
      rcases spells_node opts depth node hfloat.1 hwf.1 with ⟨t, ht, h⟩
      have hs := spells_nodes opts depth nodes hfloat.2 hwf.2 hws
      rw [renderNodes, ht]
      simpa using Spells.nodes (blank_indent depth opts) h (hs.nodes_blank blank_newline)

end

end Bytewright.Cfgscript
