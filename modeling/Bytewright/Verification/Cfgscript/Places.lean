import Bytewright.Verification.Cfgscript.Evaluation
import Bytewright.Verification.Cfgscript.Leaves
import Bytewright.Verification.Cfgscript.Paths

/-! # Places in a document

What stands in a document behind the names of blocks, an assignment path and the steps into its value
is a relation. Flattening lists the leaves it relates to a place, under the text of the place. -/

namespace Bytewright.Cfgscript

open Bytewright.Common Bytewright.Library

/-! ### What stands where -/

/-- `w` stands in `v` behind the parts. -/
inductive Stands : Value → List Part → Value → Prop
  | here (v : Value) : Stands v [] v
  | element {vs : List Value} {k : Nat} {x w : Value} {parts : List Part} (h : vs[k]? = some x)
      (hx : Stands x parts w) : Stands (.array vs) (.element k :: parts) w
  | member {fields : List (Bytes × Value)} {key : Bytes} {x w : Value} {parts : List Part}
      (h : (key, x) ∈ fields) (hx : Stands x parts w) :
      Stands (.object fields) (.member key :: parts) w

/-- `w` stands in the nodes behind the names of blocks and of an assignment path, and the parts. -/
inductive Holds : List Node → List Bytes → List Part → Value → Prop
  | assignment {nodes : List Node} {path : List Bytes} {v w : Value} {parts : List Part}
      (h : .assignment path v ∈ nodes) (hv : Stands v parts w) : Holds nodes path parts w
  | block {nodes children : List Node} {name : Bytes} {label : Option Bytes} {names : List Bytes}
      {w : Value} {parts : List Part} (h : .block name label children ∈ nodes)
      (hw : Holds children names parts w) : Holds nodes (name :: names) parts w

theorem Holds.mono {nodes nodes' : List Node} {names : List Bytes} {parts : List Part} {w : Value}
    (h : Holds nodes names parts w) (hsub : nodes ⊆ nodes') : Holds nodes' names parts w := by
  cases h with
  | assignment hmem hv => exact .assignment (hsub hmem) hv
  | block hmem hw => exact .block (hsub hmem) hw

theorem Stands.keys {v w : Value} {parts : List Part} (h : Stands v parts w) (hv : v.Keyed) :
    ∀ key, .member key ∈ parts → IsName key := by
  induction h with
  | here => nofun
  | @element vs k x w parts hx _ ih =>
      have hinner : x.Keyed := AllElements.mem hv (List.mem_of_getElem? hx)
      intro key hkey
      cases hkey with
      | tail _ hkey => exact ih hinner key hkey
  | @member fields name x w parts hx _ ih =>
      obtain ⟨hname, hinner⟩ := AllFields.mem hv hx
      intro key hkey
      cases hkey with
      | head => exact hname
      | tail _ hkey => exact ih hinner key hkey

/-! ### Flattening lists the leaves that stand in a document -/

theorem stands_scalar {v w : Value} {parts : List Part} (hv : v.isScalar = true) :
    Stands v parts w ↔ parts = [] ∧ w = v := by
  constructor
  · intro h
    cases h with
    | here => exact ⟨rfl, rfl⟩
    | element => cases hv
    | member => cases hv
  · rintro ⟨rfl, rfl⟩
    exact .here w

theorem mem_leaves_scalar {v w : Value} {position q : List Part} (hv : v.isScalar = true) :
    (q, w) ∈ [(position, v)] ↔
      ∃ parts, q = position ++ parts ∧ Stands v parts w ∧ w.isLeaf = true := by
  have hleaf : v.isLeaf = true := by cases v <;> first | rfl | cases hv
  constructor
  · intro h
    cases List.mem_singleton.mp h
    exact ⟨[], (List.append_nil _).symm, .here v, hleaf⟩
  · rintro ⟨parts, rfl, h, -⟩
    obtain ⟨rfl, rfl⟩ := (stands_scalar hv).mp h
    simp

mutual

theorem mem_leaves :
    ∀ (v : Value) {w : Value} {position q : List Part}, (q, w) ∈ v.leaves position ↔
      ∃ parts, q = position ++ parts ∧ Stands v parts w ∧ w.isLeaf = true
  | .null, _, _, _ | .bool _, _, _, _ | .int _, _, _, _ | .float _, _, _, _ | .str _, _, _, _ =>
      mem_leaves_scalar rfl
  | .array [], w, position, q => by
      constructor
      · intro h
        cases List.mem_singleton.mp h
        exact ⟨[], (List.append_nil _).symm, .here _, rfl⟩
      · rintro ⟨parts, rfl, h, -⟩
        cases h with
        | here => simp [Value.leaves]
        | element h => cases h
  | .object [], w, position, q => by
      constructor
      · intro h
        cases List.mem_singleton.mp h
        exact ⟨[], (List.append_nil _).symm, .here _, rfl⟩
      · rintro ⟨parts, rfl, h, -⟩
        cases h with
        | here => simp [Value.leaves]
        | member h => cases h
  | .array (x :: xs), w, position, q => by
      rw [Value.leaves, mem_elementLeaves (x :: xs) 0]
      constructor
      · rintro ⟨k, y, parts, hy, rfl, hw, hleaf⟩
        rw [Nat.zero_add]
        exact ⟨.element k :: parts, rfl, .element hy hw, hleaf⟩
      · rintro ⟨parts, rfl, hw, hleaf⟩
        cases hw with
        | here => cases hleaf
        | @element _ k y _ parts hy hw => exact ⟨k, y, parts, hy, by rw [Nat.zero_add], hw, hleaf⟩
  | .object (field :: fields), w, position, q => by
      rw [Value.leaves, mem_fieldLeaves (field :: fields)]
      constructor
      · rintro ⟨key, y, parts, hy, rfl, hw, hleaf⟩
        exact ⟨.member key :: parts, rfl, .member hy hw, hleaf⟩
      · rintro ⟨parts, rfl, hw, hleaf⟩
        cases hw with
        | here => cases hleaf
        | @member _ key y _ parts hy hw => exact ⟨key, y, parts, hy, rfl, hw, hleaf⟩

theorem mem_elementLeaves :
    ∀ (vs : List Value) (index : Nat) {w : Value} {position q : List Part},
      (q, w) ∈ elementLeaves position index vs ↔
        ∃ k x parts, vs[k]? = some x ∧ q = position ++ .element (index + k) :: parts ∧
          Stands x parts w ∧ w.isLeaf = true
  | [], index, w, position, q => by simp [elementLeaves]
  | v :: vs, index, w, position, q => by
      rw [elementLeaves, List.mem_append, mem_leaves v, mem_elementLeaves vs (index + 1)]
      constructor
      · rintro (⟨parts, rfl, hw⟩ | ⟨k, x, parts, hx, rfl, hw⟩)
        · exact ⟨0, v, parts, rfl, by simp, hw⟩
        · exact ⟨k + 1, x, parts, hx, by rw [Nat.add_right_comm, Nat.add_assoc], hw⟩
      · rintro ⟨k, x, parts, hx, rfl, hw⟩
        cases k with
        | zero =>
            cases hx
            exact .inl ⟨parts, by simp, hw⟩
        | succ k => exact .inr ⟨k, x, parts, hx, by rw [Nat.add_right_comm, Nat.add_assoc], hw⟩

theorem mem_fieldLeaves :
    ∀ (fields : List (Bytes × Value)) {w : Value} {position q : List Part},
      (q, w) ∈ fieldLeaves position fields ↔
        ∃ key x parts, (key, x) ∈ fields ∧ q = position ++ .member key :: parts ∧
          Stands x parts w ∧ w.isLeaf = true
  | [], w, position, q => by simp [fieldLeaves]
  | (key, v) :: fields, w, position, q => by
      rw [fieldLeaves, List.mem_append, mem_leaves v, mem_fieldLeaves fields]
      constructor
      · rintro (⟨parts, rfl, hw⟩ | ⟨key', x, parts, hx, rfl, hw⟩)
        · exact ⟨key, v, parts, List.mem_cons_self, by simp, hw⟩
        · exact ⟨key', x, parts, List.mem_cons_of_mem _ hx, rfl, hw⟩
      · rintro ⟨key', x, parts, hx, rfl, hw⟩
        obtain heq | hx := List.mem_cons.mp hx
        · cases heq
          exact .inl ⟨parts, by simp, hw⟩
        · exact .inr ⟨key', x, parts, hx, rfl, hw⟩

end

mutual

/-- No block has a label, and nothing is included. -/
def Node.Plain : Node → Prop
  | .assignment _ _ => True
  | .block _ label children => label = none ∧ NodesPlain children
  | .include _ => False

def NodesPlain : List Node → Prop
  | [] => True
  | node :: nodes => node.Plain ∧ NodesPlain nodes

end

/-- The flattened path behind names and parts. -/
def placeText (base : Bytes) (names : List Bytes) (parts : List Part) : Bytes :=
  parts.foldl partText (names.foldl joinPath base)

mutual

theorem mem_flattenNode :
    ∀ (node : Node) {base : Bytes} {e : FlatEntry}, node.Plain →
      (e ∈ flattenNode base node ↔ ∃ names parts w, Holds [node] names parts w ∧
        w.isLeaf = true ∧ e = ⟨placeText base names parts, renderScalar w⟩)
  | .assignment path v, base, e, _ => by
      have hflatten := flattenValue_eq (path.foldl joinPath base) [] v
      rw [flattenNode]
      change flattenValue (path.foldl joinPath base) v = _ at hflatten
      rw [hflatten, List.mem_map]
      constructor
      · rintro ⟨⟨q, w⟩, hmem, rfl⟩
        obtain ⟨parts, hq, hw, hleaf⟩ := (mem_leaves v).mp hmem
        obtain rfl : q = parts := hq
        exact ⟨path, q, w, .assignment List.mem_cons_self hw, hleaf, rfl⟩
      · rintro ⟨names, parts, w, hholds, hleaf, rfl⟩
        cases hholds with
        | assignment hmem hw =>
            cases List.mem_singleton.mp hmem
            have hmem : (parts, w) ∈ v.leaves [] := (mem_leaves v).mpr ⟨parts, rfl, hw, hleaf⟩
            exact ⟨(parts, w), hmem, rfl⟩
        | block hmem => cases List.mem_singleton.mp hmem
  | .block name label children, base, e, hplain => by
      obtain ⟨rfl, hchildren⟩ := hplain
      rw [flattenNode, mem_flattenNodes children hchildren]
      constructor
      · rintro ⟨names, parts, w, hw, hleaf, rfl⟩
        exact ⟨name :: names, parts, w, .block List.mem_cons_self hw, hleaf, rfl⟩
      · rintro ⟨names, parts, w, hholds, hleaf, rfl⟩
        cases hholds with
        | assignment hmem => cases List.mem_singleton.mp hmem
        | block hmem hw =>
            cases List.mem_singleton.mp hmem
            exact ⟨_, parts, w, hw, hleaf, rfl⟩

theorem mem_flattenNodes :
    ∀ (nodes : List Node) {base : Bytes} {e : FlatEntry}, NodesPlain nodes →
      (e ∈ flattenNodes base nodes ↔ ∃ names parts w, Holds nodes names parts w ∧
        w.isLeaf = true ∧ e = ⟨placeText base names parts, renderScalar w⟩)
  | [], base, e, _ => by
      constructor
      · intro h
        cases h
      · rintro ⟨names, parts, w, hholds, -⟩
        cases hholds with
        | assignment hmem | block hmem => cases hmem
  | node :: nodes, base, e, hplain => by
      rw [flattenNodes, List.mem_append, mem_flattenNode node hplain.1,
        mem_flattenNodes nodes hplain.2]
      constructor
      · rintro (⟨names, parts, w, hw, hrest⟩ | ⟨names, parts, w, hw, hrest⟩)
        · exact ⟨names, parts, w, hw.mono (by simp), hrest⟩
        · exact ⟨names, parts, w, hw.mono (List.subset_cons_self _ _), hrest⟩
      · rintro ⟨names, parts, w, hholds, hrest⟩
        cases hholds with
        | assignment hmem hw =>
            obtain rfl | hmem := List.mem_cons.mp hmem
            · exact .inl ⟨names, parts, w, .assignment List.mem_cons_self hw, hrest⟩
            · exact .inr ⟨names, parts, w, .assignment hmem hw, hrest⟩
        | block hmem hw =>
            obtain rfl | hmem := List.mem_cons.mp hmem
            · exact .inl ⟨_, parts, w, .block List.mem_cons_self hw, hrest⟩
            · exact .inr ⟨_, parts, w, .block hmem hw, hrest⟩

end

/-! ### Texts and steps -/

def Part.step : Part → Step
  | .element index => .index (UInt64.ofNat index)
  | .member key => .name key

/-- The steps behind names and parts. -/
def placeSteps (names : List Bytes) (parts : List Part) : List Step :=
  names.map Step.name ++ parts.map Part.step

/-- The text of steps, the first a name. -/
def pathText : List Step → Bytes
  | .name name :: steps => name ++ steps.flatMap stepText
  | steps => steps.flatMap stepText

theorem pathText_append (name : Bytes) (steps steps' : List Step) :
    pathText (.name name :: (steps ++ steps')) =
      pathText (.name name :: steps) ++ steps'.flatMap stepText := by
  simp [pathText]

/-- The names and keys are names, and every index is that of a `std::size_t`. -/
structure ProperPlace (names : List Bytes) (parts : List Part) : Prop where
  nonempty : names ≠ []
  names : ∀ name ∈ names, IsName name
  keys : ∀ key, .member key ∈ parts → IsName key
  indices : ∀ k, .element k ∈ parts → k < 2 ^ 64

theorem partText_pathText {name : Bytes} (hname : name ≠ []) (steps : List Step) {part : Part}
    (hpart : ∀ k, part = .element k → k < 2 ^ 64) :
    partText (pathText (.name name :: steps)) part =
      pathText (.name name :: (steps ++ [part.step])) := by
  rw [pathText_append]
  cases part with
  | element k =>
      have hk : (UInt64.ofNat k).toNat = k := UInt64.toNat_ofNat_of_lt' (hpart k rfl)
      simp [partText, joinIndex, Part.step, stepText, hk]
  | member key =>
      have hne : pathText (.name name :: steps) ≠ [] := by simp [pathText, hname]
      simp [partText, joinPath, Part.step, stepText, hne]

theorem foldl_partText {name : Bytes} (hname : name ≠ []) (parts : List Part) :
    ∀ steps : List Step, (∀ k, .element k ∈ parts → k < 2 ^ 64) →
      parts.foldl partText (pathText (.name name :: steps)) =
        pathText (.name name :: (steps ++ parts.map Part.step)) := by
  induction parts with
  | nil => exact fun steps _ => by rw [List.map_nil, List.append_nil]; rfl
  | cons part parts ih =>
      intro steps hindices
      have hpart : ∀ k, part = .element k → k < 2 ^ 64 := fun k hk =>
        hindices k (hk ▸ List.mem_cons_self)
      rw [List.foldl_cons, partText_pathText hname steps hpart,
        ih (steps ++ [part.step]) fun k hk => hindices k (List.mem_cons_of_mem _ hk)]
      simp

theorem IsName.ne_nil {name : Bytes} (h : IsName name) : name ≠ [] := by
  obtain ⟨c, cs, rfl, -⟩ := h.start
  exact List.cons_ne_nil c cs

/-- The text of a place is that of its steps. -/
theorem placeText_eq {names : List Bytes} {parts : List Part} (h : ProperPlace names parts) :
    placeText [] names parts = pathText (placeSteps names parts) := by
  obtain ⟨name, names, rfl⟩ := List.exists_cons_of_ne_nil h.nonempty
  have hname := (h.names name List.mem_cons_self).ne_nil
  have hnames : names.foldl joinPath (pathText [.name name]) =
      (names.map Part.member).foldl partText (pathText [.name name]) := by
    rw [List.foldl_map]
    rfl
  have hfirst : joinPath [] name = pathText [.name name] := by simp [joinPath, pathText]
  have hsteps : (names.map Part.member).map Part.step = names.map Step.name := by
    rw [List.map_map]
    rfl
  rw [placeText, List.foldl_cons, hfirst, hnames, foldl_partText hname _ _ (by simp),
    foldl_partText hname _ _ h.indices, hsteps]
  simp [placeSteps]

theorem tokenize_place {names : List Bytes} {parts : List Part} (h : ProperPlace names parts) :
    tokenize (placeText [] names parts) = some (placeSteps names parts) := by
  rw [placeText_eq h]
  obtain ⟨name, names, rfl⟩ := List.exists_cons_of_ne_nil h.nonempty
  have hproper : ∀ step ∈ names.map Step.name ++ parts.map Part.step, step.Proper := by
    intro step hstep
    obtain hstep | hstep := List.mem_append.mp hstep
    · obtain ⟨n, hn, rfl⟩ := List.mem_map.mp hstep
      exact h.names n (List.mem_cons_of_mem _ hn)
    · obtain ⟨part, hpart, rfl⟩ := List.mem_map.mp hstep
      cases part with
      | element k => trivial
      | member key => exact h.keys key hpart
  exact tokenize_steps (h.names name List.mem_cons_self) hproper

end Bytewright.Cfgscript
