import Bytewright.Verification.Cfgscript.Evaluation
import Bytewright.Verification.Cfgscript.Leaves
import Bytewright.Verification.Cfgscript.Patch
import Bytewright.Verification.Cfgscript.Paths

/-! # What an empty diff says

Two documents have no differences when every flattened path has the same last leaf in both. -/

namespace Bytewright.Cfgscript

open Bytewright.Common Bytewright.Library

/-! ### Scalars are told apart by their text -/

/-- A leaf that is no float. -/
inductive IsLeaf : Value → Prop
  | null : IsLeaf .null
  | bool (b : Bool) : IsLeaf (.bool b)
  | int (i : Int64) : IsLeaf (.int i)
  | str (s : Bytes) : IsLeaf (.str s)
  | emptyArray : IsLeaf (.array [])
  | emptyObject : IsLeaf (.object [])

/-- What the first byte of a rendered scalar says about it. -/
def textClass (c : UInt8) : Nat :=
  if c = ch 'n' then 0
  else if c = ch 't' then 1
  else if c = ch 'f' then 2
  else if c = ch '\"' then 3
  else if c = ch '[' then 4
  else if c = ch '{' then 5
  else 6

def Value.textClass : Value → Nat
  | .null => 0
  | .bool b => if b then 1 else 2
  | .str _ => 3
  | .array _ => 4
  | .object _ => 5
  | _ => 6

theorem intBytes_head (i : Int64) : ∃ c cs, intBytes i = c :: cs ∧ textClass c = 6 := by
  have hdigit : ∀ c : UInt8, isDigit c = true → textClass c = 6 := forall_byte (by decide +kernel)
  rw [intBytes]
  split
  · exact ⟨ch '-', decimal i.toInt.natAbs, rfl, by decide⟩
  · cases hd : decimal i.toInt.toNat with
    | nil => exact absurd hd (decimal_ne_nil _)
    | cons c cs =>
        have hc := isDigit_of_mem_decimal i.toInt.toNat c (hd ▸ List.mem_cons_self)
        exact ⟨c, cs, rfl, hdigit c ((isDigit_iff c).mpr hc)⟩

theorem renderScalar_head {v : Value} (h : IsLeaf v) :
    (renderScalar v).head?.map textClass = some v.textClass := by
  cases h with
  | int i =>
      obtain ⟨c, cs, hi, hc⟩ := intBytes_head i
      simp [renderScalar, hi, hc, Value.textClass]
  | bool b => cases b <;> rfl
  | null | str _ | emptyArray | emptyObject => rfl

theorem intBytes_injective {i j : Int64} (h : intBytes i = intBytes j) : i = j := by
  have hminus : ∀ n rest, decimal n ≠ ch '-' :: rest := by
    intro n rest hn
    have hdigit := isDigit_of_mem_decimal n (ch '-') (by simp [hn])
    revert hdigit
    rw [← isDigit_iff]
    decide
  apply Int64.toInt_inj.mp
  unfold intBytes at h
  split at h
  · next hi =>
    have hi : i.toInt < 0 := Int64.lt_iff_toInt_lt.mp hi
    split at h
    · next hj =>
      have hj : j.toInt < 0 := Int64.lt_iff_toInt_lt.mp hj
      have habs := decimal_injective (List.append_cancel_left h)
      omega
    · exact absurd h.symm (hminus _ _)
  · next hi =>
    have hi : ¬ i.toInt < 0 := fun hlt => hi (Int64.lt_iff_toInt_lt.mpr hlt)
    split at h
    · exact absurd h (hminus _ _)
    · next hj =>
      have hj : ¬ j.toInt < 0 := fun hlt => hj (Int64.lt_iff_toInt_lt.mpr hlt)
      have habs := decimal_injective h
      omega

/-- The lexer reads a quoted string back, so the text determines it. -/
theorem quoted_injective {s t : Bytes} (h : quoted s = quoted t) : s = t := by
  obtain ⟨o, l, hs, -⟩ := scans_quoted s [] [] { rest := quoted t } .nil (by simp [h])
  obtain ⟨o', l', ht, -⟩ := scans_quoted t [] [] { rest := quoted t } .nil (by simp)
  rw [hs] at ht
  cases ht
  rfl

theorem renderScalar_injective {v w : Value} (hv : IsLeaf v) (hw : IsLeaf w)
    (h : renderScalar v = renderScalar w) : v = w := by
  have hclass : v.textClass = w.textClass := by
    have hhead := renderScalar_head hw
    rw [← h, renderScalar_head hv] at hhead
    exact Option.some.inj hhead
  cases hv with
  | null =>
      cases hw with
      | null => rfl
      | bool b => cases b <;> cases hclass
      | _ => cases hclass
  | bool b =>
      cases hw with
      | bool c => cases b <;> cases c <;> first | rfl | cases hclass
      | _ => cases b <;> cases hclass
  | int i =>
      cases hw with
      | int j => rw [intBytes_injective h]
      | bool b => cases b <;> cases hclass
      | _ => cases hclass
  | str s =>
      cases hw with
      | str t => rw [quoted_injective h]
      | bool b => cases b <;> cases hclass
      | _ => cases hclass
  | emptyArray =>
      cases hw with
      | emptyArray => rfl
      | bool b => cases b <;> cases hclass
      | _ => cases hclass
  | emptyObject =>
      cases hw with
      | emptyObject => rfl
      | bool b => cases b <;> cases hclass
      | _ => cases hclass

/-! ### Includes are told apart from values by their paths -/

/-- What stands behind the last dot of a path, read backwards. -/
def lastName (text : Bytes) : Bytes := text.reverse.takeWhile (· ≠ ch '.')

theorem lastName_joinPath {name : Bytes} (h : ch '.' ∉ name) (path : Bytes) :
    lastName (joinPath path name) = name.reverse := by
  have hname : ∀ c ∈ name.reverse, decide (c ≠ ch '.') = true := by
    intro c hc
    rw [decide_eq_true_iff]
    rintro rfl
    exact h (List.mem_reverse.mp hc)
  rw [joinPath]
  split
  · have hstop : Stops (fun c => decide (c ≠ ch '.')) [] := by simp [Stops]
    have hspan := (span_stops hname hstop).1
    rwa [List.append_nil] at hspan
  · have hreverse : (path ++ ascii "." ++ name).reverse = name.reverse ++ ch '.' :: path.reverse := by
      simp [ascii, ch, Char.toUInt8]
    rw [lastName, hreverse]
    exact (span_stops hname (by simp [Stops])).1

theorem lastName_joinIndex (path : Bytes) (index : Nat) :
    ∃ rest, lastName (joinIndex path index) = ch ']' :: rest := by
  have hreverse : ∃ rest, (joinIndex path index).reverse = ch ']' :: rest :=
    ⟨(decimal index).reverse ++ ch '[' :: path.reverse,
      by simp [joinIndex, ascii, ch, Char.toUInt8]⟩
  obtain ⟨rest, hrest⟩ := hreverse
  have hclose : ch ']' ≠ ch '.' := by decide
  refine ⟨rest.takeWhile (· ≠ ch '.'), ?_⟩
  rw [lastName, hrest, List.takeWhile_cons, if_pos (decide_eq_true hclose)]

theorem dot_not_mem {name : Bytes} (h : IsName name) : ch '.' ∉ name := by
  intro hdot
  have hbyte := isNameByte_of_identPart _ (h.part _ hdot)
  revert hbyte
  decide

/-- The path of a value never ends like that of an include. -/
theorem lastName_ne_include {path : List Bytes} {position : List Part} (hpath : path ≠ [])
    (hnames : ∀ name ∈ path, IsName name) (hkeys : ∀ key, .member key ∈ position → IsName key)
    (base : Bytes) :
    lastName (position.foldl partText (path.foldl joinPath base)) ≠ (ascii "include").reverse := by
  have hname : ∀ {name : Bytes} (text : Bytes), IsName name →
      lastName (joinPath text name) ≠ (ascii "include").reverse := by
    intro name text h heq
    rw [lastName_joinPath (dot_not_mem h), List.reverse_inj] at heq
    have hkeyword := h.notKeyword
    rw [heq] at hkeyword
    revert hkeyword
    decide
  obtain rfl | ⟨position, part, rfl⟩ := List.eq_nil_or_concat position
  · obtain rfl | ⟨path, name, rfl⟩ := List.eq_nil_or_concat path
    · exact absurd rfl hpath
    · rw [List.concat_eq_append, List.foldl_append]
      exact hname _ (hnames name (by simp))
  · rw [List.concat_eq_append, List.foldl_append]
    cases part with
    | element index =>
        obtain ⟨rest, hrest⟩ := lastName_joinIndex
          (position.foldl partText (path.foldl joinPath base)) index
        show lastName (joinIndex _ index) ≠ _
        rw [hrest]
        intro heq
        have hhead : some (ch ']') = (ascii "include").reverse.head? := by rw [← heq]; rfl
        revert hhead
        decide
    | member key => exact hname _ (hkeys key (by simp))

theorem isLeaf_of_floatFree {v : Value} (h : v.isLeaf = true) (hfloat : v.FloatFree) : IsLeaf v := by
  cases v with
  | null => exact .null
  | bool b => exact .bool b
  | int i => exact .int i
  | float f => cases hfloat
  | str s => exact .str s
  | array vs =>
      cases vs with
      | nil => exact .emptyArray
      | cons v vs => cases h
  | object fields =>
      cases fields with
      | nil => exact .emptyObject
      | cons field fields => cases h

/-- The flattened entry determines what stands at a leaf. -/
theorem payload_eq_of_entry {l l' : DocumentLeaf} (h : l.Named) (h' : l'.Named)
    (hfloat : ∀ v, l.payload = .scalar v → v.FloatFree)
    (hfloat' : ∀ v, l'.payload = .scalar v → v.FloatFree) (htext : l.text = l'.text)
    (hpayload : l.payload.text = l'.payload.text) : l.payload = l'.payload := by
  have hfile : ∀ text : Bytes, lastName (joinPath text (ascii "include")) = (ascii "include").reverse :=
    lastName_joinPath (by decide)
  obtain ⟨blocks, path, position, payload⟩ := l
  obtain ⟨blocks', path', position', payload'⟩ := l'
  cases payload with
  | scalar v =>
      obtain ⟨hv, hpath⟩ := h.scalar v rfl
      cases payload' with
      | scalar w =>
          have hv := isLeaf_of_floatFree hv (hfloat v rfl)
          have hw := isLeaf_of_floatFree (h'.scalar w rfl).1 (hfloat' w rfl)
          exact congrArg Payload.scalar (renderScalar_injective hv hw hpayload)
      | file f =>
          have hne := lastName_ne_include hpath h.path h.keys (blocksText blocks)
          exact absurd ((congrArg lastName htext).trans (hfile _)) hne
  | file f =>
      cases payload' with
      | scalar w =>
          have hne := lastName_ne_include (h'.scalar w rfl).2 h'.path h'.keys (blocksText blocks')
          exact absurd ((congrArg lastName htext).symm.trans (hfile _)) hne
      | file f' => exact congrArg Payload.file hpayload

/-! ### Documents -/

theorem parse_leaves_named {data : Bytes} {doc : Document} (h : parse data = .ok doc) :
    ∀ l ∈ doc.leaves, l.Named :=
  nodesLeaves_named doc.nodes (parse_wellFormed h) nofun

/-- What stands at the last leaf with that flattened path. -/
def Document.lastPayload (doc : Document) (path : Bytes) : Option Payload :=
  ((doc.leaves.filter fun l => l.text = path).map DocumentLeaf.payload).getLast?

theorem lastValue_flatten (doc : Document) (path : Bytes) :
    lastValue (flatten doc) path = (doc.lastPayload path).map Payload.text := by
  rw [lastValue, flatten_eq, List.filter_map, List.map_map, Document.lastPayload, ← List.getLast?_map,
    List.map_map]
  rfl

theorem mem_of_lastPayload {doc : Document} {path : Bytes} {payload : Payload}
    (h : doc.lastPayload path = some payload) :
    ∃ l ∈ doc.leaves, l.text = path ∧ l.payload = payload := by
  obtain ⟨l, hl, rfl⟩ := List.mem_map.mp (List.mem_of_getLast? h)
  obtain ⟨hmem, htext⟩ := List.mem_filter.mp hl
  exact ⟨l, hmem, of_decide_eq_true htext, rfl⟩

/-- The diff of two parsed documents without floats is empty if and only if at every flattened path
the same thing stands last in both. -/
theorem diff_eq_nil_iff {dataA dataB : Bytes} {a b : Document} (ha : parse dataA = .ok a)
    (hb : parse dataB = .ok b) (hfloatA : a.FloatFree) (hfloatB : b.FloatFree) :
    diff a b = [] ↔ ∀ path, a.lastPayload path = b.lastPayload path := by
  rw [diff, diffEntries_eq_nil]
  simp only [lastValue_flatten]
  refine forall_congr' fun path => ⟨fun h => ?_, fun h => by rw [h]⟩
  cases hpa : a.lastPayload path with
  | none =>
      rw [hpa, Option.map_none, eq_comm, Option.map_eq_none_iff] at h
      exact h.symm
  | some payload =>
      cases hpb : b.lastPayload path with
      | none =>
          rw [hpa, hpb] at h
          cases h
      | some payload' =>
          rw [hpa, hpb] at h
          obtain ⟨l, hl, htext, rfl⟩ := mem_of_lastPayload hpa
          obtain ⟨l', hl', htext', rfl⟩ := mem_of_lastPayload hpb
          exact congrArg some (payload_eq_of_entry (parse_leaves_named ha l hl)
            (parse_leaves_named hb l' hl') (nodesLeaves_floatFree a.nodes hfloatA l hl)
            (nodesLeaves_floatFree b.nodes hfloatB l' hl') (htext.trans htext'.symm)
            (Option.some.inj h))

/-- One assignment of `true` to `a.b`. -/
def isDotted : Outcome Document → Bool
  | .ok { nodes := [.assignment path (.bool true)] } => path = [ascii "a", ascii "b"]
  | _ => false

/-- One assignment of `true` to `b` in the block `a`. -/
def isNested : Outcome Document → Bool
  | .ok { nodes := [.block name none [.assignment path (.bool true)]] } =>
    name = ascii "a" ∧ path = [ascii "b"]
  | _ => false

/-- An assignment in a block, and one with a dotted path. -/
theorem nested_documents :
    (∃ a, parse (ascii "a.b=true;") = .ok a ∧
      a.nodes = [.assignment [ascii "a", ascii "b"] (.bool true)]) ∧
    ∃ b, parse (ascii "a\x7bb=true;\x7d") = .ok b ∧
      b.nodes = [.block (ascii "a") none [.assignment [ascii "b"] (.bool true)]] := by
  have hdotted : isDotted (parse (ascii "a.b=true;")) = true := by decide +kernel
  have hblock : isNested (parse (ascii "a\x7bb=true;\x7d")) = true := by decide +kernel
  unfold isDotted at hdotted
  unfold isNested at hblock
  constructor
  · split at hdotted
    · next path hparse =>
      cases of_decide_eq_true hdotted
      exact ⟨_, hparse, rfl⟩
    · cases hdotted
  · split at hblock
    · next name path hparse =>
      obtain ⟨rfl, rfl⟩ := of_decide_eq_true hblock
      exact ⟨_, hparse, rfl⟩
    · cases hblock

theorem diff_eq_nil_iff_nested : ∃ a b, parse (ascii "a.b=true;") = .ok a ∧
    parse (ascii "a\x7bb=true;\x7d") = .ok b ∧
    (diff a b = [] ↔ ∀ path, a.lastPayload path = b.lastPayload path) := by
  obtain ⟨⟨a, ha, hnodesA⟩, b, hb, hnodesB⟩ := nested_documents
  have hfloatA : a.FloatFree := by
    rw [Document.FloatFree, hnodesA]
    exact ⟨rfl, trivial⟩
  have hfloatB : b.FloatFree := by
    rw [Document.FloatFree, hnodesB]
    exact ⟨⟨rfl, trivial⟩, trivial⟩
  exact ⟨a, b, ha, hb, diff_eq_nil_iff ha hb hfloatA hfloatB⟩

/-- Two assignments of one path, or two blocks of one name and label. -/
def Node.SameSite : Node → Node → Prop
  | .assignment path _, .assignment path' _ => path = path'
  | .block name label _, .block name' label' _ => name = name' ∧ label = label'
  | _, _ => False

mutual

/-- No two nodes of one list stand at the same site. -/
def Node.Distinct : Node → Prop
  | .block _ _ children => NodesDistinct children
  | _ => True

def NodesDistinct : List Node → Prop
  | [] => True
  | node :: nodes => (∀ other ∈ nodes, ¬ node.SameSite other) ∧ node.Distinct ∧ NodesDistinct nodes

end

/-- A block has no differences to a dotted path, though the leaves stand in different places. -/
theorem diff_nested : ∃ a b, parse (ascii "a.b=true;") = .ok a ∧
    parse (ascii "a\x7bb=true;\x7d") = .ok b ∧ a.FloatFree ∧ b.FloatFree ∧
    NodesDistinct a.nodes ∧ NodesDistinct b.nodes ∧ diff a b = [] ∧
    ¬ ∀ l, l ∈ a.leaves ↔ l ∈ b.leaves := by
  obtain ⟨⟨a, ha, hnodesA⟩, b, hb, hnodesB⟩ := nested_documents
  obtain ⟨nodesA⟩ := a
  obtain ⟨nodesB⟩ := b
  cases hnodesA
  cases hnodesB
  refine ⟨_, _, ha, hb, ⟨rfl, trivial⟩, ⟨⟨rfl, trivial⟩, trivial⟩, ⟨nofun, trivial, trivial⟩,
    ⟨nofun, ⟨nofun, trivial, trivial⟩, trivial⟩, by decide, fun hsame => ?_⟩
  have hmem := (hsame ⟨[], [ascii "a", ascii "b"], [], .scalar (.bool true)⟩).mp List.mem_cons_self
  cases List.mem_singleton.mp hmem

end Bytewright.Cfgscript
