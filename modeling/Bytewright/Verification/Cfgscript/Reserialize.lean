import Bytewright.Verification.Cfgscript.Evaluation
import Bytewright.Verification.Cfgscript.Statements

/-! # Serializing and parsing again

A parsed document, and a value of its own. -/

namespace Bytewright.Cfgscript

open Bytewright.Common

/-- The serializer writes canonical text for a document without floats. -/
theorem spells_serialize {doc : Document} {room : Nat} (hfloat : doc.FloatFree)
    (hwf : NodesWellFormed room doc.nodes) (opts : SerializeOptions) :
    Spells (.nodes doc.nodes) (serialize doc opts) := by
  have h := spells_nodes opts 0 doc.nodes hfloat hwf Blank.nil
  rwa [List.append_nil] at h

/-- A parsed document without floats is parsed back from its own text if and only if every value in it
fits: the least integer does not, and neither does a value nested too deep for a literal. -/
theorem parse_serialize_iff {data : Bytes} {doc : Document} (h : parse data = .ok doc)
    (hfloat : doc.FloatFree) (opts : SerializeOptions) :
    parse (serialize doc opts) = .ok doc ↔ NodesFit doc.nodes := by
  have hwf := parse_wellFormed h
  obtain ⟨hok, herror⟩ := parse_text (spells_serialize hfloat hwf opts) hwf
  constructor
  · intro hparse
    by_contra hfits
    obtain ⟨e, he⟩ := herror hfits
    rw [hparse] at he
    cases he
  · exact hok

/-- One assignment of an object with one field, an array of a negative integer that has a literal. -/
def assignsNegative : Outcome Document → Bool
  | .ok { nodes := [.assignment _ (.object [(_, .array [.int i])])] } => i < 0 && i != kInt64Min
  | _ => false

/-- The object is written and parsed again. -/
theorem parse_serialize_iff_negative : ∃ doc, parse (ascii "x={a=[-7];};") = .ok doc ∧
    parse (serialize doc {}) = .ok doc := by
  have hrun : assignsNegative (parse (ascii "x={a=[-7];};")) = true := by decide +kernel
  unfold assignsNegative at hrun
  split at hrun
  · next path key i hparse =>
    have hi : i ≠ kInt64Min := bne_iff_ne.mp (Bool.and_eq_true_iff.mp hrun).2
    have hfits : (Value.object [(key, .array [.int i])]).fits kMaxDepth = true := by
      simp [Value.fits, fieldsFit, elementsFit, hi, kMaxDepth]
    have hfloat : (Value.object [(key, .array [.int i])]).FloatFree := ⟨trivial, ⟨rfl, trivial⟩, trivial⟩
    exact ⟨_, hparse, (parse_serialize_iff hparse ⟨hfloat, trivial⟩ {}).mpr ⟨hfits, trivial⟩⟩
  · cases hrun

/-- One assignment of an integer whose text is not parsed. -/
def assignsUnspelled : Outcome Document → Bool
  | .ok { nodes := [.assignment path (.int i)] } =>
    !(parse (serialize { nodes := [.assignment path (.int i)] } {})).isOk
  | _ => false

/-- A shift makes the least integer, which no literal spells. -/
theorem parse_serialize_least : ∃ doc, parse (ascii "x=1<<63;") = .ok doc ∧ doc.FloatFree ∧
    parse (serialize doc {}) ≠ .ok doc := by
  have hrun : assignsUnspelled (parse (ascii "x=1<<63;")) = true := by decide +kernel
  unfold assignsUnspelled at hrun
  split at hrun
  · next path i hparse =>
    refine ⟨_, hparse, ⟨rfl, trivial⟩, fun hagain => ?_⟩
    rw [hagain] at hrun
    cases hrun
  · cases hrun

/-! ### The text of one value -/

mutual

/-- How deep arrays and objects are nested in a value. -/
def Value.aggregates : Value → Nat
  | .array vs => elementsAggregates vs + 1
  | .object fields => fieldsAggregates fields + 1
  | _ => 0

def elementsAggregates : List Value → Nat
  | [] => 0
  | v :: vs => max v.aggregates (elementsAggregates vs)

def fieldsAggregates : List (Bytes × Value) → Nat
  | [] => 0
  | (_, v) :: fields => max v.aggregates (fieldsAggregates fields)

end

/-- No integer inside is the least one, which has no literal. -/
abbrev Value.Literal (v : Value) : Prop :=
  v.All (fun w => ∀ i, w = .int i → i ≠ kInt64Min) fun _ => True

mutual

/-- Two levels for every aggregate, and three for what is inside the innermost one. -/
theorem fits_of_aggregates : ∀ (v : Value) (room : Nat), v.Literal → 2 * v.aggregates + 3 ≤ room →
    v.fits room = true
  | .null, room, _, hroom | .bool _, room, _, hroom | .float _, room, _, hroom
  | .str _, room, _, hroom => by
      have hroom : 2 ≤ room := by omega
      simpa [Value.fits] using hroom
  | .int i, room, hint, hroom => by
      have hne : i ≠ kInt64Min := hint i rfl
      have hroom : 3 ≤ room := by omega
      simp [Value.fits, hne, hroom, Nat.le_of_succ_le hroom]
  | .array vs, room, hints, hroom => by
      rw [Value.aggregates] at hroom
      have hvs := elementsFit_of_aggregates vs (room - 2) hints (by omega)
      have hroom : 2 ≤ room := by omega
      simp [Value.fits, hroom, hvs]
  | .object fields, room, hints, hroom => by
      rw [Value.aggregates] at hroom
      have hfields := fieldsFit_of_aggregates fields (room - 2) hints (by omega)
      have hroom : 2 ≤ room := by omega
      simp [Value.fits, hroom, hfields]

theorem elementsFit_of_aggregates : ∀ (vs : List Value) (room : Nat), (Value.array vs).Literal →
    2 * elementsAggregates vs + 3 ≤ room → elementsFit room vs = true
  | [], _, _, _ => rfl
  | v :: vs, room, hints, hroom => by
      rw [elementsAggregates] at hroom
      have hv := fits_of_aggregates v room hints.1 (by omega)
      have hvs := elementsFit_of_aggregates vs room hints.2 (by omega)
      rw [elementsFit, hv, hvs]
      rfl

theorem fieldsFit_of_aggregates : ∀ (fields : List (Bytes × Value)) (room : Nat),
    (Value.object fields).Literal → 2 * fieldsAggregates fields + 3 ≤ room →
    fieldsFit room fields = true
  | [], _, _, _ => rfl
  | (_, v) :: fields, room, hints, hroom => by
      rw [fieldsAggregates] at hroom
      have hv := fits_of_aggregates v room hints.2.1 (by omega)
      have hfields := fieldsFit_of_aggregates fields room hints.2.2 (by omega)
      rw [fieldsFit, hv, hfields]
      rfl

end

/-- A value that fits is parsed back from an assignment of its text. -/
theorem parse_assigned {name : Bytes} {v : Value} (hname : IsName name) (hfloat : v.FloatFree)
    (hkeyed : v.Keyed) (hfits : v.fits kMaxDepth = true) (opts : SerializeOptions) :
    parse (name ++ ascii " = " ++ serializeValue v opts ++ ascii ";") =
      .ok { nodes := [.assignment [name] v] } := by
  have hnames : ∀ part ∈ [name], IsName part := by simpa using hname
  have hspells := Spells.nodes .nil (.assignment (List.cons_ne_nil name []) hnames
    (spells_value opts 0 v hfloat hkeyed)) (.noNodes .nil)
  have hwf : NodesWellFormed kMaxDepth [.assignment [name] v] :=
    ⟨⟨by decide, List.cons_ne_nil name [], hnames, hkeyed⟩, trivial⟩
  have hparse := (parse_text hspells hwf).1 ⟨hfits, trivial⟩
  simpa [renderPath, serializeValue, ascii, ch, Char.toUInt8] using hparse

theorem isName_x : IsName (ascii "x") where
  start := ⟨ch 'x', [], rfl, by decide +kernel⟩
  part := by decide +kernel
  notKeyword := by decide +kernel

/-- A value without floats and without the least integer is parsed back from its text, if no more
than 30 aggregates are nested in it. -/
theorem parse_serializeValue {v : Value} (hfloat : v.FloatFree) (hints : v.Literal) (hkeyed : v.Keyed)
    (hdepth : v.aggregates ≤ 30) (opts : SerializeOptions) :
    parse (ascii "x = " ++ serializeValue v opts ++ ascii ";") =
      .ok { nodes := [.assignment [ascii "x"] v] } := by
  have hroom : 2 * v.aggregates + 3 ≤ kMaxDepth := by
    rw [kMaxDepth]
    omega
  exact parse_assigned isName_x hfloat hkeyed (fits_of_aggregates v _ hints hroom) opts

/-- A negative integer, and an object with a string that holds a quote. -/
def nestedValue : Value := .array [.int (-7), .object [(ascii "x", .str (ascii "\""))]]

theorem parse_serializeValue_nested :
    parse (ascii "x = " ++ serializeValue nestedValue { inlineThreshold := 1 } ++ ascii ";") =
      .ok { nodes := [.assignment [ascii "x"] nestedValue] } := by
  have hints : nestedValue.Literal := by
    refine ⟨fun i hi => ?_, ⟨trivial, nofun, trivial⟩, trivial⟩
    cases hi
    decide
  have hfloat : nestedValue.FloatFree := ⟨rfl, ⟨trivial, rfl, trivial⟩, trivial⟩
  have hkeyed : nestedValue.Keyed := ⟨trivial, ⟨isName_x, trivial, trivial⟩, trivial⟩
  exact parse_serializeValue hfloat hints hkeyed (by decide) _

end Bytewright.Cfgscript
