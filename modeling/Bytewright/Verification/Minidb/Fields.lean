import Bytewright.Model.Minidb.Decoder
import Bytewright.Verification.Minidb.StringTable

/-! # The fields of a record -/

namespace Bytewright.Minidb

open Bytewright.Common Bytewright.Library

/-! ### Typed fields and their wire format -/

/-- A byte string whose size is a `std::size_t`. -/
abbrev SizedBytes := { bytes : Bytes // bytes.length < 2 ^ 64 }

/-- A field as it was meant. A float is its bit pattern. -/
inductive TypedField where
  | null
  | bool (b : Bool)
  | int (v : Int64)
  | uint (v : UInt64)
  | float (bits : UInt64)
  | stringRef (id : UInt64)
  | inlineString (str : SizedBytes)
  | blob (bytes : SizedBytes)

namespace TypedField

def type : TypedField → FieldType
  | null => .kNull
  | bool _ => .kBool
  | int _ => .kInt
  | uint _ => .kUint
  | float _ => .kFloat
  | stringRef _ => .kStringRef
  | inlineString _ => .kInlineString
  | blob _ => .kBlob

/-- The bytes behind the tag. -/
def payload : TypedField → Bytes
  | null => []
  | bool b => [if b then 1 else 0]
  | int v => varintBytes (zigzag v)
  | uint v => varintBytes v
  | float bits => leBytes 8 bits.toNat
  | stringRef id => varintBytes id
  | inlineString str => entryBytes str
  | blob bytes => entryBytes bytes

/-- The field that is decoded. A reference is resolved if its id is below the size of the table. -/
def field (table : List Bytes) : TypedField → Field
  | null => { type := .kNull }
  | bool b => { type := .kBool, b }
  | int v => { type := .kInt, i64 := v }
  | uint v => { type := .kUint, u64 := v }
  | float bits => { type := .kFloat, f64 := bits }
  | stringRef id =>
    if h : id.toNat < table.length then
      { type := .kStringRef, refId := id, str := table[id.toNat], refResolved := true }
    else { type := .kStringRef, refId := id, refResolved := false }
  | inlineString str => { type := .kInlineString, str := str.val }
  | blob bytes => { type := .kBlob, blob := bytes.val }

end TypedField

def tagOf : FieldType → UInt8
  | .kNull => 0
  | .kBool => 1
  | .kInt => 2
  | .kUint => 3
  | .kFloat => 4
  | .kStringRef => 5
  | .kInlineString => 6
  | .kBlob => 7

def fieldBytes (f : TypedField) : Bytes := tagOf f.type :: f.payload

/-- The count, then tag and payload for each field. -/
def recordBytes (fields : List TypedField) : Bytes :=
  varintBytes (UInt64.ofNat fields.length) ++ fields.flatMap fieldBytes

/-! ### One field -/

/-- What is read behind a tag that names a type. -/
def readPayload (table : List Bytes) : FieldType → Reader Field
  | .kNull => return { type := .kNull }
  | .kBool => return { type := .kBool, b := (← readU8) ≠ 0 }
  | .kInt => return { type := .kInt, i64 := ← readSvarint }
  | .kUint => return { type := .kUint, u64 := ← readVarint }
  | .kFloat => return { type := .kFloat, f64 := ← readU64le }
  | .kStringRef => do
    let refId ← readVarint
    match table[refId.toNat]? with
    | some str => return { type := .kStringRef, refId, str, refResolved := true }
    | none => return { type := .kStringRef, refId, refResolved := false }
  | .kInlineString => return { type := .kInlineString, str := ← readLenprefixed }
  | .kBlob => return { type := .kBlob, blob := ← readLenprefixed }

variable {table : List Bytes}

theorem decodeField_eq (table : List Bytes) : decodeField table = (do
    let r ← get
    let tag ← readU8
    match FieldType.ofByte? tag with
    | some type => readPayload table type
    | none => raise .kBadType r.pos "unknown minidb field type") := by
  rw [decodeField]
  apply bind_congr
  intro r
  apply bind_congr
  intro tag
  cases FieldType.ofByte? tag with
  | none => rfl
  | some type => cases type <;> rfl

theorem ofByte?_tagOf (type : FieldType) : FieldType.ofByte? (tagOf type) = some type := by
  cases type <;> rfl

theorem exact_readStringEntry : Exact readStringEntry := by
  rw [readStringEntry_eq]
  exact exact_readBody

theorem exact_readPayload (table : List Bytes) (type : FieldType) : Exact (readPayload table type) := by
  cases type with
  | kNull => exact Exact.pure _
  | kBool => exact Exact.readU8.map (fun b => { type := .kBool, b := b ≠ 0 : Field })
  | kInt => exact (exact_readVarint.map _).map (fun v => { type := .kInt, i64 := v : Field })
  | kUint => exact exact_readVarint.map (fun v => { type := .kUint, u64 := v : Field })
  | kFloat => exact ((Exact.readRaw 8).map _).map (fun v => { type := .kFloat, f64 := v : Field })
  | kStringRef =>
      apply exact_readVarint.bind
      intro refId
      cases table[refId.toNat]? with
      | none => exact Exact.pure _
      | some str => exact Exact.pure _
  | kInlineString => exact exact_readStringEntry.map (fun str => { type := .kInlineString, str : Field })
  | kBlob => exact exact_readStringEntry.map (fun blob => { type := .kBlob, blob : Field })

theorem reads_readPayload (table : List Bytes) (f : TypedField) :
    Reads (readPayload table f.type) f.payload (f.field table) := by
  cases f with
  | null => exact Reads.pure _
  | bool b =>
      have h : ∀ v, Reads (readPayload table .kBool) [v] { type := .kBool, b := v ≠ 0 } := fun v =>
        (reads_readU8 v).map (fun v : UInt8 => { type := .kBool, b := v ≠ 0 : Field })
      cases b
      · exact h 0
      · exact h 1
  | int v => exact (reads_readSvarint v).map (fun v => { type := .kInt, i64 := v : Field })
  | uint v => exact (reads_readVarint v).map (fun v => { type := .kUint, u64 := v : Field })
  | float bits => exact (reads_readU64le bits).map (fun v => { type := .kFloat, f64 := v : Field })
  | stringRef id =>
      apply (reads_readVarint id).bind_last
      rw [TypedField.field]
      by_cases h : id.toNat < table.length
      · rw [dif_pos h, List.getElem?_eq_getElem h]
        exact Reads.pure _
      · rw [dif_neg h, List.getElem?_eq_none (Nat.le_of_not_lt h)]
        exact Reads.pure _
  | inlineString str =>
      exact (spells_entryBytes str.property).reads.map (fun str => { type := .kInlineString, str : Field })
  | blob bytes =>
      exact (spells_entryBytes bytes.property).reads.map (fun blob => { type := .kBlob, blob : Field })

theorem reads_decodeField (table : List Bytes) (f : TypedField) :
    Reads (decodeField table) (fieldBytes f) (f.field table) := by
  rw [decodeField_eq]
  apply Reads.get_bind
  intro r
  apply (reads_readU8 (tagOf f.type)).bind
  rw [ofByte?_tagOf]
  exact reads_readPayload table f

theorem starves_decodeField (table : List Bytes) (f : TypedField) :
    Starves (decodeField table) (fieldBytes f) := by
  rw [decodeField_eq]
  intro r
  refine Starves.bind (reads_readU8 (tagOf f.type)) (starves_readU8 _) ?_ r
  rw [ofByte?_tagOf]
  exact (exact_readPayload table f.type).starves (reads_readPayload table f)

/-! ### The record -/

theorem reads_decodeFields (table : List Bytes) (fields : List TypedField) :
    Reads (decodeFields table fields.length) (fields.flatMap fieldBytes)
      (fields.map (TypedField.field table)) := by
  induction fields with
  | nil => exact Reads.pure []
  | cons f fields ih =>
      rw [List.flatMap_cons, List.length_cons, decodeFields]
      exact (reads_decodeField table f).bind (ih.map (f.field table :: ·))

theorem starves_decodeFields (table : List Bytes) (fields : List TypedField) :
    Starves (decodeFields table fields.length) (fields.flatMap fieldBytes) := by
  induction fields with
  | nil =>
      intro r hr hne
      exact absurd (List.prefix_nil.mp hr) hne
  | cons f fields ih =>
      rw [List.flatMap_cons, List.length_cons, decodeFields]
      exact Starves.bind (reads_decodeField table f) (starves_decodeField table f)
        (ih.map (f.field table :: ·))

/-- The body of `decode_record`. -/
def readRecord (table : List Bytes) : Reader Record := do
  let fieldCount ← readVarint
  let fields ← decodeFields table fieldCount.toNat
  return { fields }

theorem decodeRecord_of_ok {record : Bytes} {r : Record} {s : ByteReader}
    (h : readRecord table { data := record } = .ok r s) : decodeRecord record table = .ok r := by
  rw [readRecord] at h
  simp only [decodeRecord, h]

theorem decodeRecord_of_error {record : Bytes} {e : Fault} {s : ByteReader}
    (h : readRecord table { data := record } = .error e s) : decodeRecord record table = .error e := by
  rw [readRecord] at h
  simp only [decodeRecord, h]

theorem toNat_count {fields : List TypedField} (h : fields.length < 2 ^ 64) :
    (UInt64.ofNat fields.length).toNat = fields.length :=
  UInt64.toNat_ofNat_of_lt' h

theorem reads_readRecord (table : List Bytes) {fields : List TypedField} (h : fields.length < 2 ^ 64) :
    Reads (readRecord table) (recordBytes fields) { fields := fields.map (TypedField.field table) } := by
  apply (reads_readVarint _).bind
  rw [toNat_count h]
  exact (reads_decodeFields table fields).map (fun fields => { fields : Record })

theorem starves_readRecord (table : List Bytes) {fields : List TypedField} (h : fields.length < 2 ^ 64) :
    Starves (readRecord table) (recordBytes fields) := by
  have hcount := reads_readVarint (UInt64.ofNat fields.length)
  apply Starves.bind hcount (exact_readVarint.starves hcount)
  rw [toNat_count h]
  exact (starves_decodeFields table fields).map (fun fields => { fields : Record })

/-- A record is decoded from its encoding, whatever follows, and from no strict prefix of it. -/
theorem decodeRecord_recordBytes (table : List Bytes) {fields : List TypedField}
    (hcount : fields.length < 2 ^ 64) :
    (∀ trailing, decodeRecord (recordBytes fields ++ trailing) table =
      .ok { fields := fields.map (TypedField.field table) }) ∧
    ∀ cut, cut <+: recordBytes fields → cut ≠ recordBytes fields →
      ∃ e, decodeRecord cut table = .error (.thrown e) := by
  constructor
  · intro trailing
    exact decodeRecord_of_ok ((reads_readRecord table hcount).run rfl)
  · intro cut hcut hne
    rcases starves_readRecord table hcount { data := cut } hcut hne with ⟨i, what, s, h⟩
    exact ⟨_, decodeRecord_of_error h⟩

/-- One field of each type, and a reference that leads nowhere. -/
def sampleFields : List TypedField :=
  [.null, .bool true, .int (-3), .uint 300, .float 0x3FF8000000000000, .stringRef 0, .stringRef 9,
    .inlineString ⟨ascii "hi", by decide⟩, .blob ⟨[0, 255], by decide⟩]

theorem decodeRecord_sampleFields :
    (∀ trailing, decodeRecord (recordBytes sampleFields ++ trailing) [ascii "a"] =
      .ok { fields := sampleFields.map (TypedField.field [ascii "a"]) }) ∧
    ∀ cut, cut <+: recordBytes sampleFields → cut ≠ recordBytes sampleFields →
      ∃ e, decodeRecord cut [ascii "a"] = .error (.thrown e) :=
  decodeRecord_recordBytes [ascii "a"] (by decide)

end Bytewright.Minidb
