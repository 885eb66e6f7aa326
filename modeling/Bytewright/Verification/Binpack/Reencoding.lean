import Bytewright.Verification.Binpack.Accounting

/-! # A decoded record, encoded again -/

namespace Bytewright.Binpack

open Bytewright.Common Bytewright.Library

namespace Record

mutual

/-- The spec with the record's own members. -/
def toSpec : Record → RecordSpec
  | ⟨tag, group, i64, u64, f64, str, blob, children, key⟩ =>
    { tag, group, i64, u64, f64, str, blob, key, children := toSpecs children }

def toSpecs : List Record → List RecordSpec
  | [] => []
  | child :: children => child.toSpec :: toSpecs children

end

theorem toSpecs_eq_map (recs : List Record) : toSpecs recs = recs.map toSpec := by
  induction recs with
  | nil => rfl
  | cons rec recs ih => rw [toSpecs, ih, List.map_cons]

theorem children_toSpec (rec : Record) : rec.toSpec.children = rec.children.map toSpec := by
  cases rec
  exact toSpecs_eq_map _

end Record

/-- Encoded again, the record takes no more than these bytes, and is read back within `room` levels. -/
structure Normal (room : Nat) (bs : Bytes) (rec : Record) : Prop where
  unary : rec.toSpec.KeyvalsUnary
  same : rec.toSpec.toRecord = rec
  shorter : (encodeRecord rec.toSpec).length ≤ bs.length
  reads (base : Nat) : Reads (parseRecordIn room base) (encodeRecord rec.toSpec) rec

/-- The same of a record's payload. -/
structure NormalPayload (room : Nat) (payload : Bytes) (rec : Record) : Prop where
  unary : rec.toSpec.KeyvalsUnary
  same : rec.toSpec.toRecord = rec
  shorter : (encodeRecordPayload rec.toSpec).length ≤ payload.length
  children : ∀ child ∈ rec.children, child.toSpec.toRecord = child ∧
    ∀ base, Reads (parseRecordIn room base) (encodeRecord child.toSpec) child

section Pieces

variable {room : Nat} {pieces : List Bytes} {recs : List Record}

theorem allUnary_pieces (h : List.Forall₂ (Normal room) pieces recs) :
    RecordSpec.AllUnary (Record.toSpecs recs) := by
  induction h with
  | nil => trivial
  | cons hhead _ ih => exact ⟨hhead.unary, ih⟩

theorem toRecords_pieces (h : List.Forall₂ (Normal room) pieces recs) :
    RecordSpec.toRecords (Record.toSpecs recs) = recs := by
  induction h with
  | nil => rfl
  | cons hhead _ ih => rw [Record.toSpecs, RecordSpec.toRecords, hhead.same, ih]

theorem shorter_pieces (h : List.Forall₂ (Normal room) pieces recs) :
    ((Record.toSpecs recs).flatMap encodeRecord).length ≤ pieces.flatten.length := by
  induction h with
  | nil => simp [Record.toSpecs]
  | cons hhead _ ih =>
      rw [Record.toSpecs, List.flatMap_cons, List.flatten_cons, List.length_append, List.length_append]
      exact Nat.add_le_add hhead.shorter ih

theorem children_pieces (h : List.Forall₂ (Normal room) pieces recs) :
    ∀ child ∈ recs, child.toSpec.toRecord = child ∧
      ∀ base, Reads (parseRecordIn room base) (encodeRecord child.toSpec) child := by
  induction h with
  | nil => simp
  | cons hhead _ ih =>
      rw [List.forall_mem_cons]
      exact ⟨⟨hhead.same, hhead.reads⟩, ih⟩

end Pieces

theorem normalPayload_of_body {room : Nat} {group : Bool} {tag : RecordTag} {payload : Bytes}
    {rec : Record} (h : Body (Normal room) group tag payload rec) : NormalPayload room payload rec := by
  cases h with
  | @kInt bs pad u hspelled =>
      refine ⟨trivial, rfl, ?_, by simp⟩
      change (varintBytes (zigzag (unzigzag u))).length ≤ _
      rw [unzigzag, zigzag_unzigzag, List.length_append]
      exact (varintBytes_length_le_of_reads hspelled (Nat.le_refl _)).trans (Nat.le_add_right _ _)
  | @kUint bs pad u hspelled =>
      refine ⟨trivial, rfl, ?_, by simp⟩
      change (varintBytes u).length ≤ _
      rw [List.length_append]
      exact (varintBytes_length_le_of_reads hspelled (Nat.le_refl _)).trans (Nat.le_add_right _ _)
  | @kFloat bs pad hlength =>
      refine ⟨trivial, rfl, ?_, by simp⟩
      change (leBytes 8 (UInt64.ofNat (leValue bs)).toNat).length ≤ _
      rw [leBytes_length, List.length_append, hlength]
      exact Nat.le_add_right _ _
  | kString | kBlob => exact ⟨trivial, rfl, Nat.le_refl _, by simp⟩
  | @kArray bs pad count pieces children hcount hlength hall =>
      refine ⟨allUnary_pieces hall, ?_, ?_, children_pieces hall⟩
      · rw [Record.toSpec, RecordSpec.toRecord, toRecords_pieces hall]
      · have hchildren := shorter_pieces hall
        have hle : (UInt64.ofNat (Record.toSpecs children).length).toNat ≤ count.toNat := by
          rw [UInt64.toNat_ofNat', Record.toSpecs_eq_map, List.length_map, ← hall.length_eq, hlength]
          exact Nat.mod_le _ _
        have hcanonical := varintBytes_length_le_of_reads hcount hle
        rw [payload_kArray rfl]
        simp only [Record.toSpec, List.length_append]
        omega
  | kGroup hall =>
      refine ⟨allUnary_pieces hall, ?_, ?_, children_pieces hall⟩
      · rw [Record.toSpec, RecordSpec.toRecord, toRecords_pieces hall]
      · rw [payload_kGroup rfl]
        exact shorter_pieces hall
  | @kKeyval bs key piece keyLen value hlen hkey hvalue =>
      refine ⟨⟨rfl, hvalue.unary, trivial⟩, ?_, ?_, ?_⟩
      · rw [Record.toSpec, RecordSpec.toRecord, Record.toSpecs, Record.toSpecs, RecordSpec.toRecords,
          RecordSpec.toRecords, hvalue.same]
      · have hle : (UInt64.ofNat key.length).toNat ≤ keyLen.toNat := by
          rw [UInt64.toNat_ofNat', hkey]
          exact Nat.mod_le _ _
        have hcanonical := varintBytes_length_le_of_reads hlen hle
        have hshorter := hvalue.shorter
        rw [payload_kKeyval rfl rfl]
        simp only [Record.toSpec, List.length_append]
        omega
      · simpa using ⟨hvalue.same, hvalue.reads⟩

theorem Encodes.normal {room : Nat} {bs : Bytes} {rec : Record} (h : Encodes room bs rec) :
    Normal room bs rec := by
  induction room generalizing bs rec with
  | zero => cases h
  | succ room ih =>
      rcases h with ⟨f, tag, rfl, -, hbody⟩
      have hpayload := normalPayload_of_body (hbody.mono fun _ _ => ih)
      have hshorter := hpayload.shorter
      rw [f.declared] at hshorter
      have hlt : (encodeRecordPayload rec.toSpec).length < 2 ^ 64 := hshorter.trans_lt f.length.toNat_lt
      have hle : (UInt64.ofNat (encodeRecordPayload rec.toSpec).length).toNat ≤ f.length.toNat := by
        rwa [UInt64.toNat_ofNat_of_lt' hlt]
      have hcanonical := varintBytes_length_le_of_reads f.spelled hle
      refine ⟨hpayload.unary, hpayload.same, ?_, fun base => ?_⟩
      · rw [encodeRecord_eq, Frame.bytes]
        simp only [List.length_append, List.length_singleton, f.declared]
        omega
      · apply reads_parseRecordIn hlt
        intro inner
        have hread := @parsePayload_encoded inner (parseRecordIn room inner) rec.toSpec hpayload.unary hlt
        rw [hpayload.same] at hread
        apply hread
        intro c hc _
        rw [Record.children_toSpec] at hc
        rcases List.mem_map.mp hc with ⟨child, hchild, rfl⟩
        rcases hpayload.children child hchild with ⟨hsame, hreads⟩
        rw [hsame]
        exact hreads inner

/-- Whatever spelling a record was read off, its own encoding is no longer, and the same parser reads
the same record off it, to the last byte. -/
theorem parseRecord_reencoded {maxDepth base depth : Nat} {r s : ByteReader} {rec : Record}
    (h : parseRecord maxDepth base depth r = .ok rec s) (base' : Nat) :
    ∃ bs, r.rest = bs ++ s.rest ∧ s = r.advance bs.length ∧
      (encodeRecord rec.toSpec).length ≤ bs.length ∧
      parseRecord maxDepth base' depth { data := encodeRecord rec.toSpec } =
        .ok rec { data := encodeRecord rec.toSpec, pos := (encodeRecord rec.toSpec).length } := by
  rcases takes_parseRecordIn _ base r rec s h with ⟨bs, hr, hs, hencodes⟩
  have hnormal := hencodes.normal
  refine ⟨bs, hr, hs, hnormal.shorter, ?_⟩
  have hrun := (hnormal.reads base').run (List.append_nil (encodeRecord rec.toSpec)).symm
  simpa [ByteReader.advance, parseRecord] using hrun

/-- An ARRAY of one padded number, with a length and a count of two bytes each and a byte to spare. -/
def paddedArray : Bytes := [6, 0xFF, 0x89, 0x00] ++ [0x81, 0x00] ++ [2, 0, 3, 5, 0xAA, 0xBB] ++ [0xCC]

theorem parseRecord_reencoded_paddedArray :
    let array : Record := { tag := .kArray, group := true, children := [{ tag := .kUint, u64 := 5 }] }
    parseRecord 32 0 0 { data := [6, 1, 5, 1, 2, 0, 1, 5] } =
      .ok array { data := [6, 1, 5, 1, 2, 0, 1, 5], pos := 8 } := by
  intro array
  have hparsed : parseRecord 32 0 0 { data := paddedArray } = .ok array { data := paddedArray, pos := 13 } := rfl
  have hencoded : encodeRecord array.toSpec = [6, 1, 5, 1, 2, 0, 1, 5] := by decide +kernel
  rcases parseRecord_reencoded hparsed 0 with ⟨bs, -, -, -, hread⟩
  rw [hencoded] at hread
  exact hread

end Bytewright.Binpack
