import Bytewright.Model.Binpack.Builder
import Bytewright.Model.Binpack.RecordParser
import Bytewright.Verification.Common.Varint

/-! # Record trees on the wire -/

namespace Bytewright.Binpack

open Bytewright.Common Bytewright.Library

/-! ### Trees of specs

Only the members that `tag` selects count, so the children of a scalar do not. -/

namespace RecordSpec

mutual

/-- How many levels of records lie below this one. -/
def height : RecordSpec → Nat
  | ⟨tag, _, _, _, _, _, _, _, children⟩ =>
    match tag with
    | .kArray | .kGroup | .kKeyval => levels children
    | _ => 0

def levels : List RecordSpec → Nat
  | [] => 0
  | child :: children => max (child.height + 1) (levels children)

end

mutual

/-- Every KEYVAL of the tree has exactly one child. -/
def KeyvalsUnary : RecordSpec → Prop
  | ⟨tag, _, _, _, _, _, _, _, children⟩ =>
    match tag with
    | .kArray | .kGroup => AllUnary children
    | .kKeyval => children.length = 1 ∧ AllUnary children
    | _ => True

def AllUnary : List RecordSpec → Prop
  | [] => True
  | child :: children => child.KeyvalsUnary ∧ AllUnary children

end

mutual

/-- The record a spec describes. -/
def toRecord : RecordSpec → Record
  | ⟨tag, group, i64, u64, f64, str, blob, key, children⟩ =>
    match tag with
    | .kInt => { tag := .kInt, group, i64 }
    | .kUint => { tag := .kUint, group, u64 }
    | .kFloat => { tag := .kFloat, group, f64 }
    | .kString => { tag := .kString, group, str }
    | .kBlob => { tag := .kBlob, group, blob }
    | .kArray => { tag := .kArray, group, children := toRecords children }
    | .kGroup => { tag := .kGroup, group, children := toRecords children }
    | .kKeyval => { tag := .kKeyval, group, key, children := toRecords children }

def toRecords : List RecordSpec → List Record
  | [] => []
  | child :: children => child.toRecord :: toRecords children

end

theorem toRecords_eq_map (recs : List RecordSpec) : toRecords recs = recs.map toRecord := by
  induction recs with
  | nil => rfl
  | cons rec recs ih => rw [toRecords, ih, List.map_cons]

theorem allUnary_iff (recs : List RecordSpec) :
    AllUnary recs ↔ ∀ rec ∈ recs, rec.KeyvalsUnary := by
  induction recs with
  | nil => simp [AllUnary]
  | cons rec recs ih => simp [AllUnary, ih]

theorem height_lt_levels {recs : List RecordSpec} {rec : RecordSpec} (h : rec ∈ recs) :
    rec.height < levels recs := by
  induction recs with
  | nil => cases h
  | cons head recs ih =>
      rw [levels]
      cases h with
      | head => exact Nat.lt_of_succ_le (Nat.le_max_left ..)
      | tail _ h => exact (ih h).trans_le (Nat.le_max_right ..)

mutual

/-- Induction over a tree of specs. -/
theorem treeInduction {P : RecordSpec → Prop}
    (step : ∀ rec : RecordSpec, (∀ c ∈ rec.children, P c) → P rec) : ∀ rec, P rec
  | ⟨_, _, _, _, _, _, _, _, children⟩ => step _ (forestInduction step children)

theorem forestInduction {P : RecordSpec → Prop}
    (step : ∀ rec : RecordSpec, (∀ c ∈ rec.children, P c) → P rec) :
    ∀ recs : List RecordSpec, ∀ c ∈ recs, P c
  | [], _, h => absurd h List.not_mem_nil
  | rec :: recs, c, h => by
      cases h with
      | head => exact treeInduction step rec
      | tail _ h => exact forestInduction step recs c h

end

end RecordSpec

/-! ### What the encoder writes -/

theorem putRecord_buffer (w : ByteWriter) (tag : RecordTag) (group : Bool) (payload : Bytes) :
    (putRecord w tag group payload).buffer =
      w.buffer ++ (putRecord {} tag group payload).buffer := by
  simp [putRecord, ByteWriter.putU8, ByteWriter.putVarint, ByteWriter.putBytes]

theorem encodeRecordsInto_buffer (w : ByteWriter) (recs : List RecordSpec) :
    (encodeRecordsInto w recs).buffer = w.buffer ++ recs.flatMap encodeRecord := by
  induction recs generalizing w with
  | nil => simp [encodeRecordsInto]
  | cons rec recs ih =>
      rw [encodeRecordsInto, ih, putRecord_buffer, List.flatMap_cons, List.append_assoc]
      rfl

theorem encodeRecord_eq (rec : RecordSpec) :
    encodeRecord rec = [rec.tag.byte] ++ ([if rec.group then 0x01 else 0x00] ++
      (varintBytes (UInt64.ofNat (encodeRecordPayload rec).length) ++ encodeRecordPayload rec)) := by
  simp [encodeRecord, putRecord, ByteWriter.putU8, ByteWriter.putVarint, ByteWriter.putBytes]

theorem encodeRecord_ne_nil (rec : RecordSpec) : encodeRecord rec ≠ [] := by
  rw [encodeRecord_eq]
  exact List.cons_ne_nil _ _

theorem payload_kArray {rec : RecordSpec} (h : rec.tag = .kArray) :
    encodeRecordPayload rec =
      varintBytes (UInt64.ofNat rec.children.length) ++ rec.children.flatMap encodeRecord := by
  cases rec
  cases h
  exact encodeRecordsInto_buffer _ _

theorem payload_kGroup {rec : RecordSpec} (h : rec.tag = .kGroup) :
    encodeRecordPayload rec = rec.children.flatMap encodeRecord := by
  cases rec
  cases h
  exact encodeRecordsInto_buffer {} _

theorem payload_kKeyval {rec value : RecordSpec} (h : rec.tag = .kKeyval)
    (hone : rec.children = [value]) :
    encodeRecordPayload rec =
      varintBytes (UInt64.ofNat rec.key.length) ++ (rec.key ++ encodeRecord value) := by
  cases rec
  cases h
  cases hone
  change (putRecord _ value.tag value.group (encodeRecordPayload value)).buffer = _
  rw [putRecord_buffer, ← List.append_assoc]
  rfl

theorem payload_length_le (rec : RecordSpec) :
    (encodeRecordPayload rec).length ≤ (encodeRecord rec).length := by
  rw [encodeRecord_eq]
  simp only [List.length_append]
  omega

/-- A record among others is no longer than all of them together. -/
theorem encodeRecord_length_le {recs : List RecordSpec} {rec : RecordSpec} (h : rec ∈ recs) :
    (encodeRecord rec).length ≤ (recs.flatMap encodeRecord).length := by
  exact (List.sublist_flatten_of_mem (List.mem_map_of_mem h)).length_le

/-! ### Loops of reads -/

section Loops

variable {α β : Type} {m : Reader β} {enc : α → Bytes} {val : α → β}

theorem reads_readTimes {xs : List α} (h : ∀ x ∈ xs, Reads m (enc x) (val x)) :
    Reads (readTimes m xs.length) (xs.flatMap enc) (xs.map val) := by
  induction xs with
  | nil => exact Reads.pure []
  | cons x xs ih =>
      have hx := h x (List.mem_cons_self ..)
      have hxs := ih fun y hy => h y (List.mem_cons_of_mem x hy)
      rw [List.length_cons, readTimes, List.flatMap_cons, List.map_cons,
        ← List.append_nil (xs.flatMap enc)]
      exact hx.bind (hxs.bind (Reads.pure _))

/-- The record loop takes what is in front of it, to the end of its buffer. -/
theorem streamLoop_run {xs : List α} (h : ∀ x ∈ xs, Reads m (enc x) (val x))
    (hne : ∀ x ∈ xs, enc x ≠ []) {fuel : Nat} (hfuel : xs.length < fuel) {r : ByteReader}
    (hr : r.rest = xs.flatMap enc) :
    ∃ s, streamLoop m fuel r = .ok (xs.map val) s := by
  induction xs generalizing fuel r with
  | nil =>
      obtain ⟨fuel, rfl⟩ := Nat.exists_eq_add_of_lt hfuel
      have heof : r.eof = true := r.eof_iff.mpr hr
      exact ⟨r, by simp [streamLoop, bind_run, heof]⟩
  | cons x xs ih =>
      cases fuel with
      | zero => exact absurd hfuel (Nat.not_lt_zero _)
      | succ fuel =>
          rw [List.flatMap_cons] at hr
          have heof : r.eof = false := by
            rw [r.eof_eq_isEmpty, hr, List.isEmpty_eq_false_iff]
            exact List.append_ne_nil_of_left_ne_nil (hne x (List.mem_cons_self ..)) _
          have hx := h x (List.mem_cons_self ..) r _ hr
          have hrest : (r.advance (enc x).length).rest = xs.flatMap enc := by simp [hr]
          rcases ih (fun y hy => h y (List.mem_cons_of_mem x hy))
            (fun y hy => hne y (List.mem_cons_of_mem x hy)) (Nat.lt_of_succ_lt_succ hfuel) hrest
            with ⟨s, hs⟩
          refine ⟨s, ?_⟩
          simp only [streamLoop, bind_run, get_run, heof, Bool.false_eq_true, if_false, hx, hs]
          rfl

theorem streamOf_run {xs : List α} (h : ∀ x ∈ xs, Reads m (enc x) (val x))
    (hne : ∀ x ∈ xs, enc x ≠ []) {r : ByteReader} (hr : r.rest = xs.flatMap enc) :
    ∃ s, streamOf m r = .ok (xs.map val) s := by
  have hlen := length_le_flatMap hne
  rw [streamOf, bind_run, get_run]
  exact streamLoop_run h hne (by rw [r.remaining_eq, hr]; omega) hr

end Loops

/-! ### Reading a record back -/

@[simp] theorem RecordTag.ofByte?_byte (tag : RecordTag) : RecordTag.ofByte? tag.byte = some tag := by
  cases tag <;> rfl

/-- A record in front of the cursor is read by its header and the payload reader. -/
theorem reads_parseRecordIn {room base : Nat} {rec : RecordSpec} {out : Record}
    (hlen : (encodeRecordPayload rec).length < 2 ^ 64)
    (hpayload : ∀ inner, ∃ s,
      parsePayload inner (parseRecordIn room inner) { tag := rec.tag, group := rec.group }
        { data := encodeRecordPayload rec } = .ok out s) :
    Reads (parseRecordIn (room + 1) base) (encodeRecord rec) out := by
  have hn : (UInt64.ofNat (encodeRecordPayload rec).length).toNat =
      (encodeRecordPayload rec).length :=
    UInt64.toNat_ofNat_of_lt' hlen
  have hgroup : decide ((if rec.group then 0x01 else 0x00 : UInt8) &&& 0x01 ≠ 0) = rec.group := by
    cases rec.group <;> rfl
  rw [encodeRecord_eq, parseRecordIn]
  apply Reads.get_bind
  intro r
  apply Reads.bind (reads_readU8 rec.tag.byte)
  apply Reads.bind (reads_readU8 _)
  rw [RecordTag.ofByte?_byte]
  apply Reads.bind (reads_readVarint _)
  apply Reads.get_bind
  intro r'
  rw [hn, hgroup]
  apply Reads.bind_last (reads_readRaw _)
  rcases hpayload (base + r'.pos) with ⟨s, hs⟩
  rw [readWithin, hs]
  exact Reads.pure out

section Payload

variable {base : Nat} {nested : Reader Record} {group : Bool}

/-- A payload whose reader takes exactly its bytes. -/
theorem parsePayload_of_reads {rec out : Record} {bs : Bytes}
    (h : Reads (parsePayload base nested rec) bs out) :
    ∃ s, parsePayload base nested rec { data := bs } = .ok out s :=
  ⟨_, h { data := bs } [] (by simp)⟩

theorem parsePayload_kInt (v : Int64) :
    Reads (parsePayload base nested { tag := .kInt, group }) (varintBytes (zigzag v))
      { tag := .kInt, group, i64 := v } :=
  (reads_readSvarint v).bind_last (Reads.pure _)

theorem parsePayload_kUint (v : UInt64) :
    Reads (parsePayload base nested { tag := .kUint, group }) (varintBytes v)
      { tag := .kUint, group, u64 := v } :=
  (reads_readVarint v).bind_last (Reads.pure _)

theorem parsePayload_kFloat (v : UInt64) :
    Reads (parsePayload base nested { tag := .kFloat, group }) (leBytes 8 v.toNat)
      { tag := .kFloat, group, f64 := v } :=
  (reads_readU64le v).bind_last (Reads.pure _)

theorem parsePayload_kArray {recs : List RecordSpec} (hlen : recs.length < 2 ^ 64)
    (h : ∀ c ∈ recs, Reads nested (encodeRecord c) c.toRecord) :
    Reads (parsePayload base nested { tag := .kArray, group })
      (varintBytes (UInt64.ofNat recs.length) ++ recs.flatMap encodeRecord)
      { tag := .kArray, group, children := RecordSpec.toRecords recs } := by
  have hn : (UInt64.ofNat recs.length).toNat = recs.length :=
    UInt64.toNat_ofNat_of_lt' hlen
  rw [RecordSpec.toRecords_eq_map]
  apply Reads.bind (reads_readVarint _)
  rw [hn]
  exact (reads_readTimes h).bind_last (Reads.pure _)

theorem parsePayload_kGroup {recs : List RecordSpec}
    (h : ∀ c ∈ recs, Reads nested (encodeRecord c) c.toRecord) :
    ∃ s, parsePayload base nested { tag := .kGroup, group } { data := recs.flatMap encodeRecord } =
      .ok { tag := .kGroup, group, children := RecordSpec.toRecords recs } s := by
  rcases streamOf_run h (fun c _ => encodeRecord_ne_nil c) (r := { data := recs.flatMap encodeRecord })
    rfl with ⟨s, hs⟩
  rw [RecordSpec.toRecords_eq_map]
  exact ⟨s, bind_of_ok hs⟩

/-- The value of a KEYVAL has to end where the payload does. -/
theorem parsePayload_kKeyval {key : Bytes} {value : RecordSpec} (hlen : key.length < 2 ^ 64)
    (h : Reads nested (encodeRecord value) value.toRecord) :
    ∃ s, parsePayload base nested { tag := .kKeyval, group }
        { data := varintBytes (UInt64.ofNat key.length) ++ (key ++ encodeRecord value) } =
      .ok { tag := .kKeyval, group, key, children := [value.toRecord] } s := by
  have hn : (UInt64.ofNat key.length).toNat = key.length :=
    UInt64.toNat_ofNat_of_lt' hlen
  let start : ByteReader :=
    { data := varintBytes (UInt64.ofNat key.length) ++ (key ++ encodeRecord value) }
  let afterLen := start.advance (varintBytes (UInt64.ofNat key.length)).length
  let afterKey := afterLen.advance key.length
  let afterValue := afterKey.advance (encodeRecord value).length
  have hlenRun : readVarint start = .ok (UInt64.ofNat key.length) afterLen :=
    reads_readVarint _ start _ rfl
  have hafterLen : afterLen.rest = key ++ encodeRecord value := by simp [afterLen, start]
  have hkeyRun : readString key.length afterLen = .ok key afterKey :=
    reads_readRaw key afterLen _ hafterLen
  have hafterKey : afterKey.rest = encodeRecord value := by simp [afterKey, hafterLen]
  have hvalueRun : nested afterKey = .ok value.toRecord afterValue :=
    h afterKey [] (by rw [hafterKey, List.append_nil])
  have heof : afterValue.eof = true := by
    rw [ByteReader.eof_iff, ByteReader.rest_advance, hafterKey, List.drop_length]
  refine ⟨afterValue, (bind_of_ok hlenRun).trans ?_⟩
  rw [hn, bind_of_ok hkeyRun, bind_of_ok hvalueRun, bind_of_ok (get_run _)]
  simp only [heof, Bool.not_true, Bool.false_eq_true, if_false]
  rfl

/-- A string or a blob is all of its payload. -/
theorem readBytes_remaining (bs : Bytes) {f : Bytes → Reader Record} {out : Record}
    (hf : Reads (f bs) [] out) :
    ∃ s, (do f (← readBytes (← get).remaining)) { data := bs } = .ok out s := by
  have hn : ({ data := bs } : ByteReader).remaining = bs.length := by
    rw [ByteReader.remaining_eq, ByteReader.rest_mk_zero]
  have h := (reads_readRaw bs).bind_last hf { data := bs } [] (by simp)
  refine ⟨_, (bind_of_ok (get_run _)).trans (Eq.trans ?_ h)⟩
  rw [hn]
  rfl

/-- The payload reader undoes the payload encoder, given that `nested` reads the children. -/
theorem parsePayload_encoded (rec : RecordSpec) (hunary : rec.KeyvalsUnary)
    (hlen : (encodeRecordPayload rec).length < 2 ^ 64)
    (hnested : ∀ c ∈ rec.children, rec.tag = .kArray ∨ rec.tag = .kGroup ∨ rec.tag = .kKeyval →
      Reads nested (encodeRecord c) c.toRecord) :
    ∃ s, parsePayload base nested { tag := rec.tag, group := rec.group }
      { data := encodeRecordPayload rec } = .ok rec.toRecord s := by
  have hcount : rec.children.length ≤ (rec.children.flatMap encodeRecord).length :=
    length_le_flatMap fun c _ => encodeRecord_ne_nil c
  rcases rec with ⟨tag, group, i64, u64, f64, str, blob, key, children⟩
  cases tag with
  | kInt => exact parsePayload_of_reads (parsePayload_kInt i64)
  | kUint => exact parsePayload_of_reads (parsePayload_kUint u64)
  | kFloat => exact parsePayload_of_reads (parsePayload_kFloat f64)
  | kString => exact readBytes_remaining str (Reads.pure _)
  | kBlob => exact readBytes_remaining blob (Reads.pure _)
  | kArray =>
      rw [payload_kArray rfl, List.length_append] at hlen
      rw [payload_kArray rfl]
      apply parsePayload_of_reads
      exact parsePayload_kArray (by omega) fun c hc => hnested c hc (.inl rfl)
  | kGroup =>
      rw [payload_kGroup rfl]
      exact parsePayload_kGroup fun c hc => hnested c hc (.inr (.inl rfl))
  | kKeyval =>
      rcases List.length_eq_one_iff.mp hunary.1 with ⟨value, hone⟩
      cases hone
      rw [payload_kKeyval rfl rfl, List.length_append, List.length_append] at hlen
      rw [payload_kKeyval rfl rfl]
      exact parsePayload_kKeyval (by omega)
        (hnested value (List.mem_cons_self ..) (.inr (.inr rfl)))

end Payload

/-- What holds of a spec in a container holds of its children. -/
theorem children_of_container {rec : RecordSpec} (hunary : rec.KeyvalsUnary)
    (htag : rec.tag = .kArray ∨ rec.tag = .kGroup ∨ rec.tag = .kKeyval) {c : RecordSpec}
    (hc : c ∈ rec.children) :
    c.KeyvalsUnary ∧ c.height < rec.height ∧
      (encodeRecord c).length ≤ (encodeRecordPayload rec).length := by
  have hfit := encodeRecord_length_le hc
  have hbelow := RecordSpec.height_lt_levels hc
  rcases rec with ⟨tag, group, i64, u64, f64, str, blob, key, children⟩
  rcases htag with htag | htag | htag
  · cases htag
    refine ⟨(RecordSpec.allUnary_iff _).mp hunary c hc, hbelow, ?_⟩
    rw [payload_kArray rfl, List.length_append]
    omega
  · cases htag
    refine ⟨(RecordSpec.allUnary_iff _).mp hunary c hc, hbelow, ?_⟩
    rw [payload_kGroup rfl]
    exact hfit
  · cases htag
    refine ⟨(RecordSpec.allUnary_iff _).mp hunary.2 c hc, hbelow, ?_⟩
    rcases List.length_eq_one_iff.mp hunary.1 with ⟨value, hone⟩
    cases hone
    cases List.mem_singleton.mp hc
    rw [payload_kKeyval rfl rfl, List.length_append, List.length_append]
    omega

/-- A record tree within the depth budget is read back as the record its spec describes. -/
theorem reads_parseRecord (rec : RecordSpec) :
    ∀ room base, rec.KeyvalsUnary → rec.height < room → (encodeRecord rec).length < 2 ^ 64 →
      Reads (parseRecordIn room base) (encodeRecord rec) rec.toRecord := by
  apply RecordSpec.treeInduction (P := fun rec => ∀ room base, rec.KeyvalsUnary →
    rec.height < room → (encodeRecord rec).length < 2 ^ 64 →
      Reads (parseRecordIn room base) (encodeRecord rec) rec.toRecord)
  intro rec ih room base hunary hheight hlen
  have hpayload := (payload_length_le rec).trans_lt hlen
  cases room with
  | zero => exact absurd hheight (Nat.not_lt_zero _)
  | succ room =>
      apply reads_parseRecordIn hpayload
      intro inner
      apply parsePayload_encoded rec hunary hpayload
      intro c hc htag
      rcases children_of_container hunary htag hc with ⟨hcunary, hcheight, hclen⟩
      exact ih c hc room inner hcunary (by omega) (by omega)

end Bytewright.Binpack
