import Mathlib.Data.List.Basic
import Bytewright.Verification.Binpack.Layout
import Bytewright.Verification.Binpack.Records

/-! # Parsing what the builder wrote -/

namespace Bytewright.Binpack

open Bytewright.Common Bytewright.Library

/-! ### What a file says

The sections and the metadata, wherever the bodies lie. -/

structure SectionContent where
  type : SectionType
  id : UInt16
  flags : UInt16
  itemCount : UInt32
  records : List Record

def Section.content (s : Section) : SectionContent :=
  { type := s.type, id := s.id, flags := s.flags, itemCount := s.itemCount, records := s.records }

/-- The records of a section as decoded: a FREE section has none. -/
def SectionSpec.toRecords (s : SectionSpec) : List Record :=
  if s.type = .kFree then [] else s.records.map RecordSpec.toRecord

def SectionSpec.content (s : SectionSpec) (explicit : Bool) : SectionContent :=
  { type := s.type, id := s.id, flags := s.flags, itemCount := s.declaredCount explicit
    records := s.toRecords }

/-- The key and value of a KEYVAL spec. -/
def RecordSpec.keyval? (rec : RecordSpec) : Option (Bytes × Record) :=
  if rec.tag = .kKeyval then rec.children.head?.map fun value => (rec.key, value.toRecord) else none

def SectionSpec.metadata (s : SectionSpec) : List (Bytes × Record) :=
  if s.type = .kMetadata then s.records.filterMap RecordSpec.keyval? else []

def Builder.contents (b : Builder) : List SectionContent :=
  b.rows.map fun row => row.1.content row.2

def Builder.metadata (b : Builder) : List (Bytes × Record) :=
  b.sections.flatMap SectionSpec.metadata

theorem keyval?_toRecord (rec : RecordSpec) : rec.toRecord.keyval? = rec.keyval? := by
  rcases rec with ⟨tag, group, i64, u64, f64, str, blob, key, children⟩
  cases tag with
  | kKeyval =>
      cases children with
      | nil => rfl
      | cons value _ => rfl
  | _ => rfl

/-! ### Checksums that match -/

theorem verifyCrc_self {σ : Type} (crc : UInt32) (strict : Bool) (offset : Nat) (what : String) :
    (verifyCrc crc crc strict offset what : Action σ Bool) = pure true := by
  simp [verifyCrc]

/-! ### The header -/

/-- What is known after the header of a built file. -/
def Builder.start (b : Builder) : Container where
  version := b.version
  flags := b.flags
  sectionCount := UInt16.ofNat b.sections.length
  hasMetadata := b.hasMetadata
  hasTrailerCrc := b.hasTrailerCrc

theorem flags_hasMetadata (b : Builder) : decide (b.flags &&& 0x01 ≠ 0) = b.hasMetadata := by
  unfold Builder.flags
  cases b.hasMetadata <;> cases b.hasTrailerCrc <;> rfl

theorem flags_hasTrailerCrc (b : Builder) : decide (b.flags &&& 0x02 ≠ 0) = b.hasTrailerCrc := by
  unfold Builder.flags
  cases b.hasMetadata <;> cases b.hasTrailerCrc <;> rfl

theorem readHeader_run (b : Builder) (hversion : b.version = 1) (strict : Bool) (rest : Bytes) :
    readHeader strict { data := b.header ++ rest } =
      .ok b.start (ByteReader.advance { data := b.header ++ rest } kHeaderTotal) := by
  have htake : (b.header ++ rest).take kHeaderBytes = b.headerFields := by
    rw [Builder.header, ← b.length_headerFields, List.append_assoc, List.take_left]
  have hmagic : 4 = kMagic.length := rfl
  rw [readHeader, bind_of_ok (get_run _), htake, ← b.length_header]
  apply Reads.run _ rfl
  rw [Builder.header, Builder.headerFields]
  simp only [List.append_assoc]
  rw [hmagic]
  apply Reads.bind (reads_readRaw kMagic)
  rw [if_neg (not_not_intro rfl)]
  apply Reads.bind (reads_readU16le b.version)
  rw [if_neg (not_not_intro hversion)]
  apply Reads.bind (reads_readU16le b.flags)
  apply Reads.bind (reads_readU16le _)
  apply Reads.bind (reads_readU16le 0)
  apply Reads.bind_last (reads_readU32le _)
  rw [verifyCrc_self, pure_bind, flags_hasMetadata, flags_hasTrailerCrc]
  exact Reads.pure _

/-! ### The section table -/

theorem readTable_run (b : Builder) (hcount : b.sections.length ≤ 65535) (rest : Bytes)
    {r : ByteReader} (hr : r.rest = b.entries.flatMap Entry.wire ++ rest)
    (hsize : kHeaderTotal + (b.entries.flatMap Entry.wire).length ≤ r.size) :
    ∃ s, readTable (UInt16.ofNat b.sections.length) r = .ok b.entries s ∧ s.data = r.data := by
  have hn : (UInt16.ofNat b.sections.length).toNat = b.entries.length := by
    rw [UInt16.toNat_ofNat', Nat.mod_eq_of_lt (Nat.lt_succ_of_le hcount), Builder.entries,
      length_entriesFrom, b.length_rows]
  have hfits : ¬ kHeaderTotal + b.entries.length * kSectionEntryBytes > r.size := by
    rw [length_flatMap_wire] at hsize
    rw [Nat.mul_comm]
    exact Nat.not_lt.mpr hsize
  have hreads : Reads (readTimes readEntry b.entries.length) (b.entries.flatMap Entry.wire)
      (b.entries.map id) :=
    reads_readTimes fun e _ => reads_readEntry e
  rw [List.map_id] at hreads
  refine ⟨r.advance (b.entries.flatMap Entry.wire).length, ?_, r.data_advance _⟩
  rw [readTable, bind_of_ok (get_run r), hn, if_neg hfits]
  exact hreads r rest hr

/-! ### The bodies -/

/-- The section decoded for a row whose body starts at `pos`. -/
def sectionAt (row : SectionSpec × Bool) (pos : Nat) : Section where
  type := row.1.type
  id := row.1.id
  flags := row.1.flags
  offset := UInt32.ofNat pos
  length := UInt32.ofNat row.1.body.length
  itemCount := row.1.declaredCount row.2
  crc32Stored := crc32 row.1.body
  records := row.1.toRecords

/-- Every record of a section that is decoded fits the depth budget and has unary KEYVALs. -/
def SectionSpec.Decodable (maxDepth : Nat) (s : SectionSpec) : Prop :=
  s.type ≠ .kFree → ∀ rec ∈ s.records, rec.KeyvalsUnary ∧ rec.height ≤ maxDepth

theorem body_eq {s : SectionSpec} (hfree : s.type ≠ .kFree) :
    s.body = s.records.flatMap encodeRecord := by
  rw [SectionSpec.body, if_neg hfree, encodeRecordsInto_buffer, List.nil_append]

theorem parseStream_body {s : SectionSpec} {maxDepth base : Nat} (hs : s.Decodable maxDepth)
    (hfree : s.type ≠ .kFree) (hlen : s.body.length < 2 ^ 32) {σ : Type} :
    (readWithin s.body (parseStream maxDepth base 0) : Action σ (List Record)) =
      pure s.toRecords := by
  have hread : ∀ rec ∈ s.records,
      Reads (parseRecord maxDepth base 0) (encodeRecord rec) rec.toRecord := by
    intro rec hrec
    rcases hs hfree rec hrec with ⟨hunary, hheight⟩
    have hle := encodeRecord_length_le hrec
    rw [← body_eq hfree] at hle
    exact reads_parseRecord rec _ base hunary (by omega) (by omega)
  rcases streamOf_run hread (fun rec _ => encodeRecord_ne_nil rec) (r := { data := s.body })
    (body_eq hfree) with ⟨r, hr⟩
  rw [readWithin, parseStream, hr, SectionSpec.toRecords, if_neg hfree]

theorem parseSection_run {opts : Options} {row : SectionSpec × Bool}
    (hrow : row.1.Decodable opts.maxDepth) {r : ByteReader} {front back : Bytes}
    (hdata : r.data = front ++ (row.1.body ++ back))
    (hlen : front.length + row.1.body.length < 2 ^ 32) :
    parseSection opts (entryAt row (UInt32.ofNat front.length)) r =
      .ok (sectionAt row front.length) r := by
  have hoffset : (UInt32.ofNat front.length).toNat = front.length := by
    rw [UInt32.toNat_ofNat', Nat.mod_eq_of_lt (by omega)]
  have hlength : (UInt32.ofNat row.1.body.length).toNat = row.1.body.length := by
    rw [UInt32.toNat_ofNat', Nat.mod_eq_of_lt (by omega)]
  have hsize : r.size = front.length + (row.1.body.length + back.length) := by
    rw [ByteReader.size, hdata, List.length_append, List.length_append]
  have hinside : ¬ (front.length > r.size ∨ front.length + row.1.body.length > r.size ∨
      front.length + row.1.body.length < front.length) := by omega
  have hbody : (r.data.drop front.length).take row.1.body.length = row.1.body := by
    rw [hdata, List.drop_left, List.take_left]
  rw [parseSection, bind_of_ok (get_run r)]
  simp only [entryAt, hoffset, hlength, hinside, if_false, hbody, verifyCrc_self, pure_bind]
  by_cases hfree : row.1.type = .kFree
  · rw [if_pos hfree, sectionAt, SectionSpec.toRecords, if_pos hfree]
    rfl
  · rw [if_neg hfree, parseStream_body hrow hfree (by omega), pure_bind]
    rfl

/-- The sections decoded for rows whose bodies lie back to back from `pos` on. -/
def sectionsFrom (pos : Nat) : List (SectionSpec × Bool) → List Section
  | [] => []
  | row :: rows => sectionAt row pos :: sectionsFrom (pos + row.1.body.length) rows

/-- The section loop, with `front` before the bodies. -/
theorem foldlM_sectionRound {opts : Options} {rows : List (SectionSpec × Bool)}
    (hrows : ∀ row ∈ rows, row.1.Decodable opts.maxDepth) {r : ByteReader} {front back : Bytes}
    (hdata : r.data = front ++ (rows.flatMap (fun row => row.1.body) ++ back))
    (hlen : front.length + (rows.flatMap fun row => row.1.body).length < 2 ^ 32) (c : Container) :
    (entriesFrom front.length rows).foldlM (sectionRound opts) c r =
      .ok ((sectionsFrom front.length rows).foldl Container.addSection c) r := by
  induction rows generalizing front c with
  | nil => rfl
  | cons row rows ih =>
      rw [List.flatMap_cons, List.append_assoc] at hdata
      rw [List.flatMap_cons, List.length_append] at hlen
      have hsection := parseSection_run (hrows row (List.mem_cons_self ..)) hdata (by omega)
      have hround : sectionRound opts c (entryAt row (UInt32.ofNat front.length)) r =
          .ok (c.addSection (sectionAt row front.length)) r :=
        bind_of_ok hsection
      have hdata' : r.data =
          (front ++ row.1.body) ++ ((rows.flatMap fun row => row.1.body) ++ back) := by
        rw [hdata, List.append_assoc]
      have htail := ih (fun row' h => hrows row' (List.mem_cons_of_mem row h)) hdata'
        (by rw [List.length_append]; omega) (c.addSection (sectionAt row front.length))
      rw [List.length_append] at htail
      rw [entriesFrom, List.foldlM_cons, bind_of_ok hround, sectionsFrom, List.foldl_cons, htail]

theorem foldl_addSection (ss : List Section) (c : Container) :
    ss.foldl Container.addSection c =
      { c with sections := c.sections ++ ss, metadata := c.metadata ++ ss.flatMap Section.metadata } := by
  induction ss generalizing c with
  | nil => simp
  | cons s ss ih => simp [ih, Container.addSection]

theorem content_sectionsFrom (pos : Nat) (rows : List (SectionSpec × Bool)) :
    (sectionsFrom pos rows).map Section.content = rows.map fun row => row.1.content row.2 := by
  induction rows generalizing pos with
  | nil => rfl
  | cons row rows ih => exact congrArg _ (ih _)

theorem checksums_sectionsFrom (pos : Nat) (rows : List (SectionSpec × Bool)) :
    (sectionsFrom pos rows).all (·.bodyChecksumOk) = true := by
  induction rows generalizing pos with
  | nil => rfl
  | cons row rows ih => exact ih _

theorem metadata_sectionAt (row : SectionSpec × Bool) (pos : Nat) :
    (sectionAt row pos).metadata = row.1.metadata := by
  by_cases hmeta : row.1.type = .kMetadata
  · have hfree : row.1.type ≠ .kFree := by rw [hmeta]; decide
    simp only [Section.metadata, sectionAt, SectionSpec.metadata, SectionSpec.toRecords,
      if_pos hmeta, if_neg hfree, List.filterMap_map]
    exact List.filterMap_congr fun rec _ => keyval?_toRecord rec
  · rw [Section.metadata, SectionSpec.metadata, if_neg hmeta]
    exact if_neg hmeta

theorem metadata_sectionsFrom (pos : Nat) (rows : List (SectionSpec × Bool)) :
    (sectionsFrom pos rows).flatMap Section.metadata =
      (rows.map Prod.fst).flatMap SectionSpec.metadata := by
  induction rows generalizing pos with
  | nil => rfl
  | cons row rows ih =>
      rw [sectionsFrom, List.flatMap_cons, List.map_cons, List.flatMap_cons, ih, metadata_sectionAt]

/-! ### The trailer -/

theorem checkTrailer_run {strict : Bool} {r : ByteReader} {main : Bytes}
    (hdata : r.data = main ++ leBytes 4 (crc32 main).toNat) (hlen : kHeaderTotal ≤ main.length) :
    checkTrailer strict r = .ok true r := by
  have hsize : r.size = main.length + 4 := by
    rw [ByteReader.size, hdata, List.length_append, leBytes_length]
  have hroom : ¬ r.size < kHeaderTotal + kTrailerBytes := by
    rw [hsize]
    exact Nat.not_lt.mpr (Nat.add_le_add_right hlen 4)
  have hoff : r.size - kTrailerBytes = main.length := by
    rw [hsize]
    exact Nat.add_sub_cancel ..
  rw [checkTrailer, bind_of_ok (get_run r), if_neg hroom]
  simp only [hoff, hdata, List.drop_left, List.take_left]
  rw [(reads_readU32le (crc32 main)).within, pure_bind, verifyCrc_self]
  rfl

/-! ### The whole file -/

namespace Builder

variable (b : Builder)

/-- The container a built file parses to. -/
def container : Container :=
  { b.start with sections := sectionsFrom b.bodiesAt b.rows, metadata := b.metadata }

theorem length_table : (b.header ++ b.entries.flatMap Entry.wire).length = b.bodiesAt := by
  rw [List.length_append, b.length_header, length_flatMap_wire, Builder.entries, length_entriesFrom,
    Builder.bodiesAt]

theorem build_eq_append :
    b.build = (b.header ++ b.entries.flatMap Entry.wire) ++ (b.bodies ++ b.trailer) := by
  rw [b.build_eq, Builder.main]
  simp only [List.append_assoc]

theorem readHeader_build (hversion : b.version = 1) (strict : Bool) :
    readHeader strict { data := b.build } =
      .ok b.start (ByteReader.advance { data := b.build } kHeaderTotal) := by
  rw [b.build_eq_append, List.append_assoc]
  exact readHeader_run b hversion strict _

/-- The table of a built file with a count that fits is read back as it was laid out. -/
theorem readTable_build (hcount : b.sections.length ≤ 65535) :
    ∃ t, readTable b.start.sectionCount (ByteReader.advance { data := b.build } kHeaderTotal) =
      .ok b.entries t ∧ t.data = b.build := by
  have hrest : (ByteReader.advance { data := b.build } kHeaderTotal).rest =
      b.entries.flatMap Entry.wire ++ (b.bodies ++ b.trailer) := by
    rw [ByteReader.rest_advance, ByteReader.rest_mk_zero, b.build_eq_append, List.append_assoc,
      ← b.length_header, List.drop_left]
  have hfits : kHeaderTotal + (b.entries.flatMap Entry.wire).length ≤ b.build.length := by
    rw [b.build_eq_append, List.length_append, List.length_append, b.length_header]
    exact Nat.le_add_right ..
  exact readTable_run b hcount _ hrest hfits

theorem forall_rows {P : SectionSpec → Prop} (h : ∀ s ∈ b.sections, P s) : ∀ row ∈ b.rows, P row.1 := by
  intro row hrow
  apply h
  rw [← b.map_fst_rows]
  exact List.mem_map_of_mem hrow

/-- The trailer of a built file, if it has one, is the CRC of what is before it. -/
theorem trailer_run {r : ByteReader} (hr : r.data = b.build) (strict : Bool) :
    parseTrailer b.container strict r = .ok true r := by
  have hlen : kHeaderTotal ≤ b.main.length := by
    rw [Builder.main, List.length_append, b.length_header]
    exact Nat.le_add_right ..
  by_cases h : b.hasTrailerCrc
  · rw [parseTrailer, if_pos (show b.container.hasTrailerCrc from h)]
    refine checkTrailer_run ?_ hlen
    rw [hr, b.build_eq, Builder.trailer, if_pos h]
  · rw [parseTrailer, if_neg (show ¬ b.container.hasTrailerCrc from h)]
    rfl

end Builder

theorem parse_build_eq {b : Builder} {opts : Options} (hversion : b.version = 1)
    (hcount : b.sections.length ≤ 65535) (hsize : b.build.length < 2 ^ 32)
    (hsections : ∀ s ∈ b.sections, s.Decodable opts.maxDepth) :
    parse b.build opts = .ok b.container := by
  have hbuild := b.build_eq_append
  have hlen : b.build.length = (b.header ++ b.entries.flatMap Entry.wire).length +
      (b.bodies.length + b.trailer.length) := by
    rw [hbuild]
    simp only [List.length_append]
  have hheader := b.readHeader_build hversion opts.strict
  rcases b.readTable_build hcount with ⟨r, htable, hr⟩
  have hbodies : (b.header ++ b.entries.flatMap Entry.wire).length + b.bodies.length < 2 ^ 32 := by
    omega
  have hround := foldlM_sectionRound (b.forall_rows hsections) (hr.trans hbuild) hbodies b.start
  have hresult : (sectionsFrom b.bodiesAt b.rows).foldl Container.addSection b.start = b.container := by
    rw [foldl_addSection, metadata_sectionsFrom, b.map_fst_rows]
    rfl
  rw [b.length_table, hresult] at hround
  have hparse : parseContainer opts { data := b.build } = .ok b.container r := by
    rw [parseContainer, bind_of_ok hheader]
    refine (bind_of_ok htable).trans ((bind_of_ok hround).trans ?_)
    refine (bind_of_ok (b.trailer_run hr opts.strict)).trans ?_
    have hall : b.container.sections.all (·.bodyChecksumOk) = true :=
      checksums_sectionsFrom b.bodiesAt b.rows
    rw [hall]
    rfl
  rw [parse, hparse]

/-- A built file parses, in either mode, to what was put into the builder. -/
theorem parse_build (b : Builder) (opts : Options) (hversion : b.version = 1)
    (hcount : b.sections.length ≤ 65535) (hsize : b.build.length < 2 ^ 32)
    (hsections : ∀ s ∈ b.sections, s.Decodable opts.maxDepth) :
    ∃ c, parse b.build opts = .ok c ∧ c.checksumOk = true ∧
      c.sections.map Section.content = b.contents ∧ c.metadata = b.metadata :=
  ⟨b.container, parse_build_eq hversion hcount hsize hsections, rfl,
    content_sectionsFrom b.bodiesAt b.rows, rfl⟩

/-- Metadata, a FREE section and nested records at the very depth allowed. -/
theorem parse_build_nested :
    let answer : RecordSpec := { tag := .kKeyval, key := ascii "k", children := [{ tag := .kUint, u64 := 300 }] }
    let list : RecordSpec := { tag := .kArray, group := true, children := [{ tag := .kInt, i64 := -2 }, answer] }
    let b := (((({ hasTrailerCrc := true } : Builder).addSection .kMetadata 7).addRecord answer).addSection
      .kFree).addRecord list |>.setItemCount 9 |>.addSection .kData 2 |>.addRecord list
    ∃ c, parse b.build { strict := true, maxDepth := 2 } = .ok c ∧ c.checksumOk = true ∧
      c.sections.map Section.content = b.contents ∧ c.metadata = b.metadata :=
  parse_build _ _ rfl (by decide) (by decide +kernel) (by
    simp [SectionSpec.Decodable, Builder.addSection, Builder.addRecord, Builder.setItemCount,
      Builder.updateBack, RecordSpec.KeyvalsUnary, RecordSpec.AllUnary, RecordSpec.height,
      RecordSpec.levels])

end Bytewright.Binpack
