import Mathlib.Data.List.Forall2
import Bytewright.Verification.Binpack.Checksums
import Bytewright.Verification.Binpack.RoundTrip
import Bytewright.Verification.Binpack.Wire

/-! # What the narrowed fields of a built file still say -/

namespace Bytewright.Binpack

open Bytewright.Common Bytewright.Library

/-! ### Streams of records by the grammar -/

/-- The bytes are encodings of these records, one behind the other. -/
def Spells (bytes : Bytes) (recs : List Record) : Prop :=
  ∃ room pieces, bytes = pieces.flatten ∧ List.Forall₂ (Encodes room) pieces recs

theorem Spells.unique {bytes : Bytes} {recs recs' : List Record} (h : Spells bytes recs)
    (h' : Spells bytes recs') : recs = recs' := by
  obtain ⟨room, pieces, rfl, hall⟩ := h
  obtain ⟨room', pieces', hbytes, hall'⟩ := h'
  -- a depth that is enough for both
  have hreads : ∀ bs rec, Encodes (max room room') bs rec →
      bs ≠ [] ∧ Reads (parseRecordIn (max room room') 0) bs rec := fun bs rec h => ⟨h.ne_nil, h.reads 0⟩
  obtain ⟨s, hs⟩ := streamOf_pieces hreads (hall.imp fun _ _ => Encodes.mono (Nat.le_max_left ..))
  obtain ⟨s', hs'⟩ := streamOf_pieces hreads (hall'.imp fun _ _ => Encodes.mono (Nat.le_max_right ..))
  rw [hbytes, hs'] at hs
  cases hs
  rfl

theorem spells_parsed {maxDepth base : Nat} {bytes : Bytes} {recs : List Record} {s : ByteReader}
    (h : parseStream maxDepth base 0 { data := bytes } = .ok recs s) : Spells bytes recs := by
  obtain ⟨r, t, hget, hloop⟩ := bind_eq_ok.mp h
  cases hget
  obtain ⟨pieces, hbytes, -, -, hall⟩ := (takes_parseRecordIn _ _).streamLoop _ hloop
  exact ⟨_, pieces, hbytes, hall⟩

theorem spells_encoded {recs : List RecordSpec} (hunary : ∀ rec ∈ recs, rec.KeyvalsUnary)
    (hlen : (recs.flatMap encodeRecord).length < 2 ^ 64) :
    Spells (recs.flatMap encodeRecord) (recs.map RecordSpec.toRecord) := by
  refine ⟨RecordSpec.levels recs, recs.map encodeRecord, List.flatMap_def .., ?_⟩
  rw [List.forall₂_map_left_iff, List.forall₂_map_right_iff, List.forall₂_same]
  intro rec hrec
  have hheight := RecordSpec.height_lt_levels hrec
  have hle := encodeRecord_length_le hrec
  exact (encodes_iff_reads _ 0 _ _).mpr (reads_parseRecord rec _ 0 (hunary rec hrec) hheight (by omega))

/-! ### The sections a built file gives back -/

/-- What a section is asked to be, but for its declared count: type, id, flags and records. -/
def SectionSpec.shape (s : SectionSpec) : SectionType × UInt16 × UInt16 × List Record :=
  (s.type, s.id, s.flags, s.records.map RecordSpec.toRecord)

def Section.shape (s : Section) : SectionType × UInt16 × UInt16 × List Record :=
  (s.type, s.id, s.flags, s.records)

/-- A spec of which nothing gets lost by design: a FREE section holds no records, and every KEYVAL has
its one child. -/
structure SectionSpec.Encodable (s : SectionSpec) : Prop where
  free : s.type = .kFree → s.records = []
  unary : ∀ rec ∈ s.records, rec.KeyvalsUnary

/-- Where a narrowed offset and length point at bytes with the CRC-32 of the body, these spell the body's
records. -/
def Builder.Unambiguous (b : Builder) : Prop :=
  List.Forall₂ (fun row e => row.1.type ≠ .kFree →
    crc32 (e.bodyIn (b.main ++ b.trailer)) = crc32 row.1.body →
      Spells (e.bodyIn (b.main ++ b.trailer)) (row.1.records.map RecordSpec.toRecord)) b.rows b.entries

theorem parseSection_shape_iff {opts : Options} {row : SectionSpec × Bool} {offset : UInt32}
    {r t : ByteReader} {s : Section} (hrow : row.1.Encodable)
    (h : parseSection opts (entryAt row offset) r = .ok s t) :
    s.shape = row.1.shape ↔ (row.1.type ≠ .kFree →
      Spells ((entryAt row offset).bodyIn r.data) (row.1.records.map RecordSpec.toRecord)) := by
  obtain ⟨r', r'', hget, h⟩ := bind_eq_ok.mp h
  cases hget
  dsimp only at h
  rw [ite_run] at h
  split at h
  · cases h
  · obtain ⟨ok, u, -, h⟩ := bind_eq_ok.mp h
    rw [ite_run] at h
    split at h
    · next hfree =>
      cases h
      have hfree : row.1.type = .kFree := hfree
      simp [SectionSpec.shape, Section.shape, hrow.free hfree, hfree, entryAt]
    · next hfree =>
      obtain ⟨records, v, hrecords, h⟩ := bind_eq_ok.mp h
      cases h
      obtain ⟨-, w, hstream⟩ := readWithin_ok hrecords
      have hspells : Spells ((entryAt row offset).bodyIn r.data) records := spells_parsed hstream
      have hshape : Section.shape { entryAt row offset with bodyChecksumOk := ok, records } =
          row.1.shape ↔ records = row.1.records.map RecordSpec.toRecord := by
        simp [SectionSpec.shape, Section.shape, entryAt]
      rw [hshape]
      constructor
      · rintro rfl _
        exact hspells
      · intro hspells'
        exact hspells.unique (hspells' hfree)

theorem shapes_iff {opts : Options} {rows : List (SectionSpec × Bool)} {pos : Nat}
    {r : ByteReader} {ss : List Section} (hrows : ∀ row ∈ rows, row.1.Encodable)
    (h : List.Forall₂ (fun e s => parseSection opts e r = .ok s r) (entriesFrom pos rows) ss)
    (hcrc : ∀ e ∈ entriesFrom pos rows, crc32 (e.bodyIn r.data) = e.crc32Stored) :
    ss.map Section.shape = rows.map (·.1.shape) ↔
      List.Forall₂ (fun row e => row.1.type ≠ .kFree → crc32 (e.bodyIn r.data) = crc32 row.1.body →
        Spells (e.bodyIn r.data) (row.1.records.map RecordSpec.toRecord)) rows (entriesFrom pos rows) := by
  induction rows generalizing pos ss with
  | nil =>
      cases h
      simp [entriesFrom]
  | cons row rows ih =>
      rw [entriesFrom, List.forall_mem_cons] at hcrc
      rw [List.forall_mem_cons] at hrows
      cases h with
      | cons hsection hrest =>
          rw [entriesFrom, List.forall₂_cons, List.map_cons, List.map_cons, List.cons.injEq,
            parseSection_shape_iff hrows.1 hsection, ih hrows.2 hrest hcrc.2]
          have hbody : crc32 ((entryAt row (UInt32.ofNat pos)).bodyIn r.data) = crc32 row.1.body := hcrc.1
          simp only [hbody, forall_const]

/-- Of a built file that parses with sound checksums, the sections are those put in exactly if 16 bits
count them, and no narrowed offset and length of the table point at other records with the CRC-32 of
the right ones. -/
theorem parse_build_shapes_iff {b : Builder} {opts : Options} {c : Container} (hversion : b.version = 1)
    (hsections : ∀ s ∈ b.sections, s.Encodable) (h : parse b.build opts = .ok c)
    (hok : c.checksumOk = true) :
    c.sections.map Section.shape = b.sections.map SectionSpec.shape ↔
      b.sections.length ≤ 65535 ∧ b.Unambiguous := by
  obtain ⟨c₀, entries, t, hheader, htable, hdata, hall, hcrc⟩ := parse_ok h
  rw [b.readHeader_build hversion] at hheader
  cases hheader
  have hcrc := hcrc hok
  by_cases hcount : b.sections.length ≤ 65535
  · obtain ⟨t', htable', -⟩ := b.readTable_build hcount
    rw [htable'] at htable
    cases htable
    rw [← hdata] at hcrc
    have hshapes := shapes_iff (b.forall_rows hsections) hall hcrc
    rw [hdata, b.build_eq] at hshapes
    rw [← b.map_fst_rows, List.map_map, b.map_fst_rows]
    exact hshapes.trans (and_iff_right hcount).symm
  · refine ⟨fun hshapes => absurd ?_ hcount, fun hholds => absurd hholds.1 hcount⟩
    obtain ⟨-, hlength, -⟩ := readTable_ok htable
    have hlen := congrArg List.length hshapes
    rw [List.length_map, List.length_map, ← hall.length_eq, hlength, Builder.start,
      UInt16.toNat_ofNat'] at hlen
    omega

/-! ### When nothing is narrowed away -/

/-- Offsets and lengths that fit point at the bodies. -/
theorem forall₂_bodyIn (rows : List (SectionSpec × Bool)) (front back : Bytes)
    (hlen : front.length + (rows.flatMap fun row => row.1.body).length < 2 ^ 32) :
    List.Forall₂ (fun row e =>
        e.bodyIn (front ++ ((rows.flatMap fun row => row.1.body) ++ back)) = row.1.body)
      rows (entriesFrom front.length rows) := by
  induction rows generalizing front with
  | nil => exact .nil
  | cons row rows ih =>
      rw [List.flatMap_cons, List.length_append] at hlen
      have hoffset : (UInt32.ofNat front.length).toNat = front.length := by
        rw [UInt32.toNat_ofNat', Nat.mod_eq_of_lt (by omega)]
      have hlength : (UInt32.ofNat row.1.body.length).toNat = row.1.body.length := by
        rw [UInt32.toNat_ofNat', Nat.mod_eq_of_lt (by omega)]
      rw [entriesFrom, List.flatMap_cons, List.append_assoc]
      refine .cons ?_ ?_
      · rw [Entry.bodyIn, entryAt, hoffset, hlength, List.drop_left, List.take_left]
      · have hrest := ih (front ++ row.1.body) (by rw [List.length_append]; omega)
        rw [List.append_assoc, List.length_append] at hrest
        exact hrest

theorem Builder.unambiguous_of_lt {b : Builder} (hsections : ∀ s ∈ b.sections, s.Encodable)
    (hsize : b.main.length < 2 ^ 32) : b.Unambiguous := by
  have hmain : b.main ++ b.trailer =
      (b.header ++ b.entries.flatMap Entry.wire) ++ (b.bodies ++ b.trailer) := by
    rw [← b.build_eq, b.build_eq_append]
  have hlen : (b.header ++ b.entries.flatMap Entry.wire).length + b.bodies.length < 2 ^ 32 := by
    rw [Builder.main, ← List.append_assoc, List.length_append] at hsize
    exact hsize
  have hbodies := forall₂_bodyIn b.rows (b.header ++ b.entries.flatMap Entry.wire) b.trailer hlen
  rw [b.length_table] at hbodies
  rw [Builder.Unambiguous, hmain]
  have hrows := (List.forall₂_and_left _ _).mpr ⟨b.forall_rows hsections, hbodies⟩
  refine hrows.imp fun row e hrow hfree _ => ?_
  obtain ⟨hencodable, hbody⟩ := hrow
  have hlen : row.1.body.length < 2 ^ 32 := by
    rw [← hbody, Entry.bodyIn, List.length_take]
    exact (Nat.min_le_left ..).trans_lt (UInt32.toNat_lt _)
  rw [body_eq hfree] at hlen
  have hspells := spells_encoded hencodable.unary (by omega)
  rw [← body_eq hfree, ← hbody] at hspells
  exact hspells

/-- A DATA section with a group of one number. -/
theorem parse_build_shapes_iff_group :
    let b := (({} : Builder).addSection .kData 2).addRecord
      { tag := .kGroup, children := [{ tag := .kUint, u64 := 300 }] }
    ∃ c, parse b.build {} = .ok c ∧ c.sections.map Section.shape = b.sections.map SectionSpec.shape := by
  intro b
  have hencodable : ∀ s ∈ b.sections, s.Encodable := by
    intro s hs
    obtain rfl := List.mem_singleton.mp hs
    refine ⟨fun hfree => (by cases hfree), fun rec hrec => ?_⟩
    obtain rfl := List.mem_singleton.mp hrec
    simp [RecordSpec.KeyvalsUnary, RecordSpec.AllUnary]
  have hparse : parse b.build {} = .ok b.container :=
    parse_build_eq rfl (by decide) (by decide +kernel) (by
      intro s hs hfree rec hrec
      refine ⟨(hencodable s hs).unary rec hrec, ?_⟩
      obtain rfl := List.mem_singleton.mp hs
      obtain rfl := List.mem_singleton.mp hrec
      decide)
  refine ⟨_, hparse, (parse_build_shapes_iff rfl hencodable hparse rfl).mpr ⟨by decide, ?_⟩⟩
  exact Builder.unambiguous_of_lt hencodable (by decide +kernel)

/-! ### When the count is narrowed away -/

/-- Without a section in its header, a built file parses as one without sections. -/
theorem parse_build_of_count_zero {b : Builder} (opts : Options) (hversion : b.version = 1)
    (hcount : UInt16.ofNat b.sections.length = 0) :
    ∃ c, parse b.build opts = .ok c ∧ c.checksumOk = true ∧ c.sections = [] := by
  have hheader := b.readHeader_build hversion opts.strict
  have htable : readTable b.start.sectionCount (ByteReader.advance { data := b.build } kHeaderTotal) =
      .ok [] (ByteReader.advance { data := b.build } kHeaderTotal) := by
    have hcount : b.start.sectionCount = 0 := hcount
    have hfits : ¬ kHeaderTotal + (0 : UInt16).toNat * kSectionEntryBytes >
        (ByteReader.advance { data := b.build } kHeaderTotal).size := by
      have hlen : kHeaderTotal ≤ b.build.length := by
        rw [b.build_eq_append, List.append_assoc, List.length_append, b.length_header]
        exact Nat.le_add_right ..
      exact Nat.not_lt.mpr hlen
    rw [hcount, readTable, bind_of_ok (get_run _), if_neg hfits]
    rfl
  have htrailer : parseTrailer b.start opts.strict (ByteReader.advance { data := b.build } kHeaderTotal) =
      .ok true _ :=
    b.trailer_run rfl opts.strict
  have hparse : parseContainer opts { data := b.build } =
      .ok { b.start with trailerChecksumOk := true, checksumOk := true }
        (ByteReader.advance { data := b.build } kHeaderTotal) := by
    rw [parseContainer, bind_of_ok hheader]
    refine (bind_of_ok htable).trans ?_
    exact (bind_of_ok htrailer).trans rfl
  exact ⟨_, parse_eq_ok.mpr ⟨_, hparse⟩, rfl, rfl⟩

/-- A builder of `n` FREE sections. -/
def freeSections : (n : Nat) → Builder
  | 0 => {}
  | n + 1 => (freeSections n).addSection .kFree

theorem sections_freeSections (n : Nat) :
    (freeSections n).version = 1 ∧ (freeSections n).sections = List.replicate n { type := .kFree } := by
  induction n with
  | zero => exact ⟨rfl, rfl⟩
  | succ n ih =>
      rw [List.replicate_succ', ← ih.2]
      exact ⟨ih.1, rfl⟩

/-- 65536 sections are read back as none. -/
theorem parse_build_lost :
    ¬ ∀ (b : Builder) (c : Container), b.version = 1 → (∀ s ∈ b.sections, s.Encodable) →
      parse b.build {} = .ok c → c.checksumOk = true →
      c.sections.map Section.shape = b.sections.map SectionSpec.shape := by
  intro h
  obtain ⟨hversion, hsections⟩ := sections_freeSections 65536
  have hcount : UInt16.ofNat (freeSections 65536).sections.length = 0 := by
    rw [hsections, List.length_replicate]
    rfl
  have hencodable : ∀ s ∈ (freeSections 65536).sections, s.Encodable := by
    intro s hs
    rw [hsections] at hs
    rw [List.eq_of_mem_replicate hs]
    exact ⟨fun _ => rfl, by simp⟩
  obtain ⟨c, hparse, hok, hnone⟩ := parse_build_of_count_zero {} hversion hcount
  have hshapes := congrArg List.length (h _ c hversion hencodable hparse hok)
  rw [hnone, hsections, List.length_map, List.length_map, List.length_replicate] at hshapes
  exact absurd hshapes (by decide)

end Bytewright.Binpack
