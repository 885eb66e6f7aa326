import Bytewright.Verification.Binpack.RoundTrip

/-! # Built files that are cut off -/

namespace Bytewright.Binpack

open Bytewright.Common Bytewright.Library

/-! ### A cut in the header -/

/-- A field that is read exactly, in front of what starves later on. -/
theorem starves_field {α β : Type} {m : Reader α} {f : α → Reader β} {bs cs : Bytes} {a : α}
    (hm : Exact m) (h : Reads m bs a) (hf : Starves (f a) cs) : Starves (m >>= f) (bs ++ cs) :=
  Starves.bind h (hm.starves h) hf

/-- The last field that is read. -/
theorem starves_last {α β : Type} {m : Reader α} {f : α → Reader β} {bs : Bytes} {a : α}
    (hm : Exact m) (h : Reads m bs a) : Starves (m >>= f) bs := by
  intro r hr hne
  rcases hm.starves h r hr hne with ⟨at_, what, s, hrun⟩
  exact ⟨at_, what, s, bind_of_error hrun⟩

theorem readHeader_short (b : Builder) (hversion : b.version = 1) (strict : Bool) {data : Bytes}
    (hdata : data <+: b.header) (hshort : data.length < kHeaderTotal) :
    ∃ e s, readHeader strict { data } = .error (.thrown e) s ∧ e.code = .kShortRead := by
  let whole : ByteReader := { data }
  have hprefix : whole.rest <+: b.header := hdata
  have hne : whole.rest ≠ b.header := by
    intro h
    have hlength : data.length = b.header.length := congrArg List.length h
    rw [hlength, b.length_header] at hshort
    exact Nat.lt_irrefl _ hshort
  have hmagic : 4 = kMagic.length := rfl
  rw [readHeader, bind_of_ok (get_run _)]
  -- one of the fields is cut off
  suffices hstarves : Starves _ b.header by
    rcases hstarves whole hprefix hne with ⟨at_, what, s, hrun⟩
    exact ⟨_, s, hrun, rfl⟩
  rw [Builder.header, Builder.headerFields]
  simp only [List.append_assoc]
  rw [hmagic]
  apply starves_field (Exact.readRaw _) (reads_readRaw kMagic)
  rw [if_neg (not_not_intro rfl)]
  apply starves_field Exact.readU16le (reads_readU16le b.version)
  rw [if_neg (not_not_intro hversion)]
  apply starves_field Exact.readU16le (reads_readU16le b.flags)
  apply starves_field Exact.readU16le (reads_readU16le _)
  apply starves_field Exact.readU16le (reads_readU16le 0)
  exact starves_last Exact.readU32le (reads_readU32le _)

/-! ### A cut in the table -/

theorem readTable_short (b : Builder) (hcount : b.sections.length ≤ 65535) {r : ByteReader}
    (hshort : r.size < b.bodiesAt) :
    readTable b.start.sectionCount r =
      .error (.thrown ⟨.kBadLength, kHeaderTotal, "section table exceeds file size"⟩) r := by
  have hn : b.start.sectionCount.toNat = b.rows.length := by
    rw [Builder.start, UInt16.toNat_ofNat', Nat.mod_eq_of_lt (Nat.lt_succ_of_le hcount), b.length_rows]
  have hexceeds : kHeaderTotal + b.rows.length * kSectionEntryBytes > r.size := by
    rw [Nat.mul_comm]
    exact hshort
  rw [readTable, bind_of_ok (get_run r), hn, if_pos hexceeds]
  rfl

/-! ### A cut in the bodies -/

theorem parseSection_outside {opts : Options} {e : Entry} {r : ByteReader}
    (h : r.size < e.offset.toNat + e.length.toNat) :
    parseSection opts e r =
      .error (.thrown ⟨.kBadLength, e.offset.toNat, "section body out of range"⟩) r := by
  rw [parseSection, bind_of_ok (get_run r)]
  dsimp only
  rw [if_pos (.inr (.inl h))]
  rfl

/-- Sections are decoded up to the one whose body is cut off. -/
theorem foldlM_sectionRound_short {opts : Options} {rows : List (SectionSpec × Bool)}
    (hrows : ∀ row ∈ rows, row.1.Decodable opts.maxDepth) {r : ByteReader} {front : Bytes}
    (hdata : r.data <+: front ++ rows.flatMap fun row => row.1.body) (hfront : front.length ≤ r.size)
    (hshort : r.size < front.length + (rows.flatMap fun row => row.1.body).length)
    (hlen : front.length + (rows.flatMap fun row => row.1.body).length < 2 ^ 32) (c : Container) :
    ∃ e, (entriesFrom front.length rows).foldlM (sectionRound opts) c r = .error (.thrown e) r ∧
      e.code = .kBadLength := by
  induction rows generalizing front c with
  | nil => exact absurd hshort (Nat.not_lt.mpr hfront)
  | cons row rows ih =>
      rw [List.flatMap_cons, ← List.append_assoc] at hdata
      rw [List.flatMap_cons, List.length_append] at hshort hlen
      rw [entriesFrom, List.foldlM_cons]
      by_cases hwhole : front.length + row.1.body.length ≤ r.size
      · -- the body is all there
        have hlength : (front ++ row.1.body).length ≤ r.data.length := by
          rwa [List.length_append]
        rcases List.prefix_of_prefix_length_le (List.prefix_append _ _) hdata hlength with ⟨back, hback⟩
        rw [List.append_assoc] at hback
        have hsection := parseSection_run (hrows row (List.mem_cons_self ..)) hback.symm (by omega)
        have hround : sectionRound opts c (entryAt row (UInt32.ofNat front.length)) r =
            .ok (c.addSection (sectionAt row front.length)) r :=
          bind_of_ok hsection
        have htail := ih (fun row' h => hrows row' (List.mem_cons_of_mem row h)) hdata hlength
          (by rw [List.length_append]; omega) (by rw [List.length_append]; omega)
          (c.addSection (sectionAt row front.length))
        rw [List.length_append] at htail
        rwa [bind_of_ok hround]
      · have hoffset : (entryAt row (UInt32.ofNat front.length)).offset.toNat = front.length := by
          rw [entryAt, UInt32.toNat_ofNat', Nat.mod_eq_of_lt (by omega)]
        have hlength : (entryAt row (UInt32.ofNat front.length)).length.toNat = row.1.body.length := by
          rw [entryAt, UInt32.toNat_ofNat', Nat.mod_eq_of_lt (by omega)]
        have houtside : r.size < (entryAt row (UInt32.ofNat front.length)).offset.toNat +
            (entryAt row (UInt32.ofNat front.length)).length.toNat := by
          rw [hoffset, hlength]
          omega
        have hsection := @parseSection_outside opts _ _ houtside
        exact ⟨_, bind_of_error (bind_of_error hsection), rfl⟩

/-! ### A cut in the trailer -/

/-- The number in the last four bytes. -/
def storedTrailer (data : Bytes) : UInt32 := UInt32.ofNat (leValue (data.drop (data.length - kTrailerBytes)))

theorem checkTrailer_room (strict : Bool) {r : ByteReader} (hroom : kHeaderTotal + kTrailerBytes ≤ r.size) :
    checkTrailer strict r =
      verifyCrc (crc32 (r.data.take (r.size - kTrailerBytes))) (storedTrailer r.data) strict
        (r.size - kTrailerBytes) "trailer crc mismatch" r := by
  have hfour : (r.data.drop (r.size - kTrailerBytes)).length = 4 := by
    rw [List.length_drop, Nat.sub_sub_self (Nat.le_of_add_left_le hroom)]
    rfl
  have hlt : leValue (r.data.drop (r.size - kTrailerBytes)) < 2 ^ 32 :=
    (leValue_lt _).trans_eq (by rw [hfour]; norm_num)
  have hstored : leBytes 4 (storedTrailer r.data).toNat = r.data.drop (r.size - kTrailerBytes) := by
    rw [storedTrailer, UInt32.toNat_ofNat', Nat.mod_eq_of_lt hlt, ← hfour, leBytes_leValue]
  rw [checkTrailer, bind_of_ok (get_run r), if_neg (Nat.not_lt.mpr hroom)]
  dsimp only
  rw [← hstored, (reads_readU32le _).within, pure_bind]

theorem checkTrailer_small (strict : Bool) {r : ByteReader} (hsmall : r.size < kHeaderTotal + kTrailerBytes) :
    checkTrailer strict r =
      .error (.thrown ⟨.kTruncated, r.size, "trailer crc flagged but file too small"⟩) r := by
  rw [checkTrailer, bind_of_ok (get_run r), if_pos hsmall]
  rfl

/-! ### A cut anywhere -/

namespace Builder

variable (b : Builder)

/-- The container decoded when all sections are there, with what the trailer check said. -/
def containerWith (trailerChecksumOk : Bool) : Container :=
  { b.container with trailerChecksumOk, checksumOk := trailerChecksumOk }

/-- On a file that keeps the header, from the table on. -/
theorem parseContainer_header (hversion : b.version = 1) (opts : Options) (back : Bytes) :
    parseContainer opts { data := b.header ++ back } =
      (readTable b.start.sectionCount >>= fun entries => do
        let c ← entries.foldlM (sectionRound opts) b.start
        let trailerChecksumOk ← parseTrailer c opts.strict
        return { c with
          trailerChecksumOk
          checksumOk := c.headerChecksumOk && trailerChecksumOk && c.sections.all (·.bodyChecksumOk) })
        (ByteReader.advance { data := b.header ++ back } kHeaderTotal) := by
  rw [parseContainer, bind_of_ok (readHeader_run b hversion opts.strict back)]

/-- On a file that keeps the header and the table, from the section loop on. -/
theorem parseContainer_table (hversion : b.version = 1) (hcount : b.sections.length ≤ 65535)
    (opts : Options) {data back : Bytes}
    (hdata : data = (b.header ++ b.entries.flatMap Entry.wire) ++ back) :
    ∃ t, t.data = data ∧ parseContainer opts { data } =
      (b.entries.foldlM (sectionRound opts) b.start >>= fun c => do
        let trailerChecksumOk ← parseTrailer c opts.strict
        return { c with
          trailerChecksumOk
          checksumOk := c.headerChecksumOk && trailerChecksumOk && c.sections.all (·.bodyChecksumOk) }) t := by
  rw [List.append_assoc] at hdata
  have hrest : (ByteReader.advance { data } kHeaderTotal).rest = b.entries.flatMap Entry.wire ++ back := by
    rw [ByteReader.rest_advance, ByteReader.rest_mk_zero, hdata, ← b.length_header, List.drop_left]
  have hfits : kHeaderTotal + (b.entries.flatMap Entry.wire).length ≤ data.length := by
    rw [hdata, List.length_append, List.length_append, b.length_header]
    omega
  rcases readTable_run b hcount back hrest hfits with ⟨t, htable, ht⟩
  refine ⟨t, ht, ?_⟩
  rw [hdata, b.parseContainer_header hversion, ← hdata]
  exact bind_of_ok htable

/-- On a file that keeps all the bodies only the trailer is left to check. -/
theorem parseContainer_bodies (hversion : b.version = 1) (hcount : b.sections.length ≤ 65535)
    {opts : Options} (hsections : ∀ s ∈ b.sections, s.Decodable opts.maxDepth)
    (hsize : b.main.length < 2 ^ 32) {data back : Bytes} (hdata : data = b.main ++ back) :
    ∃ t, t.data = data ∧ parseContainer opts { data } =
      (b.containerWith <$> parseTrailer b.container opts.strict : Reader Container) t := by
  have htable : data = (b.header ++ b.entries.flatMap Entry.wire) ++ (b.bodies ++ back) := by
    rw [hdata, Builder.main]
    simp only [List.append_assoc]
  have hlen : (b.header ++ b.entries.flatMap Entry.wire).length + b.bodies.length < 2 ^ 32 := by
    rwa [← List.length_append, List.append_assoc]
  rcases b.parseContainer_table hversion hcount opts htable with ⟨t, ht, hparse⟩
  have hround := foldlM_sectionRound (b.forall_rows hsections) (ht.trans htable) hlen b.start
  have hresult : (sectionsFrom b.bodiesAt b.rows).foldl Container.addSection b.start = b.container := by
    rw [foldl_addSection, metadata_sectionsFrom, b.map_fst_rows]
    rfl
  have hall : b.container.sections.all (·.bodyChecksumOk) = true :=
    checksums_sectionsFrom b.bodiesAt b.rows
  rw [b.length_table, hresult] at hround
  refine ⟨t, ht, hparse.trans ((bind_of_ok hround).trans ?_)⟩
  simp only [hall, Bool.and_true]
  rfl

/-! ### Files that end before the last body does -/

section Short

variable {b} {opts : Options} (hversion : b.version = 1) {data : Bytes}

include hversion

theorem parse_header_short (hdata : data <+: b.main) (hshort : data.length < kHeaderTotal) :
    ∃ e, parse data opts = .error (.thrown e) ∧ e.code = .kShortRead := by
  have hprefix : data <+: b.header :=
    List.prefix_of_prefix_length_le hdata (List.prefix_append _ _)
      (by rw [b.length_header]; exact hshort.le)
  rcases readHeader_short b hversion opts.strict hprefix hshort with ⟨e, s, hrun, hcode⟩
  have hparse : parseContainer opts { data } = .error (.thrown e) s := bind_of_error hrun
  rw [parse, hparse]
  exact ⟨e, rfl, hcode⟩

variable (hcount : b.sections.length ≤ 65535)

include hcount

theorem parse_table_short (hdata : data <+: b.main) (hheader : kHeaderTotal ≤ data.length)
    (hshort : data.length < b.bodiesAt) :
    ∃ e, parse data opts = .error (.thrown e) ∧ e.code = .kBadLength := by
  have hprefix : b.header <+: data :=
    List.prefix_of_prefix_length_le (List.prefix_append _ _) hdata (by rwa [b.length_header])
  rcases hprefix with ⟨back, rfl⟩
  have htable := readTable_short b hcount
    (r := ByteReader.advance { data := b.header ++ back } kHeaderTotal) hshort
  rw [parse, b.parseContainer_header hversion, bind_of_error htable]
  exact ⟨_, rfl, rfl⟩

theorem parse_bodies_short (hsections : ∀ s ∈ b.sections, s.Decodable opts.maxDepth)
    (hsize : b.main.length < 2 ^ 32) (hdata : data <+: b.main) (htable : b.bodiesAt ≤ data.length)
    (hshort : data.length < b.main.length) :
    ∃ e, parse data opts = .error (.thrown e) ∧ e.code = .kBadLength := by
  have hmain : b.main = (b.header ++ b.entries.flatMap Entry.wire) ++ b.bodies := by
    rw [Builder.main, List.append_assoc]
  have hlen : b.main.length = b.bodiesAt + b.bodies.length := by
    rw [hmain, List.length_append, b.length_table]
  rw [hmain] at hdata
  have hprefix : b.header ++ b.entries.flatMap Entry.wire <+: data :=
    List.prefix_of_prefix_length_le (List.prefix_append _ _) hdata (by rwa [b.length_table])
  rcases hprefix with ⟨back, hback⟩
  rcases b.parseContainer_table hversion hcount opts hback.symm with ⟨t, ht, hparse⟩
  have hloop := foldlM_sectionRound_short (b.forall_rows hsections) (r := t) (by rwa [ht])
    (by rwa [ByteReader.size, ht, b.length_table])
    (by rw [ByteReader.size, ht, b.length_table]; exact hshort.trans_eq hlen)
    (by rw [b.length_table]; exact hlen.symm.trans_lt hsize) b.start
  rw [b.length_table] at hloop
  rcases hloop with ⟨e, hrun, hcode⟩
  have hrun : b.entries.foldlM (sectionRound opts) b.start t = .error (.thrown e) t := hrun
  rw [parse, hparse, bind_of_error hrun]
  exact ⟨e, rfl, hcode⟩

theorem parse_main_short (hsections : ∀ s ∈ b.sections, s.Decodable opts.maxDepth)
    (hsize : b.main.length < 2 ^ 32) (hdata : data <+: b.main) (hshort : data.length < b.main.length) :
    ∃ e, parse data opts = .error (.thrown e) ∧
      e.code = if data.length < kHeaderTotal then .kShortRead else .kBadLength := by
  by_cases hheader : data.length < kHeaderTotal
  · rw [if_pos hheader]
    exact parse_header_short hversion hdata hheader
  · rw [if_neg hheader]
    by_cases htable : data.length < b.bodiesAt
    · exact parse_table_short hversion hcount hdata (Nat.not_lt.mp hheader) htable
    · exact parse_bodies_short hversion hcount hsections hsize hdata (Nat.not_lt.mp htable) hshort

end Short

end Builder

/-! ### Files cut anywhere -/

/-- A file that keeps all the bodies and part of the trailer says what the whole one says, unless the
last bytes are told to be no trailer. -/
theorem parse_trailer_cut {b : Builder} {opts : Options} (hversion : b.version = 1)
    (hcount : b.sections.length ≤ 65535) (hsections : ∀ s ∈ b.sections, s.Decodable opts.maxDepth)
    (hsize : b.main.length < 2 ^ 32) (htrailer : b.hasTrailerCrc = true) {data back : Bytes}
    (hdata : data = b.main ++ back) :
    parse data opts =
      if data.length < kHeaderTotal + kTrailerBytes then
        .error (.thrown ⟨.kTruncated, data.length, "trailer crc flagged but file too small"⟩)
      else if crc32 (data.take (data.length - kTrailerBytes)) = storedTrailer data then .ok b.container
      else if opts.strict then
        .error (.thrown ⟨.kBadChecksum, data.length - kTrailerBytes, "trailer crc mismatch"⟩)
      else .ok { b.container with trailerChecksumOk := false, checksumOk := false } := by
  rcases b.parseContainer_bodies hversion hcount hsections hsize hdata with ⟨t, ht, hparse⟩
  have hflag : b.container.hasTrailerCrc = true := htrailer
  have hlength : t.size = data.length := congrArg List.length ht
  rw [parse, hparse, map_run, parseTrailer, if_pos hflag]
  by_cases hsmall : data.length < kHeaderTotal + kTrailerBytes
  · rw [if_pos hsmall, checkTrailer_small opts.strict (hlength.trans_lt hsmall), hlength]
  · rw [if_neg hsmall, checkTrailer_room opts.strict (by rwa [hlength, ← Nat.not_lt]), hlength, ht,
      verifyCrc]
    by_cases hmatch : crc32 (data.take (data.length - kTrailerBytes)) = storedTrailer data
    · rw [if_pos hmatch, if_pos hmatch]
      rfl
    · rw [if_neg hmatch, if_neg hmatch]
      cases opts.strict <;> rfl

/-- Without its last bytes a built file is refused, or it has lost no more than its trailer and then
decodes, if at all, to what the whole file says. -/
theorem parse_build_cut (b : Builder) (opts : Options) (hversion : b.version = 1)
    (hcount : b.sections.length ≤ 65535) (hsize : b.build.length < 2 ^ 32)
    (hsections : ∀ s ∈ b.sections, s.Decodable opts.maxDepth) (k : Nat) (hk : k < b.build.length) :
    (k < b.main.length → ∃ e, parse (b.build.take k) opts = .error (.thrown e) ∧
      e.code = if k < kHeaderTotal then .kShortRead else .kBadLength) ∧
    (b.main.length ≤ k → ∃ c, parse b.build opts = .ok c ∧ parse (b.build.take k) opts =
      if k < kHeaderTotal + kTrailerBytes then
        .error (.thrown ⟨.kTruncated, k, "trailer crc flagged but file too small"⟩)
      else if crc32 (b.build.take (k - kTrailerBytes)) = storedTrailer (b.build.take k) then .ok c
      else if opts.strict then
        .error (.thrown ⟨.kBadChecksum, k - kTrailerBytes, "trailer crc mismatch"⟩)
      else .ok { c with trailerChecksumOk := false, checksumOk := false }) := by
  have hlength : (b.build.take k).length = k := List.length_take_of_le hk.le
  have hmain : b.main.length ≤ b.build.length := by
    rw [b.build_eq, List.length_append]
    exact Nat.le_add_right ..
  constructor
  · intro hshort
    have hprefix : b.build.take k <+: b.main := by
      rw [b.build_eq, List.take_append_of_le_length hshort.le]
      exact List.take_prefix k b.main
    have hcut := Builder.parse_main_short hversion hcount hsections (hmain.trans_lt hsize) hprefix
      (hlength.trans_lt hshort)
    rwa [hlength] at hcut
  · intro hwhole
    have hdata : b.build.take k = b.main ++ b.trailer.take (k - b.main.length) := by
      rw [b.build_eq, List.take_append, List.take_of_length_le hwhole]
    have htrailer : b.hasTrailerCrc = true := by
      by_contra hnone
      rw [b.build_eq, Builder.trailer, if_neg hnone, List.append_nil] at hk
      exact Nat.not_le.mpr hk hwhole
    have hcut := parse_trailer_cut hversion hcount hsections (hmain.trans_lt hsize) htrailer hdata
    rw [hlength, List.take_take, Nat.min_eq_left (Nat.sub_le ..)] at hcut
    exact ⟨b.container, parse_build_eq hversion hcount hsize hsections, hcut⟩

/-- Cut inside the trailer of a file with one section. -/
theorem parse_build_cut_trailer :
    let b := (({ hasTrailerCrc := true } : Builder).addSection .kData 3).addRecord
      { tag := .kString, str := ascii "cut" }
    (48 < b.main.length → ∃ e, parse (b.build.take 48) {} = .error (.thrown e) ∧
      e.code = if 48 < kHeaderTotal then .kShortRead else .kBadLength) ∧
    (b.main.length ≤ 48 → ∃ c, parse b.build {} = .ok c ∧ parse (b.build.take 48) {} =
      if 48 < kHeaderTotal + kTrailerBytes then
        .error (.thrown ⟨.kTruncated, 48, "trailer crc flagged but file too small"⟩)
      else if crc32 (b.build.take (48 - kTrailerBytes)) = storedTrailer (b.build.take 48) then .ok c
      else if ({} : Options).strict then
        .error (.thrown ⟨.kBadChecksum, 48 - kTrailerBytes, "trailer crc mismatch"⟩)
      else .ok { c with trailerChecksumOk := false, checksumOk := false }) :=
  parse_build_cut _ _ rfl (by decide) (by decide +kernel) (by
    simp [SectionSpec.Decodable, Builder.addSection, Builder.addRecord, Builder.updateBack,
      RecordSpec.KeyvalsUnary, RecordSpec.height]) 48
    (by decide +kernel)

end Bytewright.Binpack
