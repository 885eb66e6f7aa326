import Bytewright.Verification.Binpack.Checksums
import Bytewright.Verification.Binpack.Refusals

/-! # Where a decoding error is reported -/

namespace Bytewright.Binpack

open Bytewright.Common

/-! ### The position a section's records are blamed at -/

/-- Parsing comes to the records of the section that the entry `e` describes. -/
structure Reaches (data : Bytes) (opts : Options) (e : Entry) : Prop where
  /-- The table is read, and so are the sections in front of this one. -/
  opened : ∃ c r before behind t c' t', readHeader opts.strict { data } = .ok c r ∧
    readTable c.sectionCount r = .ok (before ++ e :: behind) t ∧
    before.foldlM (sectionRound opts) c t = .ok c' t'
  inFile : e.offset.toNat + e.length.toNat ≤ data.length
  checked : opts.strict = true → crc32 (e.bodyIn data) = e.crc32Stored
  decoded : e.type ≠ .kFree

theorem Entry.length_bodyIn {e : Entry} {data : Bytes}
    (h : e.offset.toNat + e.length.toNat ≤ data.length) :
    (e.bodyIn data).length = e.length.toNat := by
  rw [Entry.bodyIn, List.length_take, List.length_drop]
  omega

theorem verifyCrc_run {σ : Type} {computed stored : UInt32} {strict : Bool} {offset : Nat}
    {what : String} (h : strict = true → computed = stored) (s : σ) :
    verifyCrc computed stored strict offset what s = .ok (decide (computed = stored)) s := by
  unfold verifyCrc
  by_cases heq : computed = stored
  · simp [heq]
  · have hlenient : strict = false := Bool.eq_false_of_not_eq_true fun hs => heq (h hs)
    simp [heq, hlenient]

/-- What the decoder throws is what the section's round throws. -/
theorem sectionRound_error {opts : Options} {e : Entry} {c : Container} {t s : ByteReader}
    {err : Fault} (hfile : e.offset.toNat + e.length.toNat ≤ t.data.length)
    (hcrc : opts.strict = true → crc32 (e.bodyIn t.data) = e.crc32Stored) (htype : e.type ≠ .kFree)
    (h : parseStream opts.maxDepth e.offset.toNat 0 { data := e.bodyIn t.data } = .error err s) :
    sectionRound opts c e t = .error err t := by
  have hrange : ¬ (e.offset.toNat > t.size ∨ e.offset.toNat + e.length.toNat > t.size ∨
      e.offset.toNat + e.length.toNat < e.offset.toNat) := by
    have hsize : t.size = t.data.length := rfl
    omega
  have hread : (readWithin (e.bodyIn t.data) (parseStream opts.maxDepth e.offset.toNat 0) :
      Reader (List Record)) t = .error err t := by
    rw [readWithin, h]
    rfl
  apply bind_of_error
  rw [parseSection, bind_of_ok (get_run t)]
  rw [Entry.bodyIn] at hcrc hread
  dsimp only
  rw [if_neg hrange, bind_of_ok (verifyCrc_run hcrc t), if_neg htype]
  exact bind_of_error hread

theorem parse_section_error {data : Bytes} {opts : Options} {e : Entry} {err : Fault} {s : ByteReader}
    (hreach : Reaches data opts e)
    (h : parseStream opts.maxDepth e.offset.toNat 0 { data := e.bodyIn data } = .error err s) :
    parse data opts = .error err := by
  obtain ⟨c, r, before, behind, t, c', t', hheader, htable, hbefore⟩ := hreach.opened
  obtain ⟨rfl, -⟩ := readHeader_ok hheader
  obtain ⟨hdata, -⟩ := readTable_ok htable
  obtain ⟨rfl, -⟩ := foldlM_sectionRound_ok hbefore
  have hdata : t'.data = data := hdata
  have hround : sectionRound opts c' e t' = .error err t' :=
    sectionRound_error (hdata ▸ hreach.inFile) (hdata ▸ hreach.checked) hreach.decoded (hdata ▸ h)
  have hrounds : (before ++ e :: behind).foldlM (sectionRound opts) c t' = .error err t' := by
    rw [List.foldlM_append, bind_of_ok hbefore, List.foldlM_cons]
    exact bind_of_error hround
  rw [parse, parseContainer, bind_of_ok hheader, bind_of_ok htable, bind_of_error hrounds]

/-! ### Where the decoding stops -/

/-- The position of the body at which the decoder stops, where it has one. -/
def Defect.place? : Defect → Option Nat
  | .cursor start (.thrown e) => some (start + e.offset)
  | .cursor _ _ => none
  | .check _ pos _ => some pos

/-- The error points at the file position of this place of the body, and so into the section. -/
structure BlamesFile (e : Entry) (pos : Nat) (err : ParseError) : Prop where
  real : err.offset = e.offset.toNat + pos
  inSection : e.offset.toNat ≤ err.offset ∧ err.offset ≤ e.offset.toNat + e.length.toNat

theorem readHeader_magic {strict : Bool} {data : Bytes} {c : Container} {r : ByteReader}
    (h : readHeader strict { data } = .ok c r) : data.take 4 = kMagic := by
  obtain ⟨r', r'', hget, h⟩ := bind_eq_ok.mp h
  cases hget
  obtain ⟨magic, t, hmagic, h⟩ := bind_eq_ok.mp h
  obtain ⟨rfl, -⟩ := readRaw_at hmagic
  rw [ite_run] at h
  split at h
  · cases h
  · next hmagic => exact not_not.mp hmagic

/-- A body that begins with the magic of the file is not decoded past its first record's header. -/
theorem start_of_magic {maxDepth n start : Nat} {data : Bytes} {fault : Fault} (hmagic : data.take 4 = kMagic)
    (h : defect? maxDepth (data.take n) = some (.cursor start fault)) : start = 0 := by
  obtain ⟨rest, rfl⟩ : ∃ rest, data = 0x42 :: 0x50 :: rest := by
    rw [← List.take_append_drop 4 data, hmagic]
    exact ⟨_, rfl⟩
  match n with
  | 0 => cases h
  | 1 =>
      have hcut : defect? maxDepth [0x42] = some (.cursor 0 (.thrown ⟨.kShortRead, 1, describe .kShortRead⟩)) := rfl
      cases hcut.symm.trans h
      rfl
  | n + 2 =>
      have hcheck : defect? maxDepth (0x42 :: 0x50 :: rest.take n) =
          some (.check .kBadType 0 "unknown record tag") := rfl
      cases hcheck.symm.trans h

/-- Of what stops the decoder, a check of the record parser is blamed on the place in the file where it
fails. What the byte cursor over a payload throws is not, but in a section that is the file's front. -/
theorem parse_section_position_iff {data : Bytes} {opts : Options} {e : Entry} {err : ParseError}
    {s : ByteReader} (hreach : Reaches data opts e)
    (h : parseStream opts.maxDepth e.offset.toNat 0 { data := e.bodyIn data } = .error (.thrown err) s) :
    parse data opts = .error (.thrown err) ∧
    ∃ d pos, defect? opts.maxDepth (e.bodyIn data) = some d ∧ .thrown err = d.reported e.offset.toNat ∧
      d.place? = some pos ∧
      (BlamesFile e pos err ↔ Refuses opts.maxDepth (e.bodyIn data) ∨ e.offset = 0) := by
  refine ⟨parse_section_error hreach h, ?_⟩
  obtain ⟨d, hd, hreported⟩ := parseStream_error h
  have hwithin := defect?_within hd
  rw [Entry.length_bodyIn hreach.inFile] at hwithin
  have hrefuses := defect?_check_iff opts.maxDepth (e.bodyIn data)
  rw [hd] at hrefuses
  cases d with
  | check code pos what =>
      cases hreported
      refine ⟨_, pos, hd, rfl, rfl, iff_of_true ⟨rfl, Nat.le_add_right .., ?_⟩ (.inl ?_)⟩
      · exact Nat.add_le_add_left hwithin _
      · exact hrefuses.mp ⟨code, pos, what, rfl⟩
  | cursor start fault =>
      cases hreported
      have hpasses : ¬ Refuses opts.maxDepth (e.bodyIn data) := by
        rw [← hrefuses]
        rintro ⟨code, pos, what, heq⟩
        cases heq
      refine ⟨_, start + err.offset, hd, rfl, rfl, ?_⟩
      rw [or_iff_right hpasses]
      constructor
      · rintro ⟨hreal, -⟩
        exact UInt32.toNat_inj.mp (by rw [UInt32.toNat_zero]; omega)
      · intro hfront
        obtain ⟨c, r, -, -, -, -, -, hheader, -⟩ := hreach.opened
        have hbody : e.bodyIn data = data.take e.length.toNat := by
          rw [Entry.bodyIn, hfront]
          rfl
        rw [hbody] at hd
        have hstart := start_of_magic (readHeader_magic hheader) hd
        have hoffset : e.offset.toNat = 0 := by rw [hfront]; rfl
        have hwithin : start + err.offset ≤ e.length.toNat := hwithin
        exact ⟨by omega, by omega, by omega⟩

/-- A file of one section, at offset 40: a GROUP record with a payload of two bytes, which are a tag and
the flags of a record without a length. -/
def groupFile (tagByte : UInt8) : Bytes :=
  kMagic ++ [1, 0, 0, 0, 1, 0, 0, 0, 25, 125, 53, 244] ++
  [1, 0, 7, 0, 0, 0, 0, 0, 40, 0, 0, 0, 5, 0, 0, 0, 1, 0, 0, 0, 34, 206, 157, 110] ++
  [7, 0, 2, tagByte, 0]

/-- The entry of its section. -/
def groupEntry : Entry where
  type := .kData
  id := 7
  flags := 0
  offset := 40
  length := 5
  itemCount := 1
  crc32Stored := 0x6E9DCE22

theorem reaches_groupFile {tagByte : UInt8}
    (hreturns : ((readHeader false).run' { data := groupFile tagByte }).isSome = true)
    (hcount : u16At (groupFile tagByte) 8 = 1)
    (hentries : (readTable 1).run' (ByteReader.advance { data := groupFile tagByte } kHeaderTotal) =
      some [groupEntry]) : Reaches (groupFile tagByte) {} groupEntry where
  opened := by
    obtain ⟨c, hheader⟩ := Option.isSome_iff_exists.mp hreturns
    obtain ⟨r, hheader⟩ := run'_eq_some hheader
    obtain ⟨rfl, -, hsections, -⟩ := readHeader_ok hheader
    have hone : c.sectionCount = 1 := hsections.trans hcount
    obtain ⟨t, htable⟩ := run'_eq_some hentries
    exact ⟨c, _, [], [], t, c, t, hheader, hone ▸ htable, rfl⟩
  inFile := Nat.le_refl _
  checked := fun hstrict => by cases hstrict
  decoded := by decide

theorem reaches_int : Reaches (groupFile 1) {} groupEntry :=
  reaches_groupFile (by decide +kernel) (by decide) (by decide +kernel)

theorem parseStream_int : ∃ s, parseStream 32 40 0 { data := groupEntry.bodyIn (groupFile 1) } =
    .error (.thrown ⟨.kShortRead, 2, describe .kShortRead⟩) s :=
  ⟨_, rfl⟩

/-- An unknown tag in the GROUP is blamed on its place, and the end of an INT record without a length on
one in front of the section. -/
theorem parse_section_position_iff_groups :
    (∃ err, parse (groupFile 9) {} = .error (.thrown err) ∧ BlamesFile groupEntry 3 err) ∧
    ∃ err, parse (groupFile 1) {} = .error (.thrown err) ∧ ¬ BlamesFile groupEntry 5 err := by
  constructor
  · have hreach : Reaches (groupFile 9) {} groupEntry :=
      reaches_groupFile (by decide +kernel) (by decide) (by decide +kernel)
    have hstream : parseStream 32 40 0 { data := groupEntry.bodyIn (groupFile 9) } =
        .error (.thrown ⟨.kBadType, 43, "unknown record tag"⟩) _ := rfl
    have hrefuses : Refuses 32 (groupEntry.bodyIn (groupFile 9)) :=
      (defect?_check_iff 32 _).mp ⟨.kBadType, 3, "unknown record tag", rfl⟩
    obtain ⟨hparse, d, pos, hd, -, hpos, hiff⟩ := parse_section_position_iff hreach hstream
    cases hd
    cases hpos
    exact ⟨_, hparse, hiff.mpr (.inl hrefuses)⟩
  · obtain ⟨s, hstream⟩ := parseStream_int
    obtain ⟨hparse, d, pos, hd, -, hpos, hiff⟩ := parse_section_position_iff reaches_int hstream
    have hpasses : ¬ Refuses 32 (groupEntry.bodyIn (groupFile 1)) := by
      rw [← defect?_check_iff]
      rintro ⟨code, pos, what, h⟩
      cases h
    cases hd
    cases hpos
    exact ⟨_, hparse, fun hblames => (hiff.mp hblames).elim hpasses (by decide)⟩

/-- The byte cursor of a nested payload reports a position of that payload. -/
theorem parse_section_position_relative :
    ¬ ∀ (data : Bytes) (opts : Options) (e : Entry) (err : ParseError) (s : ByteReader),
      Reaches data opts e →
      parseStream opts.maxDepth e.offset.toNat 0 { data := e.bodyIn data } = .error (.thrown err) s →
      e.offset.toNat ≤ err.offset ∧ err.offset ≤ e.offset.toNat + e.length.toNat := by
  intro h
  obtain ⟨s, hs⟩ := parseStream_int
  have hpos : 40 ≤ 2 := (h (groupFile 1) {} groupEntry _ s reaches_int hs).1
  omega

end Bytewright.Binpack
