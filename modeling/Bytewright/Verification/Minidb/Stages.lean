import Bytewright.Model.Minidb.Journal
import Bytewright.Verification.Common.ByteReader

/-! # The stages of `open`

What a buffer that is accepted makes of each of them. -/

namespace Bytewright.Minidb

open Bytewright.Common Bytewright.Library

variable {data : Bytes}

/-! ### The header -/

/-- The header of a buffer, field by field. -/
def headerOf (data : Bytes) : FileHeader where
  version := u16At data 4
  pageSize := u16At data 6
  pageCount := u32At data 8
  rootPage := u32At data 12
  stringTablePage := u32At data 16
  journalOffset := u32At data 20
  flags := u32At data 24
  headerCrc32 := u32At data 28
  checksumOk := crc32 (data.take kHeaderCrcCovered) == u32At data 28

theorem matchBytes_state {expected : Bytes} {r s : ByteReader} {b : Bool}
    (h : matchBytes expected r = .ok b s) : s = r := by
  rw [matchBytes, bind_of_ok (get_run r), ite_run] at h
  split at h
  · cases h
    rfl
  · obtain ⟨bs, t, hbytes, h⟩ := bind_eq_ok.mp h
    rw [bytesAt, bind_of_ok (get_run r), ite_run] at hbytes
    split at hbytes
    · cases hbytes
      cases h
      rfl
    · cases hbytes

theorem require_state {n : Nat} {r s : ByteReader} {u : Unit} (h : require n r = .ok u s) : s = r := by
  rw [require_run] at h
  split at h
  · cases h
    rfl
  · cases h

theorem parseHeader_at {strict : Bool} {hdr : FileHeader} {s : ByteReader}
    (h : parseHeader strict { data } = .ok hdr s) :
    hdr = headerOf data ∧ hdr.pageSize ≤ kMaxPageSize ∧ (strict = true → hdr.checksumOk = true) := by
  obtain ⟨u, r, hrequire, h⟩ := bind_eq_ok.mp h
  obtain rfl := require_state hrequire
  obtain ⟨r, r', hget, h⟩ := bind_eq_ok.mp h
  cases hget
  obtain ⟨b, r, hmagic, h⟩ := bind_eq_ok.mp h
  obtain rfl := matchBytes_state hmagic
  rw [ite_run] at h
  split at h
  · cases h
  · obtain ⟨u, r, hskip, h⟩ := bind_eq_ok.mp h
    obtain ⟨u, r', hrequire, hskip⟩ := bind_eq_ok.mp hskip
    obtain rfl := require_state hrequire
    cases hskip
    obtain ⟨version, r, hversion, h⟩ := bind_eq_ok.mp h
    obtain ⟨rfl, rfl⟩ := readU16le_at hversion
    rw [ite_run] at h
    split at h
    · cases h
    · obtain ⟨size, r, hsize, h⟩ := bind_eq_ok.mp h
      obtain ⟨rfl, rfl⟩ := readU16le_at hsize
      rw [ite_run] at h
      split at h
      · cases h
      · next hsound =>
        have hmax : u16At data 6 ≤ kMaxPageSize := UInt16.not_lt.mp fun hgt => hsound (.inr (.inl hgt))
        obtain ⟨pageCount, r, hcount, h⟩ := bind_eq_ok.mp h
        obtain ⟨rfl, rfl⟩ := readU32le_at hcount
        obtain ⟨rootPage, r, hroot, h⟩ := bind_eq_ok.mp h
        obtain ⟨rfl, rfl⟩ := readU32le_at hroot
        obtain ⟨stringTablePage, r, htable, h⟩ := bind_eq_ok.mp h
        obtain ⟨rfl, rfl⟩ := readU32le_at htable
        obtain ⟨journalOffset, r, hjournal, h⟩ := bind_eq_ok.mp h
        obtain ⟨rfl, rfl⟩ := readU32le_at hjournal
        obtain ⟨flags, r, hflags, h⟩ := bind_eq_ok.mp h
        obtain ⟨rfl, rfl⟩ := readU32le_at hflags
        obtain ⟨crc, r, hcrc, h⟩ := bind_eq_ok.mp h
        obtain ⟨rfl, rfl⟩ := readU32le_at hcrc
        obtain ⟨covered, r, hcovered, h⟩ := bind_eq_ok.mp h
        rw [bytesAt, bind_of_ok (get_run _), ite_run] at hcovered
        rw [ite_run] at h
        split at hcovered
        · cases hcovered
          split at h
          · cases h
          · next hcheck =>
            cases h
            refine ⟨rfl, hmax, ?_⟩
            rintro rfl
            simpa using hcheck
        · cases hcovered

/-! ### The journal -/

/-- The replay, and with it everything else, leaves the rest of the database alone. -/
theorem replayJournal_ok {hdr : FileHeader} {spans : List PageSpan} {db₀ db : Database}
    (h : replayJournal data hdr spans db₀ = .ok db) : ∃ s records,
    (if hdr.journalOffset ≠ 0 ∧ hdr.journalOffset.toNat < data.length then
      replay (seedFromPages data spans db₀.pages) (data.drop hdr.journalOffset.toNat)
    else .ok { committed := seedFromPages data spans db₀.pages }) = .ok s ∧
    decodeRecords s.committed db₀.stringTable = .ok records ∧
    db = { db₀ with
      hasJournal := db₀.hasJournal || hdr.journalOffset ≠ 0
      committedOps := s.committedOps
      rolledBackOps := s.rolledBackOps
      records } := by
  rw [replayJournal] at h
  dsimp only at h
  split at h
  · next hjournal =>
    rcases outcome_bind_eq_ok.mp h with ⟨s, hs, h⟩
    rcases outcome_bind_eq_ok.mp h with ⟨records, hrecords, h⟩
    cases h
    exact ⟨s, records, (if_pos hjournal).trans hs, hrecords, rfl⟩
  · next hnone =>
    rcases outcome_bind_eq_ok.mp h with ⟨s, hs, h⟩
    rcases outcome_bind_eq_ok.mp h with ⟨records, hrecords, h⟩
    cases h
    exact ⟨s, records, (if_neg hnone).trans hs, hrecords, rfl⟩

/-! ### The whole buffer -/

/-- What the stages hand to each other on the way to a database. -/
structure Stages (data : Bytes) (opts : Options) (spans : List PageSpan) (s : ReplayState)
    (db : Database) : Prop where
  header : ∃ r, parseHeader opts.strict { data } = .ok (headerOf data) r
  pageSize : db.pageSize = (headerOf data).pageSize
  pageCount : db.pageCount = (headerOf data).pageCount
  stringTablePage : db.stringTablePage = (headerOf data).stringTablePage
  journalOffset : db.journalOffset = (headerOf data).journalOffset
  pages : parsePages data (headerOf data) = .ok (spans, db.pages)
  stringTable : parseStringTable data (headerOf data) spans db.pages = .ok db.stringTable
  journal : (if db.journalOffset ≠ 0 ∧ db.journalOffset.toNat < data.length then
      replay (seedFromPages data spans db.pages) (data.drop db.journalOffset.toNat)
    else .ok { committed := seedFromPages data spans db.pages }) = .ok s
  records : decodeRecords s.committed db.stringTable = .ok db.records

theorem openDb_stages {opts : Options} {db : Database} (h : openDb data opts = .ok db) :
    ∃ spans s, Stages data opts spans s db := by
  rw [openDb] at h
  split at h
  · cases h
  · next hdr r hheader =>
    obtain rfl := (parseHeader_at hheader).1
    rcases outcome_bind_eq_ok.mp h with ⟨⟨spans, pages⟩, hpages, h⟩
    rcases outcome_bind_eq_ok.mp h with ⟨table, htable, h⟩
    rcases replayJournal_ok h with ⟨s, records, hjournal, hrecords, rfl⟩
    exact ⟨spans, s, ⟨r, hheader⟩, rfl, rfl, rfl, rfl, hpages, htable, hjournal, hrecords⟩

/-- The verdict on the header is that of its CRC. In strict mode only one is accepted. -/
theorem openDb_checksumOk {opts : Options} {db : Database} (h : openDb data opts = .ok db) :
    db.checksumOk = (crc32 (data.take kHeaderCrcCovered) == u32At data 28) ∧
      (opts.strict = true → db.checksumOk = true) := by
  rw [openDb] at h
  split at h
  · cases h
  · next hdr r hheader =>
    obtain ⟨rfl, -, hstrict⟩ := parseHeader_at hheader
    rcases outcome_bind_eq_ok.mp h with ⟨⟨spans, pages⟩, -, h⟩
    rcases outcome_bind_eq_ok.mp h with ⟨table, -, h⟩
    rcases replayJournal_ok h with ⟨s, records, -, -, rfl⟩
    exact ⟨rfl, hstrict⟩

namespace Stages

variable {opts : Options} {spans : List PageSpan} {s : ReplayState} {db : Database}

/-- The page size of an accepted buffer is bounded. -/
theorem pageSize_le (h : Stages data opts spans s db) : db.pageSize.toNat ≤ 8192 := by
  rcases h.header with ⟨r, hheader⟩
  rw [h.pageSize]
  exact UInt16.le_iff_toNat_le.mp (parseHeader_at hheader).2.1

/-- Without a journal the records are those of the pages. -/
theorem committed (h : Stages data opts spans s db) (hnone : db.journalOffset = 0) :
    s.committed = seedFromPages data spans db.pages := by
  have hjournal := h.journal
  rw [if_neg fun hsome => hsome.1 hnone] at hjournal
  cases hjournal
  rfl

end Stages

end Bytewright.Minidb
