import Bytewright.Verification.Common.Checksum
import Bytewright.Verification.Binpack.Checksums
import Bytewright.Verification.Minidb.Stages

/-! # Corruption under a checksum

What a burst of wrong bits does to the files that store a CRC-32. -/

namespace Bytewright

open Common Library

/-- A section whose body was hit by a burst after its CRC was stored. -/
theorem Binpack.parse_burst {data : Bytes} {opts : Binpack.Options} {c : Binpack.Container}
    (h : Binpack.parse data opts = .ok c) {s : Binpack.Section} (hs : s ∈ c.sections) {body : Bytes}
    (hstored : crc32 body = s.crc32Stored) (hburst : Burst lsbFirst 32 body (s.bodyIn data)) :
    opts.strict = false ∧ s.bodyChecksumOk = false ∧ c.checksumOk = false := by
  obtain ⟨hverdict, hstrict, hall⟩ := Binpack.parse_verdict h hs
  have hbad : s.bodyChecksumOk = false := by
    rw [hverdict, decide_eq_false_iff_not, ← hstored]
    exact (crc32_ne hburst).symm
  rw [hbad] at hstrict hall
  exact ⟨by simpa using hstrict, hbad, by simpa using hall⟩

/-- A header that was hit by a burst after its CRC was stored. -/
theorem Minidb.openDb_burst {data : Bytes} {opts : Minidb.Options} {db : Minidb.Database}
    (h : Minidb.openDb data opts = .ok db) {covered : Bytes} (hstored : crc32 covered = u32At data 28)
    (hburst : Burst lsbFirst 32 covered (data.take Minidb.kHeaderCrcCovered)) :
    opts.strict = false ∧ db.checksumOk = false := by
  obtain ⟨hverdict, hstrict⟩ := Minidb.openDb_checksumOk h
  have hbad : db.checksumOk = false := by
    rw [hverdict, beq_eq_false_iff_ne, ← hstored]
    exact (crc32_ne hburst).symm
  rw [hbad] at hstrict
  exact ⟨by simpa using hstrict, hbad⟩

/-- The CRC of the table is the one defined bit by bit. It tells byte strings apart that differ in a
burst of 32 bits, so both containers flag bytes that changed in one since their CRC was stored. -/
theorem crc32_flags_bursts :
    (∀ data, crc32 data = crc32Bitwise data) ∧
    (∀ x y, Burst lsbFirst 32 x y → crc32 x ≠ crc32 y) ∧
    (∀ data opts c s body, Binpack.parse data opts = .ok c → s ∈ c.sections →
      crc32 body = s.crc32Stored → Burst lsbFirst 32 body (s.bodyIn data) →
      opts.strict = false ∧ s.bodyChecksumOk = false ∧ c.checksumOk = false) ∧
    ∀ data opts db covered, Minidb.openDb data opts = .ok db → crc32 covered = u32At data 28 →
      Burst lsbFirst 32 covered (data.take Minidb.kHeaderCrcCovered) →
      opts.strict = false ∧ db.checksumOk = false :=
  ⟨crc32_eq_bitwise, fun _ _ => crc32_ne, fun _ _ _ _ _ h hs => Binpack.parse_burst h hs,
    fun _ _ _ _ h => Minidb.openDb_burst h⟩

/-- A container with one section, whose body was `AB` when its CRC was stored. -/
def hitBody : Bytes :=
  ascii "BPK1" ++ [1, 0, 0, 0, 1, 0, 0, 0] ++ [0, 0, 0, 0] ++
    ([0, 0, 0, 0, 0, 0, 0, 0] ++ [40, 0, 0, 0] ++ [2, 0, 0, 0] ++ [0, 0, 0, 0] ++
      leBytes 4 (crc32 (ascii "AB")).toNat) ++ ascii "AC"

/-- The front of a header. -/
def headerFront : Bytes :=
  ascii "MDB1" ++ [1, 0, 64, 0] ++ [0, 0, 0, 0] ++ [0, 0, 0, 0] ++ [0xFF, 0xFF, 0xFF, 0xFF] ++ [0, 0, 0, 0]

/-- A database whose header had no flags when its CRC was stored. -/
def hitHeader : Bytes :=
  headerFront ++ ([1, 0, 0, 0] ++ leBytes 4 (crc32 (headerFront ++ ([0, 0, 0, 0] ++ []))).toNat)

theorem crc32_flags_bursts_hit :
    crc32 (ascii "AB") = crc32Bitwise (ascii "AB") ∧ crc32 (ascii "AB") ≠ crc32 (ascii "AC") ∧
    (∃ c, Binpack.parse hitBody {} = .ok c ∧ c.checksumOk = false) ∧
    ∃ db, Minidb.openDb hitHeader {} = .ok db ∧ db.checksumOk = false := by
  obtain ⟨hbitwise, hdiffer, hbinpack, hminidb⟩ := crc32_flags_bursts
  have hbody : Burst lsbFirst 32 (ascii "AB") (ascii "AC") :=
    .of_bytes lsbFirst_order (x := [0x42]) (y := [0x43]) [0x41] [] rfl (by decide) (by decide)
  have hheader : Burst lsbFirst 32 (headerFront ++ ([0, 0, 0, 0] ++ [])) (hitHeader.take 28) :=
    .of_bytes lsbFirst_order (y := [1, 0, 0, 0]) headerFront [] rfl (by decide) (by decide)
  refine ⟨hbitwise _, hdiffer _ _ hbody, ?_, ?_⟩
  · have hsections : (Binpack.parse hitBody {}).map (·.sections.map fun s =>
        (s.bodyIn hitBody, s.crc32Stored)) = .ok [(ascii "AC", crc32 (ascii "AB"))] := by
      decide +kernel
    cases hparse : Binpack.parse hitBody {} with
    | error e =>
        rw [hparse] at hsections
        cases hsections
    | ok c =>
        rw [hparse] at hsections
        obtain ⟨s, hs, hsection⟩ := List.map_eq_singleton_iff.mp (Except.ok.inj hsections)
        obtain ⟨hbytes, hstored⟩ := Prod.mk.inj hsection
        exact ⟨c, rfl, (hbinpack _ _ c s _ hparse (by simp [hs]) hstored.symm (hbytes ▸ hbody)).2.2⟩
  · have hok : (Minidb.openDb hitHeader {}).isOk = true := by decide +kernel
    cases hopen : Minidb.openDb hitHeader {} with
    | error e =>
        rw [hopen] at hok
        cases hok
    | ok db =>
        exact ⟨db, rfl, (hminidb _ _ db _ hopen (by decide +kernel) hheader).2⟩

end Bytewright
