import Bytewright.Model.Binpack.Builder
import Bytewright.Model.Binpack.Parser
import Bytewright.Verification.Common.Codec

/-! # The layout of a built file

Header, section table, bodies, trailer: what the two passes of `build` leave behind. -/

namespace Bytewright.Binpack

open Bytewright.Common Bytewright.Library

/-! ### Table entries -/

/-- The table entry of a section whose body starts at `offset`. -/
def entryAt (row : SectionSpec × Bool) (offset : UInt32) : Entry where
  type := row.1.type
  id := row.1.id
  flags := row.1.flags
  offset := offset
  length := UInt32.ofNat row.1.body.length
  itemCount := row.1.declaredCount row.2
  crc32Stored := crc32 row.1.body

/-- The entries of sections whose bodies lie back to back from `pos` on. -/
def entriesFrom (pos : Nat) : List (SectionSpec × Bool) → List Entry
  | [] => []
  | row :: rows => entryAt row (UInt32.ofNat pos) :: entriesFrom (pos + row.1.body.length) rows

def Entry.wire (e : Entry) : Bytes :=
  leBytes 2 e.type.raw.toNat ++ (leBytes 2 e.id.toNat ++ (leBytes 2 e.flags.toNat ++
    (leBytes 2 (0 : UInt16).toNat ++ (leBytes 4 e.offset.toNat ++ (leBytes 4 e.length.toNat ++
      (leBytes 4 e.itemCount.toNat ++ leBytes 4 e.crc32Stored.toNat))))))

@[simp] theorem Entry.wire_length (e : Entry) : e.wire.length = kSectionEntryBytes := by
  simp [Entry.wire, kSectionEntryBytes]

theorem length_flatMap_wire (es : List Entry) :
    (es.flatMap Entry.wire).length = kSectionEntryBytes * es.length := by
  induction es with
  | nil => rfl
  | cons e es ih =>
      rw [List.flatMap_cons, List.length_append, ih, Entry.wire_length, List.length_cons,
        Nat.mul_succ, Nat.add_comm]

@[simp] theorem length_entriesFrom (pos : Nat) (rows : List (SectionSpec × Bool)) :
    (entriesFrom pos rows).length = rows.length := by
  induction rows generalizing pos with
  | nil => rfl
  | cons row rows ih => rw [entriesFrom, List.length_cons, List.length_cons, ih]

@[simp] theorem SectionType.ofRaw?_raw (t : SectionType) : SectionType.ofRaw? t.raw = some t := by
  cases t <;> rfl

theorem reads_readEntry (e : Entry) : Reads readEntry e.wire e := by
  unfold readEntry Entry.wire
  apply Reads.bind (reads_readU16le e.type.raw)
  rw [SectionType.ofRaw?_raw]
  apply Reads.bind (reads_readU16le e.id)
  apply Reads.bind (reads_readU16le e.flags)
  apply Reads.bind (reads_readU16le 0)
  apply Reads.bind (reads_readU32le e.offset)
  apply Reads.bind (reads_readU32le e.length)
  apply Reads.bind (reads_readU32le e.itemCount)
  exact (reads_readU32le e.crc32Stored).bind_last (Reads.pure e)

/-! ### The table loop and the body loop -/

theorem patchU32le_reserved (front back : Bytes) (v : UInt32) :
    (⟨front ++ (leBytes 4 0 ++ back)⟩ : ByteWriter).patchU32le front.length v =
      ⟨front ++ (leBytes 4 v.toNat ++ back)⟩ := by
  simp [ByteWriter.patchU32le, List.drop_append]

/-- Where the offset fields of a table at `pos` are. -/
def slotsFrom (pos : Nat) : List (SectionSpec × Bool) → List Nat
  | [] => []
  | _ :: rows => (pos + 8) :: slotsFrom (pos + kSectionEntryBytes) rows

theorem putTableEntry_eq (slots : List Nat) (w : ByteWriter) (row : SectionSpec × Bool) :
    putTableEntry (slots, w) row = (slots ++ [w.size + 8], ⟨w.buffer ++ (entryAt row 0).wire⟩) := by
  have hzero : leBytes 4 0 = [0, 0, 0, 0] := by decide
  simp [putTableEntry, ByteWriter.reserveU32le, ByteWriter.size, ByteWriter.putU16le,
    ByteWriter.putU32le, ByteWriter.putBytes, Entry.wire, entryAt, hzero]

theorem foldl_putTableEntry (slots : List Nat) (w : ByteWriter) (rows : List (SectionSpec × Bool)) :
    rows.foldl putTableEntry (slots, w) =
      (slots ++ slotsFrom w.size rows, ⟨w.buffer ++ rows.flatMap fun row => (entryAt row 0).wire⟩) := by
  induction rows generalizing slots w with
  | nil => simp [slotsFrom]
  | cons row rows ih =>
      rw [List.foldl_cons, putTableEntry_eq, ih]
      simp [slotsFrom, ByteWriter.size]

/-- Patching the offset field of a blank entry makes it the entry of that offset. -/
theorem patchU32le_entry (row : SectionSpec × Bool) (front back : Bytes) (v : UInt32) :
    (⟨front ++ ((entryAt row 0).wire ++ back)⟩ : ByteWriter).patchU32le (front.length + 8) v =
      ⟨front ++ ((entryAt row v).wire ++ back)⟩ := by
  have h := patchU32le_reserved
    (front ++ (leBytes 2 row.1.type.raw.toNat ++ (leBytes 2 row.1.id.toNat ++
      (leBytes 2 row.1.flags.toNat ++ leBytes 2 (0 : UInt16).toNat))))
    (leBytes 4 (UInt32.ofNat row.1.body.length).toNat ++ (leBytes 4 (row.1.declaredCount row.2).toNat ++
      (leBytes 4 (crc32 row.1.body).toNat ++ back))) v
  simp only [Entry.wire, entryAt, List.length_append, leBytes_length, List.append_assoc] at h ⊢
  exact h

/-- The body loop with `front` behind it: the entries of `rows` get their offsets, and the bodies
follow those already there. -/
theorem foldl_putBody (rows : List (SectionSpec × Bool)) (front behind : Bytes) (pos : Nat)
    (hpos : front.length + kSectionEntryBytes * rows.length + behind.length = pos) :
    ((slotsFrom front.length rows).zip (rows.map fun row => row.1.body)).foldl putBody
        ⟨front ++ (rows.flatMap (fun row => (entryAt row 0).wire) ++ behind)⟩ =
      ⟨front ++ ((entriesFrom pos rows).flatMap Entry.wire ++
        (behind ++ rows.flatMap fun row => row.1.body))⟩ := by
  induction rows generalizing front behind pos with
  | nil => simp [slotsFrom, entriesFrom]
  | cons row rows ih =>
      have hsize : (⟨front ++ ((entryAt row 0).wire ++
          (rows.flatMap (fun row => (entryAt row 0).wire) ++ behind))⟩ : ByteWriter).size = pos := by
        have hblank := length_flatMap_wire (rows.map fun row => entryAt row 0)
        rw [List.flatMap_map, List.length_map] at hblank
        rw [← hpos, ByteWriter.size, List.length_append, List.length_append, List.length_append,
          hblank, Entry.wire_length, List.length_cons, Nat.mul_succ]
        omega
      have hfront : front.length + kSectionEntryBytes =
          (front ++ (entryAt row (UInt32.ofNat pos)).wire).length := by simp
      have hstep : putBody ⟨front ++ ((entryAt row 0).wire ++
            (rows.flatMap (fun row => (entryAt row 0).wire) ++ behind))⟩
            (front.length + 8, row.1.body) =
          ⟨(front ++ (entryAt row (UInt32.ofNat pos)).wire) ++
            (rows.flatMap (fun row => (entryAt row 0).wire) ++ (behind ++ row.1.body))⟩ := by
        rw [putBody, hsize, patchU32le_entry]
        simp [ByteWriter.putBytes]
      rw [slotsFrom, List.map_cons, List.zip_cons_cons, List.foldl_cons, List.flatMap_cons,
        List.append_assoc, hstep, hfront, ih _ _ (pos + row.1.body.length), entriesFrom]
      · simp
      · rw [← hfront, ← hpos, List.length_append, List.length_cons, Nat.mul_succ]
        omega

/-! ### The file -/

namespace Builder

/-- The sections, each with whether its item count is explicit. -/
def rows (b : Builder) : List (SectionSpec × Bool) := b.sections.zip b.itemCountExplicit

def headerFields (b : Builder) : Bytes :=
  kMagic ++ (leBytes 2 b.version.toNat ++ (leBytes 2 b.flags.toNat ++
    (leBytes 2 (UInt16.ofNat b.sections.length).toNat ++ leBytes 2 (0 : UInt16).toNat)))

def header (b : Builder) : Bytes := b.headerFields ++ leBytes 4 (crc32 b.headerFields).toNat

/-- Where the bodies start. -/
def bodiesAt (b : Builder) : Nat := kHeaderTotal + kSectionEntryBytes * b.rows.length

def entries (b : Builder) : List Entry := entriesFrom b.bodiesAt b.rows

def bodies (b : Builder) : Bytes := b.rows.flatMap fun row => row.1.body

/-- The file without its trailer. -/
def main (b : Builder) : Bytes :=
  b.header ++ (b.entries.flatMap Entry.wire ++ b.bodies)

def trailer (b : Builder) : Bytes :=
  if b.hasTrailerCrc then leBytes 4 (crc32 b.main).toNat else []

theorem map_fst_rows (b : Builder) : b.rows.map Prod.fst = b.sections :=
  List.map_fst_zip b.parallel.ge

theorem length_rows (b : Builder) : b.rows.length = b.sections.length := by
  rw [← b.map_fst_rows, List.length_map]

theorem length_headerFields (b : Builder) : b.headerFields.length = kHeaderBytes := by
  simp [headerFields, kMagic, kHeaderBytes, ascii]

theorem length_header (b : Builder) : b.header.length = kHeaderTotal := by
  rw [header, List.length_append, b.length_headerFields, leBytes_length]
  rfl

theorem putHeader_eq (b : Builder) :
    b.putHeader {} = ⟨b.header⟩ := by
  let w : ByteWriter := {}
  have hfields : ((((w.putBytes (ascii "BPK1")).putU16le b.version).putU16le b.flags).putU16le
      (UInt16.ofNat b.sections.length)).putU16le 0 = ⟨b.headerFields⟩ := by
    simp [headerFields, ByteWriter.putBytes, ByteWriter.putU16le, kMagic, w]
  have htake : b.headerFields.take 12 = b.headerFields :=
    List.take_of_length_le b.length_headerFields.le
  rw [putHeader, hfields, htake]
  rfl

theorem build_eq (b : Builder) : b.build = b.main ++ b.trailer := by
  have hbodies : b.sections.map SectionSpec.body = b.rows.map fun row => row.1.body := by
    rw [← b.map_fst_rows, List.map_map]
    rfl
  have htable : (b.sections.zip b.itemCountExplicit).foldl putTableEntry ([], b.putHeader {}) =
      (slotsFrom b.header.length b.rows,
        ⟨b.header ++ (b.rows.flatMap (fun row => (entryAt row 0).wire) ++ [])⟩) := by
    rw [b.putHeader_eq, List.append_nil]
    exact foldl_putTableEntry [] _ b.rows
  have hmain : ((slotsFrom b.header.length b.rows).zip (b.sections.map SectionSpec.body)).foldl putBody
      ⟨b.header ++ (b.rows.flatMap (fun row => (entryAt row 0).wire) ++ [])⟩ = ⟨b.main⟩ := by
    rw [hbodies]
    exact foldl_putBody b.rows b.header [] b.bodiesAt (by rw [b.length_header]; rfl)
  unfold build trailer
  simp only [htable, hmain]
  cases b.hasTrailerCrc
  · exact (List.append_nil _).symm
  · rfl

end Builder

end Bytewright.Binpack
