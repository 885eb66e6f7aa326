import Mathlib.Tactic.IntervalCases
import Bytewright.Verification.Minidb.Pages
import Bytewright.Verification.Minidb.StringTable

/-! # The string table of a slotted page

The table is read from behind the header of its page, and there a slotted page has its directory. -/

namespace Bytewright.Minidb

open Bytewright.Common Bytewright.Library

/-! ### The ring of a slot -/

/-- Two bytes that `put_varint` writes for a length. -/
theorem varintBytes_pair {lo hi : UInt8} (hlo : 128 ≤ lo.toNat) (hhi : hi.toNat < 128)
    (hpos : 0 < hi.toNat) : ∃ v, varintBytes v = [lo, hi] := by
  have hlt := lo.toNat_lt
  have hv : (UInt64.ofNat (lo.toNat - 128 + 128 * hi.toNat)).toNat = lo.toNat - 128 + 128 * hi.toNat := by
    rw [UInt64.toNat_ofNat', Nat.mod_eq_of_lt (by omega)]
  generalize UInt64.ofNat (lo.toNat - 128 + 128 * hi.toNat) = v at hv
  have hshift : v >>> 7 = hi.toUInt64 := by
    apply UInt64.toNat_inj.mp
    rw [toNat_shiftRight_seven, hv, UInt8.toNat_toUInt64]
    omega
  have hhead : ((v &&& 0x7F) ||| 0x80).toUInt8 = lo := by
    apply UInt8.toNat_inj.mp
    rw [toNat_continuation_byte, hv]
    omega
  exact ⟨v, by rw [varintBytes_of_ge (by omega), hshift, varintBytes_byte hhi, hhead]⟩

/-- A length below 128 in two bytes, which `put_varint` never writes. -/
theorem reads_padded {lo : UInt8} (hlo : 128 ≤ lo.toNat) :
    ∃ v : UInt64, v.toNat = lo.toNat - 128 ∧ Reads readVarint [lo, 0] v := by
  have hlt := lo.toNat_lt
  have hvarint : IsVarint [lo, 0] := .more hlo (.last (by decide))
  have hvalue : varintValue [lo, 0] = lo.toNat - 128 := by
    rw [varintValue_cons, varintValue_cons, varintValue_nil, UInt8.toNat_zero]
    omega
  refine ⟨_, ?_, hvarint.reads (Nat.le_add_left _ 8) (by omega)⟩
  rw [hvalue, UInt64.toNat_ofNat', Nat.mod_eq_of_lt (by omega)]

/-- The rest of the slot directory entry of a record at offset 12, and the count of the record. -/
theorem round_slot {lo hi n : UInt8} (hn : n.toNat < 128) (hhi : hi.toNat < 128)
    (h : lo.toNat < 128 ∨ 0 < hi.toNat) : Round [0, lo, hi, n] := by
  rcases Nat.lt_or_ge lo.toNat 128 with hlo | hlo
  · apply round_of_bytes (List.cons_ne_nil _ _)
    simp [hlo, hhi, hn]
  · have hpos : 0 < hi.toNat := h.resolve_left (Nat.not_lt.mpr hlo)
    rcases varintBytes_pair hlo hhi hpos with ⟨v, hv⟩
    intro k
    rw [← List.rotate_mod]
    have hk : k % [0, lo, hi, n].length < 4 := Nat.mod_lt k (Nat.succ_pos 3)
    generalize k % [0, lo, hi, n].length = k at hk
    interval_cases k
    · exact ⟨UInt64.ofNat 0, by
        rw [varintBytes_ofNat_of_lt (by decide)]
        exact ⟨[lo, hi, n], rfl⟩⟩
    · exact ⟨v, by simp [hv]⟩
    · exact ⟨hi.toUInt64, by simp [varintBytes_byte hhi]⟩
    · exact ⟨n.toUInt64, by simp [varintBytes_byte hn]⟩

/-- Entries behind a padded length: without the padding they stand behind a ring of three bytes. -/
theorem length_of_padded {entry : Bytes} {entries pieces : List Bytes}
    (hall : List.Forall₂ Spells (entry :: entries) pieces) {lo n : UInt8} (hlo : 128 ≤ lo.toNat)
    (hn : n.toNat < 128) {z t : Bytes}
    (heq : [lo, 0, n, 0] ++ ((entry :: entries).flatMap entryBytes ++ z) = pieces.flatten ++ t) :
    entry.length = lo.toNat - 128 ∧ ((entry :: entries).flatMap entryBytes).length =
      strides (entry :: entries).length entry.length n.toNat 0 := by
  rcases hall with _ | @⟨_, _, _, pieces, ⟨lenBytes, len, hreads, hlength, rfl⟩, hall⟩
  rcases reads_padded hlo with ⟨v, hv, hpadded⟩
  have hback : [lo, 0] ++ ([n, 0] ++ (entryBytes entry ++ (entries.flatMap entryBytes ++ z))) =
      lenBytes ++ (entry ++ (pieces.flatten ++ t)) := by
    simpa using heq
  rcases hpadded.unique hreads hback with ⟨rfl, rfl⟩
  have hbound := lo.toNat_lt
  have hlt : entry.length < 128 := by omega
  have hbyte : (UInt8.ofNat entry.length).toNat = entry.length := by
    rw [UInt8.toNat_ofNat', Nat.mod_eq_of_lt (by omega)]
  have hring : [UInt8.ofNat entry.length, n, 0] ++ ((entry :: entries).flatMap entryBytes ++ z) =
      (entryBytes entry :: pieces).flatten ++ t := by
    calc [UInt8.ofNat entry.length, n, 0] ++ ((entry :: entries).flatMap entryBytes ++ z)
        = UInt8.ofNat entry.length ::
            ([n, 0] ++ (entryBytes entry ++ (entries.flatMap entryBytes ++ z))) := by simp
      _ = UInt8.ofNat entry.length :: (entry ++ (pieces.flatten ++ t)) := by
          rw [List.append_cancel_left hback]
      _ = (entryBytes entry :: pieces).flatten ++ t := by simp [entryBytes_of_lt hlt]
  have hstrides := length_eq_strides (.cons (spells_entryBytes (by omega)) hall) (by rwa [hbyte])
    hn (by decide) hring
  rw [hbyte] at hstrides
  exact ⟨by rw [hlength, hv], hstrides⟩

theorem strides_ne : ∀ n < 13, ∀ v < 128, strides (n - 1) v n 0 ≠ v + 126 := by
  decide +kernel

/-- A record of 128 to 255 bytes makes its own length a padded one, which no list of a dozen strings can
live up to. -/
theorem slot_not_padded {entries pieces : List Bytes} (hall : List.Forall₂ Spells entries pieces)
    (hcount : entries.length < 13) {lo : UInt8} (hlo : 128 ≤ lo.toNat) {z t : Bytes}
    (hlen : (entries.flatMap entryBytes).length + 1 = lo.toNat) :
    [0, lo, 0, UInt8.ofNat entries.length] ++ (entries.flatMap entryBytes ++ z) ≠ pieces.flatten ++ t := by
  intro heq
  have hn : (UInt8.ofNat entries.length).toNat < 128 := by
    rw [UInt8.toNat_ofNat', Nat.mod_eq_of_lt (by omega)]
    omega
  cases hall with
  | nil =>
      simp at hlen
      omega
  | @cons entry piece rest pieces hspells hall =>
      -- the first byte of the ring is a length of zero
      have hzero : entryBytes [] = [0] := entryBytes_of_lt (Nat.succ_pos _)
      rw [List.flatMap_cons, List.flatten_cons, List.append_assoc, List.append_assoc] at heq
      have hv : varintBytes (UInt64.ofNat 0) <+: [0, lo, 0, UInt8.ofNat (entry :: rest).length] := by
        rw [varintBytes_ofNat_of_lt (by decide)]
        exact ⟨[lo, 0, _], rfl⟩
      rcases hspells.eq_entryBytes hv heq with ⟨rfl, hempty⟩
      obtain rfl : entry = [] := List.length_eq_zero_iff.mp hempty
      have hring := rotate_of_append heq
      rw [hzero] at hring
      cases rest with
      | nil =>
          simp [hzero] at hlen
          omega
      | cons entry rest =>
          rcases length_of_padded hall hlo hn hring.symm with ⟨hlength, hstrides⟩
          have hbound := lo.toNat_lt
          have hbyte : (UInt8.ofNat ([] :: entry :: rest).length).toNat = rest.length + 2 := by
            rw [UInt8.toNat_ofNat', Nat.mod_eq_of_lt (by omega)]
            rfl
          rw [List.flatMap_cons, hzero, List.length_append, hstrides, hbyte] at hlen
          simp only [List.length_cons, List.length_nil] at hlen hcount
          apply strides_ne (rest.length + 2) (by omega) entry.length (by omega)
          rw [Nat.add_succ_sub_one]
          omega

/-! ### The body of a slotted page -/

/-- What stands behind the header of the page that is built for a list: the slot directory, the record
and the rest of the page. -/
def slottedBody (entries : List Bytes) (padding : Bytes) : Bytes :=
  leBytes 2 12 ++ leBytes 2 (makeStringsRecord entries).length ++ makeStringsRecord entries ++ padding

/-- When the slot directory and what follows read as the list itself. -/
structure Selfsame (entries : List Bytes) (padding : Bytes) : Prop where
  /-- The offset of the record, 12, is taken for the count. -/
  few : entries.length ≤ 12
  /-- The record is its count and the last three bytes of its directory entry over and over. -/
  repeats : ∀ i < (makeStringsRecord entries).length, (makeStringsRecord entries)[i]? =
    ([UInt8.ofNat entries.length, 0] ++ leBytes 2 (makeStringsRecord entries).length)[i % 4]?
  /-- Behind fewer than 12 strings stands a length that is longer than the rest of the page. -/
  cut : entries.length < 12 → ∃ len s,
    readVarint { data := (slottedBody entries padding).drop (makeStringsRecord entries).length } =
      .ok len s ∧ s.remaining < len.toNat

theorem CutShort.of_long {bs : Bytes} {len : UInt64} {s : ByteReader}
    (h : readVarint { data := bs } = .ok len s) (hlong : s.remaining < len.toNat) : CutShort bs := by
  rintro ⟨entry, piece, rest, ⟨lenBytes, len', hreads, hlength, rfl⟩, hbs⟩
  rw [List.append_assoc] at hbs
  have hrest : (ByteReader.advance { data := bs } lenBytes.length).rest = entry ++ rest := by simp [hbs]
  rw [hreads.run hbs] at h
  cases h
  rw [ByteReader.remaining_eq, hrest, List.length_append] at hlong
  omega

theorem CutShort.long {bs : Bytes} {v : UInt64} (h : CutShort bs) (hv : varintBytes v <+: bs) :
    ∃ len s, readVarint { data := bs } = .ok len s ∧ s.remaining < len.toNat := by
  rcases hv with ⟨x, rfl⟩
  refine ⟨v, _, (reads_readVarint v).run rfl, ?_⟩
  have hrest : (ByteReader.advance { data := varintBytes v ++ x } (varintBytes v).length).rest = x := by simp
  rw [ByteReader.remaining_eq, hrest]
  by_contra hge
  have hlen : (x.take v.toNat).length = v.toNat := List.length_take_of_le (Nat.le_of_not_lt hge)
  exact h ⟨x.take v.toNat, varintBytes v ++ x.take v.toNat, x.drop v.toNat,
    ⟨varintBytes v, v, reads_readVarint v, hlen, rfl⟩, by simp⟩

theorem leBytes_two (v : Nat) : leBytes 2 v = [UInt8.ofNat v, UInt8.ofNat (v / 256)] := by
  rw [leBytes_succ, leBytes_succ]
  rfl

/-- What the table is read from: the count is 12, and the rest of the directory entry stands in front
of the record. -/
theorem stringTableBody_slotted (entries : List Bytes) (padding : Bytes) :
    stringTableBody { data := slottedBody entries padding } =
      stringEntries 12 (ByteReader.advance { data := slottedBody entries padding } 1) := by
  have hbody : slottedBody entries padding = [UInt8.ofNat 12] ++
      ([0] ++ leBytes 2 (makeStringsRecord entries).length ++ makeStringsRecord entries ++ padding) := by
    rw [slottedBody, leBytes_two 12]
    simp
  rw [stringTableBody, (@reads_readVarint_byte 12 (by decide)).run hbody]
  rfl

section

variable {entries : List Bytes} {padding : Bytes}

/-- The ring in front of the entries: the rest of the directory entry, and the count of the record. -/
def slotRing (entries : List Bytes) : Bytes :=
  0 :: leBytes 2 (makeStringsRecord entries).length ++ [UInt8.ofNat entries.length]

theorem makeStringsRecord_of_lt (h : entries.length < 128) :
    makeStringsRecord entries = UInt8.ofNat entries.length :: entries.flatMap entryBytes := by
  rw [makeStringsRecord_eq, varintBytes_ofNat_of_lt h]
  rfl

theorem slottedBody_eq (h : entries.length < 128) : slottedBody entries padding =
    12 :: (slotRing entries ++ (entries.flatMap entryBytes ++ padding)) := by
  rw [slottedBody, slotRing, leBytes_two 12]
  conv => lhs; rw [List.append_assoc, makeStringsRecord_of_lt h]
  simp [makeStringsRecord_of_lt h]

/-- The record repeats its directory entry when the ring moves along the entries. -/
theorem repeats_iff (h : entries.length < 128) :
    (∀ i < (makeStringsRecord entries).length, (makeStringsRecord entries)[i]? =
      ([UInt8.ofNat entries.length, 0] ++ leBytes 2 (makeStringsRecord entries).length)[i % 4]?) ↔
    entries.flatMap entryBytes <+: slotRing entries ++ entries.flatMap entryBytes := by
  have hself := prefix_append_self_iff (x := makeStringsRecord entries)
    (w := [UInt8.ofNat entries.length, 0] ++ leBytes 2 (makeStringsRecord entries).length) (by simp)
  rw [leBytes_two] at hself ⊢
  rw [slotRing, leBytes_two]
  refine Iff.trans hself.symm ?_
  generalize (makeStringsRecord entries).length = size
  rw [makeStringsRecord_of_lt h]
  simp

theorem round_of_table {pieces : List Bytes} {t : Bytes} (hall : List.Forall₂ Spells entries pieces)
    (hfit : (makeStringsRecord entries).length < 2 ^ 15) (hfew : entries.length ≤ 12)
    (heq : slotRing entries ++ (entries.flatMap entryBytes ++ padding) = pieces.flatten ++ t) :
    Round (slotRing entries) := by
  have hsize : (makeStringsRecord entries).length = (entries.flatMap entryBytes).length + 1 := by
    rw [makeStringsRecord_of_lt (by omega), List.length_cons]
  rw [slotRing, leBytes_two] at heq ⊢
  have hn : (UInt8.ofNat entries.length).toNat = entries.length := by
    rw [UInt8.toNat_ofNat', Nat.mod_eq_of_lt (by omega)]
  have hhi : (UInt8.ofNat ((makeStringsRecord entries).length / 256)).toNat =
      (makeStringsRecord entries).length / 256 := by
    rw [UInt8.toNat_ofNat', Nat.mod_eq_of_lt (by omega)]
  have hlo : (UInt8.ofNat (makeStringsRecord entries).length).toNat =
      (makeStringsRecord entries).length % 256 := UInt8.toNat_ofNat' 
  by_cases hgood : (UInt8.ofNat (makeStringsRecord entries).length).toNat < 128 ∨
      0 < (UInt8.ofNat ((makeStringsRecord entries).length / 256)).toNat
  · exact round_slot (by omega) (by omega) hgood
  · -- the length of the record is a padded one
    have hhigh : (makeStringsRecord entries).length / 256 = 0 := by omega
    rw [hhigh] at heq
    exact absurd heq (slot_not_padded hall (by omega) (by omega) (by omega))

/-- Behind as many bytes as the record has, the page goes on as the ring does behind the entries. -/
theorem slottedBody_drop {rest : Bytes} (h : entries.length < 128)
    (heq : slotRing entries ++ (entries.flatMap entryBytes ++ padding) =
      entries.flatMap entryBytes ++ rest) :
    (slottedBody entries padding).drop (makeStringsRecord entries).length = rest := by
  rw [slottedBody_eq h, heq, makeStringsRecord_of_lt h]
  simp

theorem selfsame_of_table (hfit : (makeStringsRecord entries).length < 2 ^ 15)
    (h : stringTableBody { data := slottedBody entries padding } = .ok entries) :
    Selfsame entries padding := by
  rw [stringTableBody_slotted] at h
  rcases pieces_of_stringEntries h with ⟨pieces, rest, hrest, hall, hfew, hcut⟩
  have hsmall : entries.length < 128 := by omega
  have heq : slotRing entries ++ (entries.flatMap entryBytes ++ padding) = pieces.flatten ++ rest := by
    rw [← hrest, slottedBody_eq hsmall]
    rfl
  have hround := round_of_table hall hfit hfew heq
  obtain rfl := pieces_eq hall hround heq
  rw [← List.flatMap_def] at heq
  have hleft := rotate_of_append heq
  refine ⟨hfew, (repeats_iff hsmall).mpr ?_, fun hlt => ?_⟩
  · rw [hleft, ← List.append_assoc, ← List.append_assoc] at heq
    rw [List.append_cancel_right heq]
    exact List.prefix_append _ _
  · rcases (hround.rotate _).head with ⟨v, hv⟩
    rw [slottedBody_drop hsmall heq]
    exact (hcut hlt).long (hleft ▸ hv.trans (List.prefix_append _ _))

theorem Selfsame.table (h : Selfsame entries padding) (hfit : (makeStringsRecord entries).length < 2 ^ 15) :
    stringTableBody { data := slottedBody entries padding } = .ok entries := by
  have hsmall : entries.length < 128 := by
    have hfew := h.few
    omega
  rcases (repeats_iff hsmall).mp h.repeats with ⟨w, hw⟩
  have heq : slotRing entries ++ (entries.flatMap entryBytes ++ padding) =
      entries.flatMap entryBytes ++ (w ++ padding) := by
    rw [← List.append_assoc, ← hw, List.append_assoc]
  have hrest : (ByteReader.advance { data := slottedBody entries padding } 1).rest =
      (entries.map entryBytes).flatten ++ (w ++ padding) := by
    rw [← List.flatMap_def, ← heq, slottedBody_eq hsmall]
    rfl
  have hall : List.Forall₂ Spells entries (entries.map entryBytes) := by
    rw [makeStringsRecord_of_lt hsmall, List.length_cons] at hfit
    exact forall₂_entryBytes (by omega)
  rw [stringTableBody_slotted]
  apply stringEntries_of_pieces hall hrest h.few
  intro hlt
  rcases h.cut hlt with ⟨len, s, hread, hlong⟩
  rw [slottedBody_drop hsmall heq] at hread
  exact .of_long hread hlong

/-- The table of a slotted page is the list it was built for just when the page reads as that list. -/
theorem stringTableBody_iff (hfit : (makeStringsRecord entries).length < 2 ^ 15) :
    stringTableBody { data := slottedBody entries padding } = .ok entries ↔ Selfsame entries padding :=
  ⟨selfsame_of_table hfit, fun h => h.table hfit⟩

end

/-! ### The page -/

variable {data : Bytes} {pageSize : Nat}

/-- A page that is walked and wholly there has its span and its bytes. -/
theorem parsePagesFrom_getElem? {left i k : Nat} {spans : List PageSpan} {pages : List Page}
    (h : parsePagesFrom data pageSize left i = .ok (spans, pages)) (hk : k < left) (hpos : 0 < pageSize)
    (hfull : kHeaderSize + (i + k) * pageSize + pageSize ≤ data.length) :
    spans[k]? = some { fileOffset := kHeaderSize + (i + k) * pageSize, length := pageSize } ∧
    ∃ page, pages[k]? = some page ∧ parsePage data (UInt32.ofNat (i + k)) pageSize
      (kHeaderSize + (i + k) * pageSize) pageSize = .ok page := by
  have hlt := lt_length_of_parsePagesFrom h hk (by omega)
  have hwhole := spanAt_whole hfull
  have hparse := parsePagesFrom_page h (List.getElem?_eq_getElem hlt)
  rw [hwhole] at hparse
  exact ⟨hwhole ▸ parsePagesFrom_span h hlt, pages[k], List.getElem?_eq_getElem hlt, hparse⟩

theorem parsePage_type {index : UInt32} {pageOff pageLen : Nat} {page : Page} {b : UInt8} {bs : Bytes}
    (h : parsePage data index pageSize pageOff pageLen = .ok page) (hlen : kPageHeaderSize ≤ pageLen)
    (hslice : (data.drop pageOff).take pageLen = b :: bs) : page.type = b := by
  rw [parsePage, if_neg (Nat.not_lt.mpr hlen), hslice] at h
  split at h
  · next page r hbody =>
    cases h
    rw [parsePageBody, bind_of_ok (reads_readU8 b _ _ rfl)] at hbody
    rcases bind_eq_ok.mp hbody with ⟨flags, r₁, -, hbody⟩
    rcases bind_eq_ok.mp hbody with ⟨slotCount, r₂, -, hbody⟩
    rcases bind_eq_ok.mp hbody with ⟨freeStart, r₃, -, hbody⟩
    rcases bind_eq_ok.mp hbody with ⟨overflowNext, r₄, -, hbody⟩
    rcases bind_eq_ok.mp hbody with ⟨slots, r₅, -, hbody⟩
    cases hbody
    rfl
  · cases h

/-- The rest of the page that is built for a list. -/
def slotPadding (pageSize : Nat) (entries : List Bytes) : Bytes :=
  List.replicate (pageSize - (12 + (makeStringsRecord entries).length)) 0

theorem makePage_eq (type : PageType) (size overflowNext : UInt16) (entries : List Bytes) :
    makePage type size overflowNext [makeStringsRecord entries] =
      type :: 0 :: (leBytes 2 1 ++ leBytes 2 (12 + (makeStringsRecord entries).length) ++
        leBytes 2 overflowNext.toNat) ++ slottedBody entries (slotPadding size.toNat entries) := by
  have hcount : UInt16.toNat 1 = 1 := rfl
  simp [makePage, layRecord, slottedBody, slotPadding, kPageHeaderSize, kSlotEntrySize, hcount]
  omega

/-- The page of the string table is the one that is built for the list. -/
structure HoldsTable (data : Bytes) (db : Database) (overflowNext : UInt16) (entries : List Bytes) :
    Prop where
  named : db.stringTablePage < db.pageCount
  fits : 12 + (makeStringsRecord entries).length ≤ db.pageSize.toNat
  page : (data.drop (kHeaderSize + db.stringTablePage.toNat * db.pageSize.toNat)).take db.pageSize.toNat =
    makePage kStrings db.pageSize overflowNext [makeStringsRecord entries]

/-- The table is the list, and every STRING_REF below its size resolves to the string with that index. -/
structure Resolves (db : Database) (entries : List Bytes) : Prop where
  table : db.stringTable = entries
  refs : ∀ idBytes id, Reads readVarint idBytes id → ∀ h : id.toNat < entries.length,
    Reads (decodeField db.stringTable) (5 :: idBytes)
      { type := .kStringRef, refId := id, str := entries[id.toNat], refResolved := true }

/-- What `open` reads its table from. -/
theorem Stages.stringTable_slotted {opts : Options} {spans : List PageSpan} {s : ReplayState}
    {db : Database} {overflowNext : UInt16} {entries : List Bytes} (h : Stages data opts spans s db)
    (hholds : HoldsTable data db overflowNext entries) :
    stringTableBody { data := slottedBody entries (slotPadding db.pageSize.toNat entries) } =
      .ok db.stringTable := by
  rcases hholds with ⟨hnamed, hfits, hpage⟩
  have htable := h.stringTable
  have hpages := h.pages
  rw [parsePages, ← h.pageSize, ← h.pageCount] at hpages
  rw [parseStringTable, ← h.stringTablePage] at htable
  have hnamed := UInt32.lt_iff_toNat_lt.mp hnamed
  have hbound := db.pageCount.toNat_lt
  have hsome : db.stringTablePage ≠ kNoStringTable := by
    intro hnone
    have hlast : kNoStringTable.toNat = 2 ^ 32 - 1 := rfl
    rw [hnone, hlast] at hnamed
    omega
  rw [makePage_eq] at hpage
  generalize hoff : kHeaderSize + db.stringTablePage.toNat * db.pageSize.toNat = pageOff at hpage
  have hfull : pageOff + db.pageSize.toNat ≤ data.length := by
    have hlen := congrArg List.length hpage
    simp [slottedBody, slotPadding] at hlen
    omega
  have hbody : (data.drop (pageOff + kPageHeaderSize)).take (db.pageSize.toNat - kPageHeaderSize) =
      slottedBody entries (slotPadding db.pageSize.toNat entries) := by
    rw [← List.drop_drop, ← List.drop_take, hpage, List.drop_left']
    simp [kPageHeaderSize]
  rcases parsePagesFrom_getElem? hpages hnamed (by omega) (by rwa [Nat.zero_add, hoff]) with
    ⟨hspan, page, hget, hparse⟩
  rw [Nat.zero_add, hoff] at hspan hparse
  have htype := parsePage_type hparse (by rw [kPageHeaderSize]; omega) hpage
  rw [if_neg hsome, hspan, hget] at htable
  dsimp only at htable
  rw [if_neg (not_not.mpr htype), if_neg (by rw [kPageHeaderSize]; omega), hbody] at htable
  exact htable

theorem reads_stringRef {table : List Bytes} {idBytes : Bytes} {id : UInt64}
    (hid : Reads readVarint idBytes id) (h : id.toNat < table.length) :
    Reads (decodeField table) (5 :: idBytes)
      { type := .kStringRef, refId := id, str := table[id.toNat], refResolved := true } := by
  rw [decodeField]
  apply Reads.get_bind
  intro r
  apply (reads_readU8 5).bind
  apply hid.bind_last
  rw [List.getElem?_eq_getElem h]
  exact Reads.pure _

/-- `open` hands back the list, and resolves the references to it, just when the page reads as the list
in spite of its directory. -/
theorem openDb_resolves_iff {opts : Options} {db : Database} {overflowNext : UInt16}
    {entries : List Bytes} (hopen : openDb data opts = .ok db)
    (hholds : HoldsTable data db overflowNext entries) :
    Resolves db entries ↔ Selfsame entries (slotPadding db.pageSize.toNat entries) := by
  rcases openDb_stages hopen with ⟨spans, s, hstages⟩
  have htable := hstages.stringTable_slotted hholds
  have hfits := hholds.fits
  have hsize := hstages.pageSize_le
  rw [← stringTableBody_iff (by omega), htable]
  constructor
  · intro h
    rw [h.table]
  · intro h
    have htable : db.stringTable = entries := Except.ok.inj h
    refine ⟨htable, fun idBytes id hid hlt => ?_⟩
    rw [htable]
    exact reads_stringRef hid hlt

/-! ### A table of two strings -/

/-- A header for one page of 64 bytes, which holds the strings. -/
def greetings : Bytes :=
  ascii "MDB1" ++ [1, 0, 64, 0] ++ [1, 0, 0, 0] ++ [0, 0, 0, 0] ++ [0, 0, 0, 0] ++ [0, 0, 0, 0] ++
    [0, 0, 0, 0] ++ [0, 0, 0, 0] ++
    makePage kStrings 64 0xFFFF [makeStringsRecord [ascii "hello", ascii "world"]]

/-- The table begins with the empty string, and then takes the length of the record for that of a
string. -/
theorem openDb_greetings : ∃ db, openDb greetings {} = .ok db ∧
    HoldsTable greetings db 0xFFFF [ascii "hello", ascii "world"] ∧
    db.stringTable = [[], [0, 2, 5] ++ ascii "hello" ++ [5] ++ ascii "worl"] := by
  have h : (fun db : Database => (db.stringTablePage, db.pageCount, db.pageSize, db.stringTable)) <$>
      openDb greetings {} =
        .ok (0, 1, 64, [[], [0, 2, 5] ++ ascii "hello" ++ [5] ++ ascii "worl"]) := by
    decide +kernel
  cases hopen : openDb greetings {} with
  | error e => rw [hopen] at h; cases h
  | ok db =>
      rw [hopen] at h
      injection h with h
      rcases Prod.mk.inj h with ⟨hnamed, h⟩
      rcases Prod.mk.inj h with ⟨hcount, h⟩
      rcases Prod.mk.inj h with ⟨hsize, htable⟩
      refine ⟨db, rfl, ⟨by rw [hnamed, hcount]; decide, ?_, ?_⟩, htable⟩
      · rw [hsize]
        decide +kernel
      · rw [hnamed, hsize]
        decide +kernel

theorem openDb_resolves_iff_greetings : ∃ db, openDb greetings {} = .ok db ∧
    (Resolves db [ascii "hello", ascii "world"] ↔
      Selfsame [ascii "hello", ascii "world"] (slotPadding db.pageSize.toNat [ascii "hello", ascii "world"])) := by
  rcases openDb_greetings with ⟨db, hopen, hholds, -⟩
  exact ⟨db, hopen, openDb_resolves_iff hopen hholds⟩

theorem openDb_not_resolves : ¬ ∀ (data : Bytes) (opts : Options) (db : Database) (overflowNext : UInt16)
    (entries : List Bytes), openDb data opts = .ok db → HoldsTable data db overflowNext entries →
      Resolves db entries := by
  intro h
  rcases openDb_greetings with ⟨db, hopen, hholds, htable⟩
  have hlist := (h _ _ _ _ _ hopen hholds).table
  rw [htable] at hlist
  exact absurd hlist (by decide)

/-- There are lists that pass: 12 strings that repeat the directory entry of a record of 321 bytes. -/
example (padding : Bytes) : Selfsame (List.replicate 4
    [[], 1 :: (List.replicate 16 [12, 0, 65, 1]).flatten, (List.replicate 3 [0, 65, 1, 12]).flatten]).flatten
    padding :=
  ⟨by decide, (repeats_iff (by decide)).mpr (by decide +kernel), fun h => absurd h (by decide)⟩

end Bytewright.Minidb
