import Bytewright.Library.KeyOrder
import Bytewright.Model.Minidb.Btree
import Bytewright.Verification.Minidb.StringTable

/-! # INDEX pages -/

namespace Bytewright.Minidb

open Bytewright.Common Bytewright.Library

/-! ### The order of the keys -/

/-- The comparison is that of the byte strings as lists. -/
theorem keyCompare_eq (a b : Bytes) :
    keyCompare a b = if a < b then -1 else if a = b then 0 else 1 := by
  induction a generalizing b with
  | nil => cases b <;> simp [keyCompare]
  | cons ca a ih =>
      cases b with
      | nil => simp [keyCompare]
      | cons cb b =>
          rw [keyCompare]
          by_cases heq : ca = cb
          · simp [heq, ih]
          · by_cases hlt : ca < cb
            · simp [List.cons_lt_cons_iff, heq, hlt]
            · simp [List.cons_lt_cons_iff, heq, hlt]

theorem keyCompare_neg_iff (a b : Bytes) : keyCompare a b < 0 ↔ a < b := by
  rw [keyCompare_eq]
  split
  · simp [*]
  · split <;> simp [*]

theorem keyCompare_eq_zero_iff (a b : Bytes) : keyCompare a b = 0 ↔ a = b := by
  rw [keyCompare_eq]
  split
  · next hlt =>
    have hne : a ≠ b := fun heq => Std.lt_irrefl (heq ▸ hlt)
    simp [hne]
  · split <;> simp [*]

theorem keyCompare_pos_iff (a b : Bytes) : keyCompare a b > 0 ↔ b < a := by
  rw [keyCompare_eq]
  split
  · next hlt => simp [Std.not_lt.mpr (Std.le_of_lt hlt)]
  · next hge =>
    split
    · next heq => simp [heq, Std.lt_irrefl]
    · next hne =>
      have hlt : b < a := Std.lt_of_le_of_ne (Std.not_lt.mp hge) (Ne.symm hne)
      simp [hlt]

/-! ### Sorting -/

/-- The entries stand in the order of their keys. -/
abbrev Sorted (entries : List IndexEntry) : Prop := Ordered IndexEntry.key entries

theorem not_keyLess_iff (a b : Bytes) : (!keyLess b a) = true ↔ a ≤ b := by
  rw [keyLess, Bool.not_eq_true', decide_eq_false_iff_not, keyCompare_neg_iff]
  exact Std.not_lt

theorem keyOrder_trans (a b c : IndexEntry) (hab : (!keyLess b.key a.key) = true)
    (hbc : (!keyLess c.key b.key) = true) : (!keyLess c.key a.key) = true := by
  rw [not_keyLess_iff] at *
  exact Std.le_trans hab hbc

theorem keyOrder_total (a b : IndexEntry) : ((!keyLess b.key a.key) || !keyLess a.key b.key) = true := by
  rw [Bool.or_eq_true, not_keyLess_iff, not_keyLess_iff]
  exact Std.le_total

theorem sorted_sortEntries (entries : List IndexEntry) : Sorted (sortEntries entries) := by
  have hpair := List.pairwise_mergeSort keyOrder_trans keyOrder_total entries
  simp only [not_keyLess_iff] at hpair
  exact hpair

/-- Entries with one key stay in the order of the page. -/
theorem filter_sortEntries (entries : List IndexEntry) (k : Bytes) :
    (sortEntries entries).filter (fun e => decide (e.key = k)) =
      entries.filter (fun e => decide (e.key = k)) := by
  apply filter_mergeSort keyOrder_trans keyOrder_total
  intro a b ha hb
  rw [not_keyLess_iff, of_decide_eq_true ha, of_decide_eq_true hb]
  exact Std.le_refl k

/-! ### Lookup -/

theorem Sorted.le {entries : List IndexEntry} (h : Sorted entries) {i j : Nat} (hij : i ≤ j)
    (hj : j < entries.length) : entries[i].key ≤ entries[j].key := by
  rcases Nat.lt_or_eq_of_le hij with hlt | rfl
  · exact List.pairwise_iff_getElem.mp h i j (Nat.lt_trans hlt hj) hj hlt
  · exact Std.le_refl _

/-- The entries in front of the window have lesser keys, and those behind it have not. -/
theorem lookupFrom_splits {entries : List IndexEntry} (hsorted : Sorted entries) (key : Bytes) {lo hi : Nat}
    (hhi : hi ≤ entries.length) (hbelow : ∀ i (h : i < entries.length), i < lo → entries[i].key < key)
    (habove : ∀ i (h : i < entries.length), hi ≤ i → key ≤ entries[i].key) (hle : lo ≤ hi) :
    Splits IndexEntry.key entries key (lookupFrom entries key lo hi hhi) := by
  fun_induction lookupFrom entries key lo hi hhi with
  | case1 lo hi hhi hlt mid hmid hless ih =>
      have hin : lo ≤ mid ∧ mid < hi := by omega
      apply ih
      · intro i h hi
        exact Std.lt_of_le_of_lt (hsorted.le (by omega) hmid) ((keyCompare_neg_iff _ _).mp hless)
      · exact habove
      · omega
  | case2 lo hi hhi hlt mid hmid hless ih =>
      have hin : lo ≤ mid ∧ mid < hi := by omega
      apply ih
      · exact hbelow
      · intro i h hi
        rw [keyCompare_neg_iff, Std.not_lt] at hless
        exact Std.le_trans hless (hsorted.le hi h)
      · omega
  | case3 lo hi hhi hlt =>
      obtain rfl : lo = hi := by omega
      constructor
      · intro e he
        rcases List.mem_take_iff_getElem.mp he with ⟨i, hi, rfl⟩
        exact hbelow i (by omega) (by omega)
      · intro e he
        rcases List.mem_drop_iff_getElem.mp he with ⟨i, hi, rfl⟩
        exact habove (lo + i) (by omega) (Nat.le_add_right lo i)

namespace IndexPage

variable {out : IndexPage}

/-- The lookup finds the first entry with the key. -/
theorem lookup_eq_find? (hsorted : Sorted out.entries) (key : Bytes) :
    out.lookup key = out.entries.find? (fun e => decide (e.key = key)) := by
  have hsplits := lookupFrom_splits hsorted key (Nat.le_refl out.entries.length)
    (fun i _ hi => absurd hi (Nat.not_lt_zero i)) (fun i h hi => absurd h (Nat.not_lt.mpr hi))
    (Nat.zero_le _)
  rw [hsplits.find? hsorted, lookup]
  cases out.entries[lookupFrom out.entries key 0 out.entries.length (Nat.le_refl _)]? with
  | none => rfl
  | some e =>
      rw [Option.filter_some]
      by_cases heq : e.key = key
      · have hzero : keyCompare key key = 0 := (keyCompare_eq_zero_iff key key).mpr rfl
        simp [heq, hzero]
      · have hne : keyCompare e.key key ≠ 0 := fun h => heq ((keyCompare_eq_zero_iff _ _).mp h)
        simp [heq, hne]

/-! ### Range scans -/

/-- The key lies in the window. -/
def inWindow (lo hi : Bytes) (e : IndexEntry) : Bool := decide (lo ≤ e.key ∧ e.key ≤ hi)

theorem scan_eq_filter {entries : List IndexEntry} (hsorted : Sorted entries) (lo hi : Bytes) :
    scan lo hi entries = entries.filter (inWindow lo hi) := by
  induction entries with
  | nil => rfl
  | cons e entries ih =>
      rcases List.pairwise_cons.mp hsorted with ⟨hfirst, hrest⟩
      rw [scan, List.filter_cons]
      by_cases hlo : e.key < lo
      · have hout : inWindow lo hi e = false := by
          simp [inWindow, Std.not_le.mpr hlo]
        rw [if_pos ((keyCompare_neg_iff _ _).mpr hlo), hout, ih hrest]
        rfl
      · have hlo' : ¬ keyCompare e.key lo < 0 := fun h => hlo ((keyCompare_neg_iff _ _).mp h)
        rw [if_neg hlo']
        by_cases hhi : hi < e.key
        · -- no later key is in the window either
          have hnone : (e :: entries).filter (inWindow lo hi) = [] := by
            rw [List.filter_eq_nil_iff]
            intro e' he'
            have hle : e.key ≤ e'.key := by
              rcases List.mem_cons.mp he' with rfl | he'
              · exact Std.le_refl _
              · exact hfirst e' he'
            have hpast : ¬ e'.key ≤ hi := Std.not_le.mpr (Std.lt_of_lt_of_le hhi hle)
            simp [inWindow, hpast]
          rw [if_pos ((keyCompare_pos_iff _ _).mpr hhi), ← List.filter_cons, hnone]
        · have hhi' : ¬ keyCompare e.key hi > 0 := fun h => hhi ((keyCompare_pos_iff _ _).mp h)
          have hin : inWindow lo hi e = true := by
            simp [inWindow, Std.not_lt.mp hlo, Std.not_lt.mp hhi]
          rw [if_neg hhi', hin, if_pos rfl, ih hrest]

theorem range_eq_filter (hsorted : Sorted out.entries) (lo hi : Bytes) :
    out.range lo hi = out.entries.filter (inWindow lo hi) := by
  rw [range]
  split
  · next hgt =>
    symm
    rw [List.filter_eq_nil_iff]
    intro e he hin
    rw [inWindow, decide_eq_true_iff] at hin
    exact Std.not_le.mpr ((keyCompare_pos_iff _ _).mp hgt) (Std.le_trans hin.1 hin.2)
  · exact scan_eq_filter hsorted lo hi

end IndexPage

/-! ### Entries that are kept -/

/-- The count a table declares, if there is one. -/
def declaredCount (body : Bytes) : Option UInt64 :=
  match readVarint { data := body } with
  | .ok count _ => some count
  | .error _ _ => none

/-- The entries kept of a body: each is spelled out by bytes of its own, one behind the other, and no
further entry stands complete behind them where the count asks for one. -/
inductive Salvaged {α : Type} (Whole : α → Bytes → Prop) (body : Bytes) : List α → Prop where
  | noCount (h : declaredCount body = none) : Salvaged Whole body []
  | counted {countBytes rest : Bytes} {count : UInt64} {entries : List α} {pieces : List Bytes}
      (hcount : Reads readVarint countBytes count)
      (hbody : body = countBytes ++ (pieces.flatten ++ rest))
      (hwhole : List.Forall₂ Whole entries pieces) (hle : entries.length ≤ count.toNat)
      (hend : entries.length < count.toNat → ¬ ∃ entry piece tail, Whole entry piece ∧ rest = piece ++ tail) :
      Salvaged Whole body entries

/-- How a decoder of tables stands what a cut does to them. -/
structure Degrades {α : Type} (decode : Bytes → Outcome (List α)) (Whole : α → Bytes → Prop) : Prop where
  total : ∀ body, ∃ entries, decode body = .ok entries
  salvaged : ∀ body entries, decode body = .ok entries → Salvaged Whole body entries
  shorter : ∀ body cut entries kept, cut <+: body → decode body = .ok entries →
    decode cut = .ok kept → kept <+: entries

section Tables

variable {α : Type}

/-- The entries behind a count, as far as they can be read. -/
def table (m : Reader α) (r : ByteReader) : List α :=
  match readVarint r with
  | .ok count r => salvage (attempt m) count.toNat r
  | .error _ _ => []

namespace EntryFormat

variable {m : Reader α} {Whole : α → Bytes → Prop}

theorem salvaged (h : EntryFormat m Whole) (body : Bytes) :
    Salvaged Whole body (table m { data := body }) := by
  rw [table]
  cases hcount : readVarint { data := body } with
  | error e s => exact .noCount (by rw [declaredCount, hcount])
  | ok count s =>
      rcases exact_readVarint _ _ _ hcount with ⟨countBytes, hbody, -, hreads, -⟩
      rcases h.pieces count.toNat s with ⟨pieces, rest, hrest, hall, hle, hend⟩
      rw [hrest] at hbody
      exact .counted hreads hbody hall hle hend

/-- An entry is read alike when there are more bytes at the end. -/
theorem attempt_longer (h : EntryFormat m Whole) (r r' : ByteReader) (a : α) (s : ByteReader)
    (hlong : r.rest <+: r'.rest) (hrun : attempt m r = some (a, s)) :
    ∃ s', attempt m r' = some (a, s') ∧ s.rest <+: s'.rest := by
  rcases h.whole r a s (attempt_eq_some.mp hrun) with ⟨bs, hrest, hbs⟩
  rcases hlong with ⟨more, hmore⟩
  rw [hrest, List.append_assoc] at hmore
  refine ⟨_, attempt_eq_some.mpr (h.reads a bs hbs r' _ hmore.symm), ?_⟩
  rw [ByteReader.rest_advance, ← hmore, List.drop_left]
  exact List.prefix_append _ _

/-- What is kept of a cut body comes first in what is kept of the whole. -/
theorem shorter (h : EntryFormat m Whole) {body cut : Bytes} (hcut : cut <+: body) :
    table m { data := cut } <+: table m { data := body } := by
  rw [table]
  cases hcount : readVarint { data := cut } with
  | error e s => exact List.nil_prefix
  | ok count s =>
      rcases hcut with ⟨more, rfl⟩
      rcases exact_readVarint _ _ _ hcount with ⟨countBytes, hbody, -, hreads, -⟩
      have hfull := hreads { data := cut ++ more } (s.rest ++ more) (by
        rw [← List.append_assoc, ← hbody]
        rfl)
      rw [table, hfull]
      -- from then on the longer buffer has the same bytes in front
      apply salvage_prefix h.attempt_longer
      have hcut : cut = countBytes ++ s.rest := hbody
      rw [ByteReader.rest_advance, ByteReader.rest_mk_zero, hcut, List.append_assoc, List.drop_left]
      exact List.prefix_append _ _

theorem degrades (h : EntryFormat m Whole) {decode : Bytes → Outcome (List α)}
    (hdecode : ∀ body, decode body = .ok (table m { data := body })) : Degrades decode Whole where
  total body := ⟨_, hdecode body⟩
  salvaged body entries hbody := by
    rw [hdecode] at hbody
    cases hbody
    exact h.salvaged body
  shorter body cut entries kept hcut hbody hkept := by
    rw [hdecode] at hbody hkept
    cases hbody
    cases hkept
    exact h.shorter hcut

end EntryFormat

end Tables

/-! ### The two tables -/

/-- The bytes are an index entry: its key as in a string table, then its locator. -/
def SpellsEntry (e : IndexEntry) (bs : Bytes) : Prop :=
  ∃ keyBytes, Spells e.key keyBytes ∧ bs = keyBytes ++ leBytes 4 e.page.toNat ++ leBytes 2 e.slot.toNat

/-- The key of an entry is read like a string of the string table. -/
theorem readIndexEntry_eq : readIndexEntry = do
    let key ← readStringEntry
    let page ← readU32le
    let slot ← readU16le
    return { key, page, slot } := by
  simp only [readIndexEntry, readStringEntry, bind_assoc]

theorem entryFormat_index : EntryFormat readIndexEntry SpellsEntry where
  reads e bs h := by
    rcases h with ⟨keyBytes, hkey, rfl⟩
    rw [readIndexEntry_eq, List.append_assoc]
    apply hkey.reads.bind
    apply (reads_readU32le e.page).bind
    exact (reads_readU16le e.slot).bind_last (Reads.pure e)
  whole r e s h := by
    rw [readIndexEntry_eq] at h
    rcases bind_eq_ok.mp h with ⟨key, t, hkey, h⟩
    rcases bind_eq_ok.mp h with ⟨page, u, hpage, h⟩
    rcases bind_eq_ok.mp h with ⟨slot, v, hslot, h⟩
    cases h
    rcases spells_of_readStringEntry hkey with ⟨keyBytes, hr, hspells⟩
    refine ⟨keyBytes ++ leBytes 4 page.toNat ++ leBytes 2 slot.toNat, ?_, keyBytes, hspells, rfl⟩
    rw [hr, readU32le_ok hpage, readU16le_ok hslot, List.append_assoc, List.append_assoc]
  throws := by
    rw [readIndexEntry_eq]
    apply onlyThrows_readStringEntry.bind
    intro key
    apply ((OnlyThrows.readRaw 4).bind fun _ => OnlyThrows.pure _).bind
    intro page
    apply ((OnlyThrows.readRaw 2).bind fun _ => OnlyThrows.pure _).bind
    intro slot
    exact OnlyThrows.pure _

theorem stringTableBody_eq (body : Bytes) :
    stringTableBody { data := body } = .ok (table readStringEntry { data := body }) := by
  rw [stringTableBody, table]
  cases hcount : readVarint { data := body } with
  | ok count s => exact stringEntries_eq _ _
  | error e s =>
      rcases onlyThrows_readVarint _ _ _ hcount with ⟨err, rfl⟩
      rfl

theorem indexEntries_eq (count : Nat) (r : ByteReader) : indexEntries count r =
    .ok (salvage (attempt readIndexEntry) count r,
      decide ((salvage (attempt readIndexEntry) count r).length < count)) := by
  induction count generalizing r with
  | zero => rfl
  | succ count ih =>
      rw [indexEntries, salvage, attempt]
      cases hentry : readIndexEntry r with
      | ok e s =>
          dsimp only
          rw [ih]
          simp [bind, Except.bind, pure, Except.pure]
      | error e s =>
          rcases entryFormat_index.throws _ _ _ hentry with ⟨err, rfl⟩
          simp

/-- Fewer entries than the declared count, or no count. -/
def FallsShort (body : Bytes) (entries : List IndexEntry) : Prop :=
  ∀ count, declaredCount body = some count → entries.length < count.toNat

theorem indexBody_eq (body : Bytes) : ∃ truncated,
    indexBody { data := body } = .ok (table readIndexEntry { data := body }, truncated) ∧
      (truncated = true ↔ FallsShort body (table readIndexEntry { data := body })) := by
  rw [indexBody, table, FallsShort, declaredCount]
  cases hcount : readVarint { data := body } with
  | ok count s =>
      dsimp only
      rw [indexEntries_eq]
      exact ⟨_, rfl, by simp⟩
  | error e s =>
      rcases onlyThrows_readVarint _ _ _ hcount with ⟨err, rfl⟩
      exact ⟨true, rfl, by simp⟩

/-! ### The page -/

variable {page : Bytes}

theorem decodeIndexPage_of_body {entries : List IndexEntry} {truncated : Bool} (pageIndex : UInt32)
    (hlen : kPageHeaderSize ≤ page.length) (htype : page[0]? = some kIndex)
    (hbody : indexBody { data := page.drop kPageHeaderSize } = .ok (entries, truncated)) :
    decodeIndexPage page pageIndex = .ok { pageIndex, truncated, entries := sortEntries entries } := by
  rw [decodeIndexPage, if_neg (Nat.not_lt.mpr hlen), if_neg (not_not.mpr htype), hbody]
  rfl

/-- What a range scan returns: the entries in the window in the order of their keys, ties in the order of
the page. -/
structure Selects (entries : List IndexEntry) (lo hi : Bytes) (out : List IndexEntry) : Prop where
  perm : out.Perm (entries.filter (IndexPage.inWindow lo hi))
  sorted : Sorted out
  ties : ∀ k, out.filter (fun e => decide (e.key = k)) =
    (entries.filter (IndexPage.inWindow lo hi)).filter (fun e => decide (e.key = k))
  inverted : hi < lo → out = []

theorem filter_filter_comm {α : Type} (p q : α → Bool) (l : List α) :
    (l.filter p).filter q = (l.filter q).filter p := by
  simp only [List.filter_filter, Bool.and_comm]

theorem selects_range {entries : List IndexEntry} {out : IndexPage}
    (hout : out.entries = sortEntries entries) (lo hi : Bytes) :
    Selects entries lo hi (out.range lo hi) := by
  have hsorted : Sorted out.entries := by
    rw [hout]
    exact sorted_sortEntries entries
  have hrange := IndexPage.range_eq_filter hsorted lo hi
  rw [hout] at hrange
  constructor
  · rw [hrange]
    exact (List.mergeSort_perm _ _).filter _
  · rw [hrange]
    exact (sorted_sortEntries entries).filter _
  · intro k
    rw [hrange, filter_filter_comm, filter_sortEntries, filter_filter_comm]
  · intro hlt
    rw [IndexPage.range, if_pos ((keyCompare_pos_iff _ _).mpr hlt)]

/-- Lookup and range scan of an INDEX page, in terms of the entries that decode cleanly. -/
theorem decodeIndexPage_spec (pageIndex : UInt32) (hlen : kPageHeaderSize ≤ page.length)
    (htype : page[0]? = some kIndex) : ∃ entries truncated out,
      indexBody { data := page.drop kPageHeaderSize } = .ok (entries, truncated) ∧
      decodeIndexPage page pageIndex = .ok out ∧
      (∀ k, out.lookup k = entries.find? (fun e => decide (e.key = k))) ∧
      (∀ k, out.lookup k = none ↔ ∀ e ∈ entries, e.key ≠ k) ∧
      ∀ lo hi, Selects entries lo hi (out.range lo hi) := by
  rcases indexBody_eq (page.drop kPageHeaderSize) with ⟨truncated, hbody, -⟩
  generalize table readIndexEntry { data := page.drop kPageHeaderSize } = entries at hbody
  have hlookup : ∀ k, IndexPage.lookup { pageIndex, truncated, entries := sortEntries entries } k =
      entries.find? (fun e => decide (e.key = k)) := by
    intro k
    rw [IndexPage.lookup_eq_find? (sorted_sortEntries entries), ← List.head?_filter, filter_sortEntries,
      List.head?_filter]
  refine ⟨entries, truncated, _, hbody, decodeIndexPage_of_body pageIndex hlen htype hbody, hlookup,
    fun k => ?_, selects_range rfl⟩
  rw [hlookup, List.find?_eq_none]
  simp

/-- An unsorted page with a key twice, cut inside its fourth entry. -/
def cutIndex : Bytes :=
  [3, 0, 0, 0, 0, 0, 0xFF, 0xFF, 4] ++ [1, 98, 1, 0, 0, 0, 0, 0] ++ [1, 97, 2, 0, 0, 0, 0, 0] ++
    [1, 98, 3, 0, 0, 0, 0, 0] ++ [1, 99, 4]

theorem decodeIndexPage_spec_cutIndex : ∃ entries truncated out,
    indexBody { data := cutIndex.drop kPageHeaderSize } = .ok (entries, truncated) ∧
    decodeIndexPage cutIndex 7 = .ok out ∧
    (∀ k, out.lookup k = entries.find? (fun e => decide (e.key = k))) ∧
    (∀ k, out.lookup k = none ↔ ∀ e ∈ entries, e.key ≠ k) ∧
    ∀ lo hi, Selects entries lo hi (out.range lo hi) :=
  decodeIndexPage_spec 7 (by decide) (by decide)

example : indexBody { data := cutIndex.drop kPageHeaderSize } =
    .ok ([⟨[98], 1, 0⟩, ⟨[97], 2, 0⟩, ⟨[98], 3, 0⟩], true) := by
  decide +kernel

/-- A cut leaves the string table and the index with a prefix of their entries, and the index says so. -/
theorem tables_degrade : Degrades (fun body => stringTableBody { data := body }) Spells ∧
    Degrades (fun body => Prod.fst <$> indexBody { data := body }) SpellsEntry ∧
    ∀ (page : Bytes) (pageIndex : UInt32), kPageHeaderSize ≤ page.length → page[0]? = some kIndex →
      ∃ entries out, Prod.fst <$> indexBody { data := page.drop kPageHeaderSize } = .ok entries ∧
        decodeIndexPage page pageIndex = .ok out ∧ out.entries = sortEntries entries ∧
        (out.truncated = true ↔ FallsShort (page.drop kPageHeaderSize) entries) := by
  refine ⟨entryFormat_string.degrades stringTableBody_eq, entryFormat_index.degrades fun body => ?_,
    fun page pageIndex hlen htype => ?_⟩
  · rcases indexBody_eq body with ⟨truncated, hbody, -⟩
    rw [hbody]
    rfl
  · rcases indexBody_eq (page.drop kPageHeaderSize) with ⟨truncated, hbody, hshort⟩
    refine ⟨_, _, by rw [hbody]; rfl, decodeIndexPage_of_body pageIndex hlen htype hbody, rfl, hshort⟩

theorem tables_degrade_cutIndex : ∃ entries out,
    Prod.fst <$> indexBody { data := cutIndex.drop kPageHeaderSize } = .ok entries ∧
      decodeIndexPage cutIndex 7 = .ok out ∧ out.entries = sortEntries entries ∧
      (out.truncated = true ↔ FallsShort (cutIndex.drop kPageHeaderSize) entries) :=
  tables_degrade.2.2 cutIndex 7 (by decide) (by decide)

end Bytewright.Minidb
