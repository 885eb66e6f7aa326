import Mathlib.Algebra.BigOperators.Group.List.Basic
import Mathlib.Algebra.GroupWithZero.Nat
import Bytewright.Library.Counting
import Bytewright.Library.TreeMap
import Bytewright.Model.Minidb.Catalog
import Bytewright.Verification.Minidb.PageIsolation
import Bytewright.Verification.Minidb.Pages

/-! # Slots and records

The slots that a page claims, those that are there, and the records they become. -/

namespace Bytewright.Minidb

open Bytewright.Common Bytewright.Library

variable {data : Bytes} {spans : List PageSpan} {pages : List Page}

/-! ### The slots of the DATA pages -/

/-- The slots of the DATA pages, each with the span of its page. -/
def dataSlots (spans : List PageSpan) (pages : List Page) : List (PageSpan × Slot) :=
  (spans.zip pages).flatMap fun sp => if sp.2.type = kData then sp.2.slots.map (Prod.mk sp.1) else []

/-- A slot that the catalog counts as used. -/
def used (x : PageSpan × Slot) : Bool := x.2.inBounds && decide (x.2.recLength > 0)

/-- A used slot whose bytes are in the buffer. -/
def landed (data : Bytes) (x : PageSpan × Slot) : Bool :=
  used x && decide (x.1.fileOffset + x.2.recOffset.toNat + x.2.recLength.toNat ≤ data.length)

theorem dataSlots_cons (span : PageSpan) (spans : List PageSpan) (page : Page) (pages : List Page) :
    dataSlots (span :: spans) (page :: pages) =
      (if page.type = kData then page.slots.map (Prod.mk span) else []) ++ dataSlots spans pages := rfl

theorem mem_dataSlots {x : PageSpan × Slot} : x ∈ dataSlots spans pages ↔ ∃ (k : Nat) (page : Page),
    spans[k]? = some x.1 ∧ pages[k]? = some page ∧ page.type = kData ∧ x.2 ∈ page.slots := by
  rw [dataSlots, List.mem_flatMap]
  constructor
  · rintro ⟨⟨span, page⟩, hzip, hx⟩
    rcases List.mem_iff_getElem?.mp hzip with ⟨k, hk⟩
    rcases List.getElem?_zip_eq_some.mp hk with ⟨hspan, hpage⟩
    dsimp only at hx
    split at hx
    · next htype =>
      rcases List.mem_map.mp hx with ⟨slot, hslot, rfl⟩
      exact ⟨k, page, hspan, hpage, htype, hslot⟩
    · cases hx
  · rintro ⟨k, page, hspan, hpage, htype, hslot⟩
    have hzip : (spans.zip pages)[k]? = some (x.1, page) := List.getElem?_zip_eq_some.mpr ⟨hspan, hpage⟩
    refine ⟨(x.1, page), List.mem_of_getElem? hzip, ?_⟩
    dsimp only
    rw [if_pos htype]
    exact List.mem_map.mpr ⟨x.2, hslot, rfl⟩

/-! ### The records of the seed -/

/-- A slot makes a record of its own or none. -/
theorem seedSlot_size {page : Page} {span : PageSpan} {store : Store} {s : UInt16}
    (hfresh : store[(page.index, s)]? = none) (slot : Slot) :
    (seedSlot data page span store s slot).size =
      store.size + if landed data (span, slot) = true then 1 else 0 := by
  rw [seedSlot, landed, used]
  cases hin : slot.inBounds with
  | false => simp
  | true =>
      by_cases hzero : slot.recLength = 0
      · simp [hzero]
      · have hpos : 0 < slot.recLength.toNat := by
          rw [Nat.pos_iff_ne_zero]
          exact fun h => hzero (UInt16.toNat_inj.mp h)
        have hlength : slot.recLength > 0 := UInt16.lt_iff_toNat_lt.mpr hpos
        by_cases hfits : span.fileOffset + slot.recOffset.toNat + slot.recLength.toNat ≤ data.length
        · have hstart : ¬ data.length ≤ span.fileOffset + slot.recOffset.toNat := by omega
          have hstop : ¬ data.length < span.fileOffset + slot.recOffset.toNat + slot.recLength.toNat := by
            omega
          simp [hzero, hlength, hfits, hstart, hstop, size_insert_of_none hfresh]
        · have hstop : data.length < span.fileOffset + slot.recOffset.toNat + slot.recLength.toNat := by
            omega
          simp [hzero, hfits, hstop]

theorem seedSlot_same_page {page : Page} {span : PageSpan} {store : Store} {s t : UInt16} (slot : Slot)
    (hne : s ≠ t) : (seedSlot data page span store s slot)[(page.index, t)]? = store[(page.index, t)]? := by
  rw [seedSlot]
  dsimp only
  split
  · rfl
  · split
    · rfl
    · rw [getElem?_insert_eq, if_neg fun h => hne (Prod.mk.inj h).2]

theorem ofNat_ne {m n : Nat} (hm : m < 2 ^ 16) (hn : n < 2 ^ 16) (hne : m ≠ n) :
    UInt16.ofNat m ≠ UInt16.ofNat n := by
  intro h
  have hnat := congrArg UInt16.toNat h
  rw [UInt16.toNat_ofNat', UInt16.toNat_ofNat', Nat.mod_eq_of_lt hm, Nat.mod_eq_of_lt hn] at hnat
  exact hne hnat

theorem seedSlots_size {page : Page} {span : PageSpan} {slots : List Slot} {n : Nat} {store : Store}
    (hfresh : ∀ m, n ≤ m → m < 2 ^ 16 → store[(page.index, UInt16.ofNat m)]? = none)
    (hcount : n + slots.length ≤ 2 ^ 16) :
    ((slots.zipIdx n).foldl (fun store slot => seedSlot data page span store (UInt16.ofNat slot.2) slot.1)
      store).size = store.size + slots.countP (fun slot => landed data (span, slot)) := by
  induction slots generalizing n store with
  | nil => rfl
  | cons slot slots ih =>
      rw [List.length_cons] at hcount
      rw [List.zipIdx_cons, List.foldl_cons, ih, seedSlot_size (hfresh n (Nat.le_refl n) (by omega)),
        List.countP_cons, Nat.add_assoc, Nat.add_comm (slots.countP _)]
      · intro m hm hlt
        rw [seedSlot_same_page slot (ofNat_ne (by omega) hlt (by omega)), hfresh m (by omega) hlt]
      · omega

/-- A page makes as many records as it has slots that are there. -/
theorem seedPage_size {page : Page} {span : PageSpan} {store : Store}
    (hspan : spans[page.index.toNat]? = some span) (hcount : page.slots.length ≤ 2 ^ 16)
    (hfresh : ∀ s : UInt16, store[(page.index, s)]? = none) : (seedPage data spans store page).size =
      store.size + (if page.type = kData then page.slots.map (Prod.mk span) else []).countP (landed data) := by
  rw [seedPage]
  by_cases htype : page.type = kData
  · rw [if_neg (not_not.mpr htype), hspan, if_pos htype, List.countP_map]
    exact seedSlots_size (fun m _ _ => hfresh _) (by omega)
  · rw [if_pos htype, if_neg htype]
    rfl

theorem seedPages_size {i : Nat} {store : Store} {spans' : List PageSpan}
    (hindex : ∀ (k : Nat) (page : Page), pages[k]? = some page → page.index.toNat = i + k)
    (hspans : ∀ k, spans[i + k]? = spans'[k]?) (hlength : pages.length ≤ spans'.length)
    (hcount : ∀ page ∈ pages, page.slots.length ≤ 2 ^ 16)
    (hfresh : ∀ key : RecordKey, i ≤ key.1.toNat → store[key]? = none) :
    (pages.foldl (seedPage data spans) store).size =
      store.size + (dataSlots spans' pages).countP (landed data) := by
  induction pages generalizing i store spans' with
  | nil => simp [dataSlots]
  | cons page pages ih =>
      cases spans' with
      | nil => cases hlength
      | cons span spans' =>
          have hi : page.index.toNat = i := hindex 0 page rfl
          have hspan : spans[page.index.toNat]? = some span := by
            rw [hi]
            exact hspans 0
          have hstep := fun k : Nat => Nat.add_right_comm i 1 k
          rw [List.foldl_cons, @ih (i + 1) _ spans', seedPage_size hspan (hcount page List.mem_cons_self),
            dataSlots_cons, List.countP_append, Nat.add_assoc]
          · intro s
            exact hfresh _ (by rw [hi])
          · intro k page' hpage'
            rw [hstep, hindex (k + 1) page' hpage', Nat.add_assoc]
          · intro k
            rw [hstep]
            exact hspans (k + 1)
          · exact Nat.le_of_succ_le_succ hlength
          · exact fun page' hpage' => hcount page' (List.mem_cons_of_mem _ hpage')
          · intro key hkey
            rw [seedPage_other (fun he => by rw [he] at hkey; omega), hfresh key (by omega)]

/-- Every record is decoded, or none. -/
theorem decodeRecords_size {committed : Store} {table : List Bytes}
    {records : Std.ExtTreeMap RecordKey Record} (h : decodeRecords committed table = .ok records) :
    records.size = committed.size := by
  have hfold : ∀ (l : List (RecordKey × Bytes)) (acc : Std.ExtTreeMap RecordKey Record),
      l.Pairwise (fun a b => ¬ compare a.1 b.1 = .eq) → (∀ e ∈ l, acc[e.1]? = none) →
      (l.foldlM (fun records kv => do
        return records.insertIfNew kv.1 (← decodeRecord kv.2 table)) acc : Outcome _) = .ok records →
      records.size = acc.size + l.length := by
    intro l
    induction l with
    | nil =>
        intro acc _ _ h
        cases h
        rfl
    | cons e l ih =>
        intro acc hdistinct hfresh h
        rcases List.pairwise_cons.mp hdistinct with ⟨hfirst, hrest⟩
        rw [List.foldlM_cons] at h
        rcases outcome_bind_eq_ok.mp h with ⟨acc', hstep, h⟩
        rcases outcome_bind_eq_ok.mp hstep with ⟨rec, hrec, hstep⟩
        cases hstep
        have hne : ∀ e' ∈ l, e.1 ≠ e'.1 := fun e' he' heq =>
          hfirst e' he' (Std.LawfulEqCmp.compare_eq_iff_eq.mpr heq)
        rw [ih _ hrest (fun e' he' => by
            rw [getElem?_insertIfNew_eq, if_neg (hne e' he'), Option.or_none]
            exact hfresh e' (List.mem_cons_of_mem _ he')) h,
          size_insertIfNew_of_none (hfresh e List.mem_cons_self), List.length_cons]
        omega
  have hsize := hfold committed.toList ∅ Std.ExtTreeMap.distinct_keys_toList (by simp) h
  simpa using hsize

/-! ### The catalog -/

theorem foldl_countSlot (slots : List Slot) (ps : PageStats) (span : PageSpan) :
    (slots.foldl countSlot ps).type = ps.type ∧ (slots.foldl countSlot ps).usedSlots =
      ps.usedSlots + slots.countP (fun slot => used (span, slot)) := by
  induction slots generalizing ps with
  | nil => exact ⟨rfl, rfl⟩
  | cons slot slots ih =>
      rcases ih (countSlot ps slot) with ⟨htype, hused⟩
      have hcount : used (span, slot) = (slot.inBounds && decide (slot.recLength > 0)) := rfl
      rw [List.foldl_cons, htype, hused, List.countP_cons, countSlot, hcount]
      by_cases hslot : (slot.inBounds && decide (slot.recLength > 0)) = true
      · rw [if_pos hslot, if_pos hslot]
        exact ⟨rfl, by dsimp only; omega⟩
      · rw [if_neg hslot, if_neg hslot]
        exact ⟨rfl, rfl⟩

theorem foldl_addPage (pages : List Page) (cat : Catalog) :
    (pages.foldl addPage cat).pages = cat.pages ++ pages.map pageStats ∧
      (pages.foldl addPage cat).totalLiveRecords = cat.totalLiveRecords := by
  induction pages generalizing cat with
  | nil => simp
  | cons page pages ih =>
      rcases ih (addPage cat page) with ⟨hpages, hlive⟩
      rw [List.foldl_cons, hpages, hlive]
      simp [addPage]

theorem buildCatalog_pages (db : Database) : (buildCatalog db).pages = db.pages.map pageStats :=
  (foldl_addPage db.pages _).1

theorem buildCatalog_live (db : Database) : (buildCatalog db).totalLiveRecords = db.records.size :=
  (foldl_addPage db.pages _).2

/-- The used slots of the catalog, summed over its DATA pages. -/
def usedOnDataPages (cat : Catalog) : Nat :=
  ((cat.pages.filter fun ps => ps.type = kData).map PageStats.usedSlots).sum

theorem used_sum (hlength : spans.length = pages.length) :
    (((pages.map pageStats).filter fun ps => ps.type = kData).map PageStats.usedSlots).sum =
      (dataSlots spans pages).countP used := by
  induction pages generalizing spans with
  | nil => simp [dataSlots]
  | cons page pages ih =>
      cases spans with
      | nil => cases hlength
      | cons span spans =>
          have hrest := ih (Nat.succ.inj hlength)
          rcases foldl_countSlot page.slots
            { index := page.index, type := page.type, totalSlots := page.slots.length,
              truncated := page.truncated } span with ⟨htype, hused⟩
          rw [dataSlots_cons, List.countP_append, ← hrest, List.map_cons, List.filter_cons]
          by_cases hdata : page.type = kData
          · have hkeep : (pageStats page).type = kData := htype.trans hdata
            rw [if_pos hdata, if_pos (decide_eq_true hkeep), List.map_cons, List.sum_cons, List.countP_map]
            congr 1
            exact hused.trans (Nat.zero_add _)
          · have hdrop : ¬ (pageStats page).type = kData := fun h => hdata (htype.symm.trans h)
            rw [if_neg hdata, if_neg (by simpa using hdrop), List.countP_nil, Nat.zero_add]

/-- As many slots are used as are there just when all used ones are. -/
theorem countP_used_iff (l : List (PageSpan × Slot)) :
    l.countP used = l.countP (landed data) ↔ ∀ x ∈ l, used x = true → landed data x = true := by
  have hsplit := countP_split used (landed data) l
  have hlanded : (l.countP fun x => used x && landed data x) = l.countP (landed data) := by
    apply List.countP_congr
    intro x _
    simp [landed]
  rw [hlanded] at hsplit
  constructor
  · intro heq x hx hused
    have hzero : (l.countP fun x => used x && !landed data x) = 0 := by omega
    have hnot := List.countP_eq_zero.mp hzero x hx
    simpa [hused] using hnot
  · intro hall
    have hzero : (l.countP fun x => used x && !landed data x) = 0 := by
      rw [List.countP_eq_zero]
      intro x hx
      cases hused : used x with
      | false => simp
      | true => simp [hall x hx hused]
    omega

/-! ### Directory entries that claim too much -/

/-- Where directory entry `s` of the page at `off` stands. -/
def entryAt (off s : Nat) : Nat := off + (kPageHeaderSize + kSlotEntrySize * s)

/-- The page at `off` has a directory entry `s`, inside the declared page and inside the buffer. -/
structure HasEntry (data : Bytes) (pageSize off s : Nat) : Prop where
  counted : s < (u16At data (off + 2)).toNat
  inPage : kPageHeaderSize + kSlotEntrySize * (s + 1) ≤ pageSize
  inBuffer : entryAt off (s + 1) ≤ data.length

/-- The entry claims bytes of the declared page, behind its header, that the buffer does not have. -/
structure Overhangs (data : Bytes) (pageSize off s : Nat) : Prop where
  behindHeader : kPageHeaderSize ≤ (u16At data (entryAt off s)).toNat
  inPage : (u16At data (entryAt off s)).toNat + (u16At data (entryAt off s + 2)).toNat ≤ pageSize
  missing : data.length <
    off + ((u16At data (entryAt off s)).toNat + (u16At data (entryAt off s + 2)).toNat)

theorem lt_fitEntries_iff (pageSize off s : Nat) :
    s < fitEntries data off (min (data.length - off) pageSize) ↔ HasEntry data pageSize off s := by
  rw [fitEntries]
  constructor
  · intro h
    exact ⟨by omega, by rw [kPageHeaderSize, kSlotEntrySize] at *; omega,
      by rw [entryAt, kPageHeaderSize, kSlotEntrySize] at *; omega⟩
  · rintro ⟨hcounted, hpage, hbuffer⟩
    rw [entryAt] at hbuffer
    rw [kPageHeaderSize, kSlotEntrySize] at *
    omega

/-- What the walk over a buffer has for a page: its span, its type, and its directory. -/
theorem parsePagesFrom_directory {left k : Nat} {page : Page}
    (h : parsePagesFrom data pageSize left 0 = .ok (spans, pages)) (hpage : pages[k]? = some page) :
    spans[k]? = some (spanAt data.length pageSize k) ∧
      (page.slots ≠ [] → data[kHeaderSize + k * pageSize]? = some page.type) ∧
      page.slots = (List.range (fitEntries data (kHeaderSize + k * pageSize)
        (min (data.length - (kHeaderSize + k * pageSize)) pageSize))).map
          (fun s => slotAt data pageSize (entryAt (kHeaderSize + k * pageSize) s)) := by
  have hspan := parsePagesFrom_span h (List.getElem?_eq_some_iff.mp hpage).1
  have hparse := parsePagesFrom_page h hpage
  rw [Nat.zero_add] at hspan hparse
  exact ⟨hspan, (parsePage_at hparse).2⟩

/-- A property of every slot, in terms of the directory entries in the buffer. -/
theorem forall_slots_iff {hdr : FileHeader} (h : parsePages data hdr = .ok (spans, pages))
    (Q : PageType → PageSpan → Slot → Prop) :
    (∀ (k : Nat) (page : Page) (span : PageSpan), pages[k]? = some page → spans[k]? = some span →
      ∀ slot ∈ page.slots, Q page.type span slot) ↔
    ∀ k < hdr.pageCount.toNat, ∀ s type, HasEntry data hdr.pageSize.toNat (kHeaderSize + k * hdr.pageSize.toNat) s →
      data[kHeaderSize + k * hdr.pageSize.toNat]? = some type → Q type (spanAt data.length hdr.pageSize.toNat k)
        (slotAt data hdr.pageSize.toNat (entryAt (kHeaderSize + k * hdr.pageSize.toNat) s)) := by
  rw [parsePages] at h
  generalize hdr.pageSize.toNat = pageSize at *
  constructor
  · intro hall k hk s type hentry htype
    have hstart : kHeaderSize + (0 + k) * pageSize < data.length := by
      rw [Nat.zero_add]
      exact (List.getElem?_eq_some_iff.mp htype).1
    have hsome : ∃ page, pages[k]? = some page :=
      ⟨_, List.getElem?_eq_getElem (lt_length_of_parsePagesFrom h hk hstart)⟩
    rcases hsome with ⟨page, hpage⟩
    rcases parsePagesFrom_directory h hpage with ⟨hspan, hpagetype, hslots⟩
    have hslot : slotAt data pageSize (entryAt (kHeaderSize + k * pageSize) s) ∈ page.slots := by
      rw [hslots]
      exact List.mem_map.mpr ⟨s, List.mem_range.mpr ((lt_fitEntries_iff _ _ _).mpr hentry), rfl⟩
    have heq := hpagetype (List.ne_nil_of_mem hslot)
    rw [htype] at heq
    cases heq
    exact hall k page _ hpage hspan _ hslot
  · intro hall k page span hpage hspan slot hslot
    rcases parsePagesFrom_directory h hpage with ⟨hspan', htype, hslots⟩
    rw [hspan'] at hspan
    cases hspan
    have htype := htype (List.ne_nil_of_mem hslot)
    rw [hslots] at hslot
    rcases List.mem_map.mp hslot with ⟨s, hs, rfl⟩
    have hk : k < hdr.pageCount.toNat :=
      Nat.lt_of_lt_of_le (List.getElem?_eq_some_iff.mp hpage).1 (parsePagesFrom_spans h).2.1
    exact hall k hk s page.type ((lt_fitEntries_iff _ _ _).mp (List.mem_range.mp hs)) htype

/-- Every slot that counts as in bounds lies inside the bytes present for its page. -/
def SlotsPresent (spans : List PageSpan) (pages : List Page) : Prop :=
  ∀ (k : Nat) (page : Page) (span : PageSpan), pages[k]? = some page → spans[k]? = some span →
    ∀ slot ∈ page.slots, slot.inBounds = true →
      kPageHeaderSize ≤ slot.recOffset.toNat ∧
        slot.recOffset.toNat + slot.recLength.toNat ≤ span.length

/-- No directory entry claims bytes behind the end of the buffer. -/
def NoneOverhangs (data : Bytes) (hdr : FileHeader) : Prop :=
  ∀ k < hdr.pageCount.toNat, ∀ s,
    HasEntry data hdr.pageSize.toNat (kHeaderSize + k * hdr.pageSize.toNat) s →
      ¬ Overhangs data hdr.pageSize.toNat (kHeaderSize + k * hdr.pageSize.toNat) s

/-- No directory entry of a DATA page, for a record of some bytes, does so. -/
def NoRecordOverhangs (data : Bytes) (hdr : FileHeader) : Prop :=
  ∀ k < hdr.pageCount.toNat, ∀ s, data[kHeaderSize + k * hdr.pageSize.toNat]? = some kData →
    HasEntry data hdr.pageSize.toNat (kHeaderSize + k * hdr.pageSize.toNat) s →
      0 < (u16At data (entryAt (kHeaderSize + k * hdr.pageSize.toNat) s + 2)).toNat →
        ¬ Overhangs data hdr.pageSize.toNat (kHeaderSize + k * hdr.pageSize.toNat) s

theorem HasEntry.start {pageSize off s : Nat} (h : HasEntry data pageSize off s) :
    ∃ type, data[off]? = some type := by
  have hbuffer := h.inBuffer
  rw [entryAt, kPageHeaderSize] at hbuffer
  exact ⟨_, List.getElem?_eq_getElem (by omega)⟩

theorem slotAt_inBounds {pageSize i : Nat} : (slotAt data pageSize i).inBounds = true ↔
    kPageHeaderSize ≤ (u16At data i).toNat ∧ (u16At data i).toNat + (u16At data (i + 2)).toNat ≤ pageSize := by
  simp [slotAt]

theorem slotsPresent_iff {hdr : FileHeader} (h : parsePages data hdr = .ok (spans, pages)) :
    SlotsPresent spans pages ↔ NoneOverhangs data hdr := by
  rw [SlotsPresent, forall_slots_iff h fun _ span slot => slot.inBounds = true →
    kPageHeaderSize ≤ slot.recOffset.toNat ∧ slot.recOffset.toNat + slot.recLength.toNat ≤ span.length]
  constructor
  · rintro hall k hk s hentry ⟨hheader, hpage, hmissing⟩
    rcases hentry.start with ⟨type, htype⟩
    have hstart := (List.getElem?_eq_some_iff.mp htype).1
    have hin := (hall k hk s type hentry htype (slotAt_inBounds.mpr ⟨hheader, hpage⟩)).2
    simp only [slotAt, spanAt] at hin
    omega
  · intro hall k hk s type hentry htype hin
    rcases slotAt_inBounds.mp hin with ⟨hheader, hpage⟩
    have hnot := hall k hk s hentry
    have hstart := (List.getElem?_eq_some_iff.mp htype).1
    refine ⟨hheader, ?_⟩
    by_contra hlong
    refine hnot ⟨hheader, hpage, ?_⟩
    simp only [slotAt, spanAt] at hlong
    omega

theorem used_slotAt {span : PageSpan} {pageSize i : Nat} :
    used (span, slotAt data pageSize i) = true ↔ (kPageHeaderSize ≤ (u16At data i).toNat ∧
      (u16At data i).toNat + (u16At data (i + 2)).toNat ≤ pageSize) ∧ 0 < (u16At data (i + 2)).toNat := by
  rw [used, Bool.and_eq_true, slotAt_inBounds, decide_eq_true_iff]
  exact Iff.rfl

theorem noRecordOverhangs_iff {hdr : FileHeader} (h : parsePages data hdr = .ok (spans, pages)) :
    (∀ x ∈ dataSlots spans pages, used x = true → landed data x = true) ↔ NoRecordOverhangs data hdr := by
  have hslots := forall_slots_iff h fun type span slot => type = kData →
    used (span, slot) = true → landed data (span, slot) = true
  have hmem : (∀ x ∈ dataSlots spans pages, used x = true → landed data x = true) ↔
      ∀ (k : Nat) (page : Page) (span : PageSpan), pages[k]? = some page → spans[k]? = some span →
        ∀ slot ∈ page.slots, page.type = kData → used (span, slot) = true →
          landed data (span, slot) = true := by
    constructor
    · intro hall k page span hpage hspan slot hslot htype
      exact hall (span, slot) (mem_dataSlots.mpr ⟨k, page, hspan, hpage, htype, hslot⟩)
    · intro hall x hx
      rcases mem_dataSlots.mp hx with ⟨k, page, hspan, hpage, htype, hslot⟩
      exact hall k page x.1 hpage hspan x.2 hslot htype
  rw [hmem, hslots]
  constructor
  · rintro hall k hk s htype hentry hpos ⟨hheader, hpage, hmissing⟩
    have hland := hall k hk s kData hentry htype rfl (used_slotAt.mpr ⟨⟨hheader, hpage⟩, hpos⟩)
    rw [landed, Bool.and_eq_true, decide_eq_true_iff] at hland
    have hfits := hland.2
    simp only [slotAt, spanAt] at hfits
    omega
  · rintro hall k hk s type hentry htype rfl hused
    rcases used_slotAt.mp hused with ⟨⟨hheader, hpage⟩, hpos⟩
    have hnot := hall k hk s htype hentry hpos
    rw [landed, Bool.and_eq_true, decide_eq_true_iff]
    refine ⟨hused, ?_⟩
    by_contra hlong
    refine hnot ⟨hheader, hpage, ?_⟩
    simp only [slotAt, spanAt] at hlong
    omega

/-! ### The whole buffer -/

/-- There is a span for each page. -/
theorem Stages.spans_length {opts : Options} {s : ReplayState} {db : Database}
    (h : Stages data opts spans s db) : spans.length = db.pages.length := by
  have hpages := h.pages
  rw [parsePages] at hpages
  rw [(parsePagesFrom_spans hpages).1]
  simp

/-- Without a journal there are as many records as slots of DATA pages that are there. -/
theorem Stages.records_size {opts : Options} {s : ReplayState} {db : Database}
    (h : Stages data opts spans s db) (hnone : db.journalOffset = 0) :
    db.records.size = (dataSlots spans db.pages).countP (landed data) := by
  have hrecords := h.records
  have hpages := h.pages
  rw [h.committed hnone] at hrecords
  rw [parsePages] at hpages
  have hle := (parsePagesFrom_spans hpages).2.1
  have hparse := fun (k : Nat) (page : Page) (hpage : db.pages[k]? = some page) =>
    parsePage_at (parsePagesFrom_page hpages hpage)
  have hcount := (headerOf data).pageCount.toNat_lt
  rw [decodeRecords_size hrecords, seedFromPages, @seedPages_size _ _ _ 0 _ spans]
  · simp
  · intro k page hpage
    have hk := (List.getElem?_eq_some_iff.mp hpage).1
    rw [(hparse k page hpage).1, UInt32.toNat_ofNat', Nat.mod_eq_of_lt (by omega)]
  · intro k
    rw [Nat.zero_add]
  · exact h.spans_length.ge
  · intro page hmem
    rcases List.mem_iff_getElem?.mp hmem with ⟨k, hpage⟩
    rw [(hparse k page hpage).2.2, List.length_map, List.length_range]
    exact (Nat.min_le_left _ _).trans (UInt16.toNat_lt _).le
  · intro key _
    exact Std.ExtTreeMap.getElem?_empty

/-- Slot flags speak of the bytes present, and the used slots of the DATA pages are the records, just
when no directory entry claims bytes behind the end of the buffer. -/
theorem slots_present_iff (data : Bytes) :
    (∀ hdr spans pages, parsePages data hdr = .ok (spans, pages) →
      (SlotsPresent spans pages ↔ NoneOverhangs data hdr)) ∧
    ∀ opts db, openDb data opts = .ok db → db.journalOffset = 0 →
      (usedOnDataPages (buildCatalog db) = (buildCatalog db).totalLiveRecords ↔
        NoRecordOverhangs data (headerOf data)) := by
  refine ⟨fun hdr spans pages h => slotsPresent_iff h, fun opts db hopen hnone => ?_⟩
  rcases openDb_stages hopen with ⟨spans, s, hstages⟩
  rw [usedOnDataPages, buildCatalog_pages, buildCatalog_live, hstages.records_size hnone,
    used_sum hstages.spans_length, countP_used_iff, noRecordOverhangs_iff hstages.pages]

/-- A DATA page cut off behind its directory, which has a record of 20 bytes at offset 12. -/
def cutPage : Bytes :=
  ascii "MDB1" ++ [1, 0, 64, 0] ++ [1, 0, 0, 0] ++ [0, 0, 0, 0] ++ [0xFF, 0xFF, 0xFF, 0xFF] ++
    [0, 0, 0, 0] ++ [0, 0, 0, 0] ++ [0, 0, 0, 0] ++ [1, 0, 1, 0, 32, 0, 0xFF, 0xFF, 12, 0, 20, 0]

/-- The catalog has a used slot, and there is no record. -/
theorem openDb_cutPage : ∃ db, openDb cutPage {} = .ok db ∧ db.journalOffset = 0 ∧
    usedOnDataPages (buildCatalog db) = 1 ∧ (buildCatalog db).totalLiveRecords = 0 := by
  have h : (fun db : Database => (db.journalOffset, usedOnDataPages (buildCatalog db),
      (buildCatalog db).totalLiveRecords)) <$> openDb cutPage {} = .ok (0, 1, 0) := by
    decide +kernel
  cases hopen : openDb cutPage {} with
  | error e => rw [hopen] at h; cases h
  | ok db =>
      rw [hopen] at h
      injection h with h
      rcases Prod.mk.inj h with ⟨hjournal, h⟩
      rcases Prod.mk.inj h with ⟨hused, hlive⟩
      exact ⟨db, rfl, hjournal, hused, hlive⟩

theorem slots_present_iff_cutPage : ∃ db, openDb cutPage {} = .ok db ∧
    (usedOnDataPages (buildCatalog db) = (buildCatalog db).totalLiveRecords ↔
      NoRecordOverhangs cutPage (headerOf cutPage)) := by
  rcases openDb_cutPage with ⟨db, hopen, hjournal, -⟩
  exact ⟨db, hopen, (slots_present_iff cutPage).2 {} db hopen hjournal⟩

theorem slots_not_present : ¬ ∀ data : Bytes,
    (∀ hdr spans pages, parsePages data hdr = .ok (spans, pages) → SlotsPresent spans pages) ∧
    ∀ opts db, openDb data opts = .ok db → db.journalOffset = 0 →
      usedOnDataPages (buildCatalog db) = (buildCatalog db).totalLiveRecords := by
  intro h
  rcases openDb_cutPage with ⟨db, hopen, hjournal, hused, hlive⟩
  have heq := (h cutPage).2 {} db hopen hjournal
  rw [hused, hlive] at heq
  cases heq

end Bytewright.Minidb
