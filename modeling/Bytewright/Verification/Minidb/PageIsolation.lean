import Bytewright.Library.TreeMap
import Bytewright.Verification.Minidb.Stages

/-! # What a page can do to the others

Two buffers that differ in one page only, run through every stage of `open` side by side. -/

namespace Bytewright.Minidb

open Bytewright.Common Bytewright.Library

/-- Two buffers of one size that agree outside page `j`, so that they have the same header. -/
structure DifferOnPage (pageSize j : Nat) (data data' : Bytes) : Prop where
  length : data.length = data'.length
  outside : ∀ k, k < kHeaderSize + j * pageSize ∨ kHeaderSize + (j + 1) * pageSize ≤ k →
    data[k]? = data'[k]?

/-- The bytes `[start, start + n)` lie inside page `i`. -/
def InPage (pageSize i start n : Nat) : Prop :=
  kHeaderSize + i * pageSize ≤ start ∧ start + n ≤ kHeaderSize + (i + 1) * pageSize

variable {pageSize j : Nat} {data data' : Bytes}

theorem slice_congr {start n : Nat} (h : ∀ k, start ≤ k → k < start + n → data[k]? = data'[k]?) :
    (data.drop start).take n = (data'.drop start).take n := by
  apply List.ext_getElem?
  intro k
  rw [List.getElem?_take, List.getElem?_take, List.getElem?_drop, List.getElem?_drop]
  split
  · exact h (start + k) (Nat.le_add_right ..) (by omega)
  · rfl

namespace DifferOnPage

theorem header (h : DifferOnPage pageSize j data data') {start n : Nat} (hn : start + n ≤ kHeaderSize) :
    (data.drop start).take n = (data'.drop start).take n := by
  apply slice_congr
  intro k _ hk
  exact h.outside k (.inl (by omega))

/-- Another page has the same bytes in both buffers. -/
theorem slice (h : DifferOnPage pageSize j data data') {i start n : Nat} (hi : i ≠ j)
    (hin : InPage pageSize i start n) : (data.drop start).take n = (data'.drop start).take n := by
  obtain ⟨hstart, hstop⟩ := hin
  apply slice_congr
  intro k hk hlt
  apply h.outside
  obtain hlt' | hgt := Nat.lt_or_gt_of_ne hi
  · have hle : (i + 1) * pageSize ≤ j * pageSize := Nat.mul_le_mul_right _ hlt'
    exact .inl (by omega)
  · have hle : (j + 1) * pageSize ≤ i * pageSize := Nat.mul_le_mul_right _ hgt
    exact .inr (by omega)

end DifferOnPage

/-! ### The header -/

theorem u16At_congr (h : DifferOnPage pageSize j data data') {i : Nat} (hi : i + 2 ≤ kHeaderSize) :
    u16At data i = u16At data' i := by
  rw [u16At, u16At, h.header hi]

theorem u32At_congr (h : DifferOnPage pageSize j data data') {i : Nat} (hi : i + 4 ≤ kHeaderSize) :
    u32At data i = u32At data' i := by
  rw [u32At, u32At, h.header hi]

theorem headerOf_congr (h : DifferOnPage pageSize j data data') : headerOf data = headerOf data' := by
  have hcovered : data.take kHeaderCrcCovered = data'.take kHeaderCrcCovered :=
    @DifferOnPage.header _ _ _ _ h 0 _ (by decide)
  have h₃₂ : ∀ i, i + 4 ≤ kHeaderSize → u32At data i = u32At data' i := fun i => u32At_congr h
  rw [headerOf, headerOf, u16At_congr h (i := 4) (by decide), u16At_congr h (i := 6) (by decide),
    h₃₂ 8 (by decide), h₃₂ 12 (by decide), h₃₂ 16 (by decide), h₃₂ 20 (by decide),
    h₃₂ 24 (by decide), h₃₂ 28 (by decide), hcovered]

/-! ### The pages -/

/-- Every slot that counts as in bounds lies behind the page header and inside the declared page. -/
def Page.Inside (pageSize : Nat) (page : Page) : Prop :=
  ∀ slot ∈ page.slots, slot.inBounds = true →
    kPageHeaderSize ≤ slot.recOffset.toNat ∧ slot.recOffset.toNat + slot.recLength.toNat ≤ pageSize

theorem parseSlots_inside {count : Nat} {r s : ByteReader} {slots : List Slot}
    (h : parseSlots pageSize count r = .ok slots s) : ∀ slot ∈ slots, slot.inBounds = true →
      kPageHeaderSize ≤ slot.recOffset.toNat ∧ slot.recOffset.toNat + slot.recLength.toNat ≤ pageSize := by
  induction count generalizing r slots with
  | zero =>
      cases h
      nofun
  | succ count ih =>
      obtain ⟨slot, t, hslot, h⟩ := bind_eq_ok.mp h
      obtain ⟨slots, u, hslots, h⟩ := bind_eq_ok.mp h
      cases h
      refine List.forall_mem_cons.mpr ⟨?_, ih hslots⟩
      obtain ⟨recOffset, v, -, hslot⟩ := bind_eq_ok.mp hslot
      obtain ⟨recLength, w, -, hslot⟩ := bind_eq_ok.mp hslot
      cases hslot
      intro hin
      simp only [Bool.and_eq_true, decide_eq_true_eq] at hin
      exact ⟨hin.1.1, hin.1.2⟩

theorem parsePage_spec {index : UInt32} {pageOff pageLen : Nat} {page : Page}
    (h : parsePage data index pageSize pageOff pageLen = .ok page) :
    page.index = index ∧ page.Inside pageSize := by
  rw [parsePage] at h
  split at h
  · cases h
    exact ⟨rfl, nofun⟩
  · split at h
    · next page' r hbody =>
      cases h
      obtain ⟨type, r₁, -, hbody⟩ := bind_eq_ok.mp hbody
      obtain ⟨flags, r₂, -, hbody⟩ := bind_eq_ok.mp hbody
      obtain ⟨slotCount, r₃, -, hbody⟩ := bind_eq_ok.mp hbody
      obtain ⟨freeStart, r₄, -, hbody⟩ := bind_eq_ok.mp hbody
      obtain ⟨overflowNext, r₅, -, hbody⟩ := bind_eq_ok.mp hbody
      obtain ⟨slots, r₆, hslots, hbody⟩ := bind_eq_ok.mp hbody
      cases hbody
      exact ⟨rfl, parseSlots_inside hslots⟩
    · cases h

/-- The pages from number `i` on of two buffers: they have their numbers, and only page `j` differs. -/
inductive PagesApart (pageSize j : Nat) : Nat → List Page → List Page → Prop where
  | nil (i : Nat) : PagesApart pageSize j i [] []
  | cons {i : Nat} {page page' : Page} {pages pages' : List Page} (index : page.index.toNat = i)
      (index' : page'.index.toNat = i) (same : i ≠ j → page = page')
      (inside : page.Inside pageSize) (rest : PagesApart pageSize j (i + 1) pages pages') :
      PagesApart pageSize j i (page :: pages) (page' :: pages')

/-- The spans lie where the pages do. -/
def SpansAt (pageSize i : Nat) (spans : List PageSpan) : Prop :=
  ∀ (k : Nat) (span : PageSpan), spans[k]? = some span →
    span.fileOffset = kHeaderSize + (i + k) * pageSize ∧ span.length ≤ pageSize

theorem SpansAt.cons {i : Nat} {span : PageSpan} {spans : List PageSpan}
    (hspan : span.fileOffset = kHeaderSize + i * pageSize ∧ span.length ≤ pageSize)
    (h : SpansAt pageSize (i + 1) spans) : SpansAt pageSize i (span :: spans) := by
  intro k span' hspan'
  cases k with
  | zero =>
      cases hspan'
      exact hspan
  | succ k =>
      obtain ⟨hoffset, hle⟩ := h k span' hspan'
      exact ⟨by rw [hoffset, Nat.add_assoc i 1 k, Nat.add_comm 1 k], hle⟩

/-- Another page is parsed alike from both buffers. -/
theorem parsePage_congr (hdiff : DifferOnPage pageSize j data data') {i start n : Nat} (hi : i ≠ j)
    (hin : InPage pageSize i start n) (index : UInt32) :
    parsePage data index pageSize start n = parsePage data' index pageSize start n := by
  rw [parsePage, parsePage, hdiff.slice hi hin]

theorem parsePagesFrom_apart (hdiff : DifferOnPage pageSize j data data') {left i : Nat}
    (hcount : i + left < 2 ^ 32) {spans spans' : List PageSpan} {pages pages' : List Page}
    (h : parsePagesFrom data pageSize left i = .ok (spans, pages))
    (h' : parsePagesFrom data' pageSize left i = .ok (spans', pages')) :
    spans = spans' ∧ SpansAt pageSize i spans ∧ PagesApart pageSize j i pages pages' := by
  induction left generalizing i spans spans' pages pages' with
  | zero =>
      cases h
      cases h'
      exact ⟨rfl, nofun, .nil i⟩
  | succ left ih =>
      rw [parsePagesFrom] at h h'
      rw [← hdiff.length] at h'
      dsimp only at h h'
      split at h
      · next hoff =>
        rw [if_pos hoff] at h'
        cases h
        cases h'
        exact ⟨rfl, nofun, .nil i⟩
      · next hoff =>
        rw [if_neg hoff] at h'
        obtain ⟨page, hpage, h⟩ := outcome_bind_eq_ok.mp h
        obtain ⟨⟨spans, pages⟩, hrest, h⟩ := outcome_bind_eq_ok.mp h
        obtain ⟨page', hpage', h'⟩ := outcome_bind_eq_ok.mp h'
        obtain ⟨⟨spans', pages'⟩, hrest', h'⟩ := outcome_bind_eq_ok.mp h'
        cases h
        cases h'
        obtain ⟨rfl, hspans, happart⟩ := ih (by omega) hrest hrest'
        have hindex : (UInt32.ofNat i).toNat = i := by
          rw [UInt32.toNat_ofNat', Nat.mod_eq_of_lt (by omega)]
        obtain ⟨hi, hinside⟩ := parsePage_spec hpage
        obtain ⟨hi', -⟩ := parsePage_spec hpage'
        have hlen : (if data.length - (kHeaderSize + i * pageSize) < pageSize
            then data.length - (kHeaderSize + i * pageSize) else pageSize) ≤ pageSize := by
          split <;> omega
        refine ⟨rfl, .cons ⟨rfl, hlen⟩ hspans,
          .cons (by rw [hi, hindex]) (by rw [hi', hindex]) (fun hne => ?_) hinside happart⟩
        rw [parsePage_congr hdiff hne ⟨Nat.le_refl _, by rw [Nat.succ_mul]; omega⟩] at hpage
        exact Except.ok.inj (hpage.symm.trans hpage')

/-! ### The string table -/

theorem PagesApart.getElem? {i : Nat} {pages pages' : List Page}
    (h : PagesApart pageSize j i pages pages') {k : Nat} (hk : i + k ≠ j) : pages[k]? = pages'[k]? := by
  induction h generalizing k with
  | nil i => rfl
  | @cons i page page' pages pages' _ _ same _ _ ih =>
      cases k with
      | zero => rw [List.getElem?_cons_zero, List.getElem?_cons_zero, same hk]
      | succ k =>
          rw [List.getElem?_cons_succ, List.getElem?_cons_succ]
          exact ih (by omega)

theorem parseStringTable_congr (hdiff : DifferOnPage pageSize j data data') {hdr : FileHeader}
    (hj : j ≠ hdr.stringTablePage.toNat) {spans : List PageSpan} (hspans : SpansAt pageSize 0 spans)
    {pages pages' : List Page} (hpages : PagesApart pageSize j 0 pages pages') :
    parseStringTable data hdr spans pages = parseStringTable data' hdr spans pages' := by
  have hpage := hpages.getElem? (k := hdr.stringTablePage.toNat) (by omega)
  rw [parseStringTable, parseStringTable, ← hpage]
  cases hspan : spans[hdr.stringTablePage.toNat]? with
  | none => rfl
  | some span =>
      obtain ⟨hoffset, hle⟩ := hspans _ span hspan
      rw [Nat.zero_add] at hoffset
      have hbytes : (data.drop (span.fileOffset + kPageHeaderSize)).take (span.length - kPageHeaderSize) =
          (data'.drop (span.fileOffset + kPageHeaderSize)).take (span.length - kPageHeaderSize) := by
        obtain hlt | hempty := Nat.lt_or_ge kPageHeaderSize span.length
        · apply hdiff.slice (Ne.symm hj)
          rw [hoffset]
          exact ⟨Nat.le_add_right .., by rw [Nat.succ_mul]; omega⟩
        · rw [Nat.sub_eq_zero_of_le hempty, List.take_zero, List.take_zero]
      cases pages[hdr.stringTablePage.toNat]? with
      | none => rfl
      | some page =>
          dsimp only
          rw [hbytes]

/-! ### The seed -/

/-- Two stores with the same records outside page `j`. -/
def StoresApart {α : Type} (j : Nat) (store store' : Std.ExtTreeMap RecordKey α) : Prop :=
  ∀ key : RecordKey, key.1.toNat ≠ j → store[key]? = store'[key]?

theorem seedSlot_other {page : Page} {span : PageSpan} {store : Store} {s : UInt16} {slot : Slot}
    {key : RecordKey} (hkey : key.1 ≠ page.index) :
    (seedSlot data page span store s slot)[key]? = store[key]? := by
  rw [seedSlot]
  dsimp only
  split
  · rfl
  · split
    · rfl
    · rw [getElem?_insert_eq, if_neg]
      rintro rfl
      exact hkey rfl

/-- A page adds records under its own number only. -/
theorem seedPage_other {spans : List PageSpan} {store : Store} {page : Page} {key : RecordKey}
    (hkey : key.1 ≠ page.index) : (seedPage data spans store page)[key]? = store[key]? := by
  have hfold : ∀ (span : PageSpan) (slots : List (Slot × Nat)) (store : Store),
      (slots.foldl (fun store slot => seedSlot data page span store (UInt16.ofNat slot.2) slot.1)
        store)[key]? = store[key]? := by
    intro span slots
    induction slots with
    | nil => exact fun store => rfl
    | cons slot slots ih =>
        intro store
        rw [List.foldl_cons, ih, seedSlot_other hkey]
  rw [seedPage]
  split
  · rfl
  · split
    · rfl
    · exact hfold _ _ _

/-- A slot that is in bounds is copied out of its own page. -/
theorem seedSlot_apart (hdiff : DifferOnPage pageSize j data data') {page : Page} {span : PageSpan}
    {i : Nat} (hi : i ≠ j) (hspan : span.fileOffset = kHeaderSize + i * pageSize)
    (hinside : page.Inside pageSize) {slot : Slot} (hslot : slot ∈ page.slots) (s : UInt16)
    {store store' : Store} (h : StoresApart j store store') :
    StoresApart j (seedSlot data page span store s slot) (seedSlot data' page span store' s slot) := by
  intro key hkey
  rw [seedSlot, seedSlot, ← hdiff.length]
  dsimp only
  split
  · exact h key hkey
  · next hbounds =>
    split
    · exact h key hkey
    · have hin : slot.inBounds = true := by
        by_contra hout
        exact hbounds (by simp [hout])
      obtain ⟨hlow, hhigh⟩ := hinside slot hslot hin
      have hpage : InPage pageSize i (span.fileOffset + slot.recOffset.toNat)
          (span.fileOffset + slot.recOffset.toNat + slot.recLength.toNat -
            (span.fileOffset + slot.recOffset.toNat)) :=
        ⟨by omega, by rw [hspan, Nat.succ_mul]; omega⟩
      have hbytes := hdiff.slice hi hpage
      rw [hbytes, getElem?_insert_eq, getElem?_insert_eq, h key hkey]

theorem seedPage_apart (hdiff : DifferOnPage pageSize j data data') {spans : List PageSpan}
    (hspans : SpansAt pageSize 0 spans) {page : Page} (hpage : page.index.toNat ≠ j)
    (hinside : page.Inside pageSize) {store store' : Store} (h : StoresApart j store store') :
    StoresApart j (seedPage data spans store page) (seedPage data' spans store' page) := by
  rw [seedPage, seedPage]
  split
  · exact h
  · split
    · exact h
    · next span hspan =>
      obtain ⟨hoffset, -⟩ := hspans _ span hspan
      rw [Nat.zero_add] at hoffset
      have hslots : ∀ e ∈ page.slots.zipIdx, e.1 ∈ page.slots := fun e he =>
        List.fst_mem_of_mem_zipIdx he
      generalize page.slots.zipIdx = slots at hslots
      induction slots generalizing store store' with
      | nil => exact h
      | cons e slots ih =>
          obtain ⟨he, hrest⟩ := List.forall_mem_cons.mp hslots
          rw [List.foldl_cons, List.foldl_cons]
          exact ih (seedSlot_apart hdiff hpage hoffset hinside he _ h) hrest

theorem seedFromPages_apart (hdiff : DifferOnPage pageSize j data data') {spans : List PageSpan}
    (hspans : SpansAt pageSize 0 spans) {pages pages' : List Page}
    (hpages : PagesApart pageSize j 0 pages pages') :
    StoresApart j (seedFromPages data spans pages) (seedFromPages data' spans pages') := by
  have hfold : ∀ {i : Nat} {pages pages' : List Page}, PagesApart pageSize j i pages pages' →
      ∀ {store store' : Store}, StoresApart j store store' →
        StoresApart j (pages.foldl (seedPage data spans) store)
          (pages'.foldl (seedPage data' spans) store') := by
    intro i pages pages' hpages
    induction hpages with
    | nil i => exact id
    | @cons i page page' pages pages' index index' same inside _ ih =>
        intro store store' h
        rw [List.foldl_cons, List.foldl_cons]
        apply ih
        by_cases hi : i = j
        · intro key hkey
          rw [seedPage_other fun he => hkey (by rw [he, index, hi]),
            seedPage_other fun he => hkey (by rw [he, index', hi]), h key hkey]
        · obtain rfl := same hi
          exact seedPage_apart hdiff hspans (by rwa [index]) inside h
  exact hfold hpages fun key _ => rfl

/-! ### The records -/

theorem decodeRecords_getElem? {committed : Store} {table : List Bytes}
    {records : Std.ExtTreeMap RecordKey Record} (h : decodeRecords committed table = .ok records)
    (key : RecordKey) :
    records[key]? = committed[key]?.bind fun bytes => (decodeRecord bytes table).toOption := by
  have hfold : ∀ (l : List (RecordKey × Bytes)) (acc : Std.ExtTreeMap RecordKey Record),
      (l.foldlM (fun records kv => do
        return records.insertIfNew kv.1 (← decodeRecord kv.2 table)) acc : Outcome _) = .ok records →
      records[key]? = acc[key]?.or
        ((l.filter (fun e => e.1 = key)).head?.bind fun e => (decodeRecord e.2 table).toOption) := by
    intro l
    induction l with
    | nil =>
        intro acc h
        cases h
        simp
    | cons e l ih =>
        intro acc h
        rw [List.foldlM_cons] at h
        obtain ⟨acc', hstep, h⟩ := outcome_bind_eq_ok.mp h
        obtain ⟨rec, hrec, hstep⟩ := outcome_bind_eq_ok.mp hstep
        cases hstep
        rw [ih _ h, getElem?_insertIfNew_eq, Option.or_assoc]
        congr 1
        by_cases hkey : e.1 = key
        · rw [if_pos hkey, List.filter_cons_of_pos (by simpa using hkey), List.head?_cons,
            Option.bind_some, hrec]
          rfl
        · rw [if_neg hkey, List.filter_cons_of_neg (by simpa using hkey), Option.none_or]
  have hlist := hfold committed.toList ∅ h
  rw [hlist, toList_filter_key, Std.ExtTreeMap.getElem?_empty, Option.none_or]
  cases committed[key]? with
  | none => rfl
  | some bytes => rfl

theorem decodeRecords_apart {committed committed' : Store} (hstores : StoresApart j committed committed')
    {table : List Bytes} {records records' : Std.ExtTreeMap RecordKey Record}
    (h : decodeRecords committed table = .ok records)
    (h' : decodeRecords committed' table = .ok records') : StoresApart j records records' := by
  intro key hkey
  rw [decodeRecords_getElem? h, decodeRecords_getElem? h', hstores key hkey]

/-! ### The whole buffer -/

/-- No page has a say in what another one holds: buffers without a journal that differ in page `j` only,
which is not the string table, have the same other pages and the same records under their numbers. -/
theorem openDb_page_isolated {opts : Options} {db db' : Database} (hopen : openDb data opts = .ok db)
    (hopen' : openDb data' opts = .ok db') (hjournal : db.journalOffset = 0)
    (hdiff : DifferOnPage db.pageSize.toNat j data data') (hj : j ≠ db.stringTablePage.toNat) :
    (∀ i, i ≠ j → db.pages[i]? = db'.pages[i]?) ∧ StoresApart j db.records db'.records := by
  have hheader := headerOf_congr hdiff
  obtain ⟨spans, s, hstages⟩ := openDb_stages hopen
  obtain ⟨spans', s', hstages'⟩ := openDb_stages hopen'
  have hjournal' : db'.journalOffset = 0 := by
    rw [hstages'.journalOffset, ← hheader, ← hstages.journalOffset, hjournal]
  have hpages' := hstages'.pages
  have htable' := hstages'.stringTable
  have hrecords := hstages.records
  have hrecords' := hstages'.records
  rw [← hheader] at hpages' htable'
  rw [hstages.pageSize] at hdiff
  rw [hstages.stringTablePage] at hj
  have hcount : 0 + (headerOf data).pageCount.toNat < 2 ^ 32 := by
    rw [Nat.zero_add]
    exact UInt32.toNat_lt _
  obtain ⟨rfl, hspans, happart⟩ := parsePagesFrom_apart hdiff hcount hstages.pages hpages'
  have htable : db.stringTable = db'.stringTable := by
    rw [← parseStringTable_congr hdiff hj hspans happart] at htable'
    exact Except.ok.inj (hstages.stringTable.symm.trans htable')
  rw [hstages.committed hjournal] at hrecords
  rw [hstages'.committed hjournal', ← htable] at hrecords'
  refine ⟨fun i hi => happart.getElem? (by rwa [Nat.zero_add]), ?_⟩
  exact decodeRecords_apart (seedFromPages_apart hdiff hspans happart) hrecords hrecords'

/-- A header for two pages of 64 bytes, and a DATA page with one record. -/
def onePage : Bytes :=
  ascii "MDB1" ++ [1, 0, 64, 0] ++ [2, 0, 0, 0] ++ [0, 0, 0, 0] ++ [0xFF, 0xFF, 0xFF, 0xFF] ++
    [0, 0, 0, 0] ++ [0, 0, 0, 0] ++ [0, 0, 0, 0] ++
    [1, 0, 1, 0, 12, 0, 0xFF, 0xFF, 12, 0, 1, 0] ++ List.replicate 52 0

/-- A second page that begins with the given byte. -/
def twoPages (b : UInt8) : Bytes := onePage ++ b :: List.replicate 63 9

theorem openDb_twoPages {b : UInt8} (hb : b = 0 ∨ b = 1) :
    ∃ db, openDb (twoPages b) {} = .ok db ∧ db.journalOffset = 0 ∧ db.pageSize = 64 ∧
      db.stringTablePage = 0xFFFFFFFF := by
  have h : (fun db : Database => (db.journalOffset, db.pageSize, db.stringTablePage)) <$>
      openDb (twoPages b) {} = .ok (0, 64, 0xFFFFFFFF) := by
    obtain rfl | rfl := hb <;> decide +kernel
  cases hopen : openDb (twoPages b) {} with
  | error e => rw [hopen] at h; cases h
  | ok db =>
      rw [hopen] at h
      obtain ⟨hjournal, hrest⟩ := Prod.mk.inj (Except.ok.inj h)
      obtain ⟨hsize, htable⟩ := Prod.mk.inj hrest
      exact ⟨db, rfl, hjournal, hsize, htable⟩

/-- The second page turns into a DATA page with a slot directory that runs over its end. -/
theorem openDb_page_isolated_second :
    ∃ db db', openDb (twoPages 0) {} = .ok db ∧ openDb (twoPages 1) {} = .ok db' ∧
      (∀ i, i ≠ 1 → db.pages[i]? = db'.pages[i]?) ∧ StoresApart 1 db.records db'.records := by
  obtain ⟨db, hopen, hjournal, hsize, htable⟩ := openDb_twoPages (.inl rfl)
  obtain ⟨db', hopen', -⟩ := openDb_twoPages (.inr rfl)
  refine ⟨db, db', hopen, hopen', openDb_page_isolated hopen hopen' hjournal ?_ (by rw [htable]; decide)⟩
  rw [hsize]
  have hfront : onePage.length = 96 := by decide
  have hlen : ∀ b, (twoPages b).length = 160 := fun b => by
    rw [twoPages, List.length_append, List.length_cons, List.length_replicate, hfront]
  refine ⟨rfl, fun k hk => ?_⟩
  obtain hlt | hge := hk
  · have hlt : k < onePage.length := hlt.trans_eq hfront.symm
    rw [twoPages, twoPages, List.getElem?_append_left hlt, List.getElem?_append_left hlt]
  · have hge : 160 ≤ k := hge
    rw [List.getElem?_eq_none (by rwa [hlen]), List.getElem?_eq_none (by rwa [hlen])]

end Bytewright.Minidb
