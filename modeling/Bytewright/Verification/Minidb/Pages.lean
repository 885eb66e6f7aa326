import Bytewright.Verification.Minidb.Stages

/-! # The pages of a buffer

What `parse_pages` makes of the bytes of a page, whole or cut off by the end of the buffer. -/

namespace Bytewright.Minidb

open Bytewright.Common Bytewright.Library

variable {data : Bytes} {pageSize : Nat}

/-! ### Spans -/

/-- Where page `i` lies in a buffer of `size` bytes, cut off at its end. -/
def spanAt (size pageSize i : Nat) : PageSpan where
  fileOffset := kHeaderSize + i * pageSize
  length := min (size - (kHeaderSize + i * pageSize)) pageSize

theorem spanAt_whole {size pageSize i : Nat} (h : kHeaderSize + i * pageSize + pageSize ≤ size) :
    spanAt size pageSize i = { fileOffset := kHeaderSize + i * pageSize, length := pageSize } := by
  rw [spanAt, Nat.min_eq_right (by omega)]

theorem parsePagesFrom_spans {left i : Nat} {spans : List PageSpan} {pages : List Page}
    (h : parsePagesFrom data pageSize left i = .ok (spans, pages)) :
    spans = (List.range pages.length).map (fun k => spanAt data.length pageSize (i + k)) ∧
      pages.length ≤ left ∧
      ∀ k < pages.length, kHeaderSize + (i + k) * pageSize < data.length := by
  induction left generalizing i spans pages with
  | zero =>
      cases h
      exact ⟨rfl, Nat.le_refl _, nofun⟩
  | succ left ih =>
      rw [parsePagesFrom] at h
      dsimp only at h
      split at h
      · cases h
        exact ⟨rfl, Nat.zero_le _, nofun⟩
      · next hoff =>
        rcases outcome_bind_eq_ok.mp h with ⟨page, hpage, h⟩
        rcases outcome_bind_eq_ok.mp h with ⟨⟨spans, pages⟩, hrest, h⟩
        cases h
        rcases ih hrest with ⟨rfl, hle, hbelow⟩
        have hindex : ∀ k, i + (k + 1) = i + 1 + k := by omega
        refine ⟨?_, Nat.succ_le_succ hle, ?_⟩
        · rw [List.length_cons, List.range_succ_eq_map, List.map_cons, List.map_map]
          congr 1
          · simp only [spanAt, Nat.add_zero]
            congr 1
            split <;> omega
          · apply List.map_congr_left
            intro k _
            rw [Function.comp_apply, Nat.succ_eq_add_one, hindex k]
        · intro k hk
          cases k with
          | zero => exact Nat.lt_of_not_le hoff
          | succ k =>
              rw [hindex k]
              exact hbelow k (Nat.lt_of_succ_lt_succ hk)

theorem parsePagesFrom_span {left i k : Nat} {spans : List PageSpan} {pages : List Page}
    (h : parsePagesFrom data pageSize left i = .ok (spans, pages)) (hk : k < pages.length) :
    spans[k]? = some (spanAt data.length pageSize (i + k)) := by
  rw [(parsePagesFrom_spans h).1, List.getElem?_map, List.getElem?_range hk, Option.map_some]

/-- Every page that starts inside the buffer is walked. -/
theorem lt_length_of_parsePagesFrom {left i k : Nat} {spans : List PageSpan} {pages : List Page}
    (h : parsePagesFrom data pageSize left i = .ok (spans, pages)) (hk : k < left)
    (hstart : kHeaderSize + (i + k) * pageSize < data.length) : k < pages.length := by
  induction left generalizing i k spans pages with
  | zero => exact absurd hk (Nat.not_lt_zero k)
  | succ left ih =>
      have hle : i * pageSize ≤ (i + k) * pageSize := Nat.mul_le_mul_right _ (Nat.le_add_right i k)
      rw [parsePagesFrom] at h
      dsimp only at h
      rw [if_neg (by omega)] at h
      rcases outcome_bind_eq_ok.mp h with ⟨page, hpage, h⟩
      rcases outcome_bind_eq_ok.mp h with ⟨⟨spans, pages⟩, hrest, h⟩
      cases h
      cases k with
      | zero => exact Nat.succ_pos _
      | succ k =>
          have hindex : i + (k + 1) = i + 1 + k := by omega
          rw [hindex] at hstart
          exact Nat.succ_lt_succ (ih hrest (Nat.lt_of_succ_lt_succ hk) hstart)

/-- Every page is parsed off its own span. -/
theorem parsePagesFrom_page {left i k : Nat} {spans : List PageSpan} {pages : List Page} {page : Page}
    (h : parsePagesFrom data pageSize left i = .ok (spans, pages)) (hpage : pages[k]? = some page) :
    parsePage data (UInt32.ofNat (i + k)) pageSize (spanAt data.length pageSize (i + k)).fileOffset
      (spanAt data.length pageSize (i + k)).length = .ok page := by
  induction left generalizing i k spans pages with
  | zero =>
      cases h
      cases hpage
  | succ left ih =>
      rw [parsePagesFrom] at h
      dsimp only at h
      split at h
      · cases h
        cases hpage
      · rcases outcome_bind_eq_ok.mp h with ⟨first, hfirst, h⟩
        rcases outcome_bind_eq_ok.mp h with ⟨⟨spans, pages⟩, hrest, h⟩
        cases h
        cases k with
        | zero =>
            cases hpage
            rw [Nat.add_zero, spanAt]
            have hmin : min (data.length - (kHeaderSize + i * pageSize)) pageSize =
                if data.length - (kHeaderSize + i * pageSize) < pageSize then
                  data.length - (kHeaderSize + i * pageSize) else pageSize := by
              split <;> omega
            rw [hmin]
            exact hfirst
        | succ k =>
            have hindex : i + (k + 1) = i + 1 + k := by omega
            rw [hindex]
            exact ih hrest hpage

/-! ### Slots -/

/-- The slot whose directory entry stands at `i`, checked against the declared page. -/
def slotAt (data : Bytes) (pageSize i : Nat) : Slot where
  recOffset := u16At data i
  recLength := u16At data (i + 2)
  inBounds := kPageHeaderSize ≤ (u16At data i).toNat &&
    (u16At data i).toNat + (u16At data (i + 2)).toNat ≤ pageSize &&
    (u16At data i).toNat ≤ (u16At data i).toNat + (u16At data (i + 2)).toNat

theorem parseSlots_at {count : Nat} {r s : ByteReader} {slots : List Slot}
    (h : parseSlots pageSize count r = .ok slots s) :
    slots = (List.range count).map (fun k => slotAt r.data pageSize (r.pos + kSlotEntrySize * k)) := by
  induction count generalizing r slots with
  | zero =>
      cases h
      rfl
  | succ count ih =>
      rcases bind_eq_ok.mp h with ⟨slot, t, hslot, h⟩
      rcases bind_eq_ok.mp h with ⟨slots, u, hslots, h⟩
      cases h
      rcases bind_eq_ok.mp hslot with ⟨recOffset, v, hoffset, hslot⟩
      rcases bind_eq_ok.mp hslot with ⟨recLength, w, hlength, hslot⟩
      rcases readU16le_at hoffset with ⟨rfl, rfl⟩
      rcases readU16le_at hlength with ⟨rfl, rfl⟩
      cases hslot
      rw [List.range_succ_eq_map, List.map_cons, List.map_map, ih hslots]
      congr 1
      apply List.map_congr_left
      intro k _
      have hpos : r.pos + 2 + 2 + kSlotEntrySize * k = r.pos + kSlotEntrySize * k.succ := by
        rw [kSlotEntrySize]
        omega
      simp only [ByteReader.data_advance, ByteReader.pos_advance, Function.comp_apply, hpos]

theorem u16At_slice {off len i : Nat} (h : i + 2 ≤ len) :
    u16At ((data.drop off).take len) i = u16At data (off + i) := by
  have hslice : (((data.drop off).take len).drop i).take 2 = (data.drop (off + i)).take 2 := by
    rw [List.drop_take, List.take_take, List.drop_drop, Nat.min_eq_left (by omega)]
  rw [u16At, u16At, hslice]

theorem slotAt_slice {off len i : Nat} (h : i + kSlotEntrySize ≤ len) :
    slotAt ((data.drop off).take len) pageSize i = slotAt data pageSize (off + i) := by
  rw [kSlotEntrySize] at h
  rw [slotAt, slotAt, u16At_slice (by omega), u16At_slice (by omega), Nat.add_assoc]

/-- How many directory entries fit into `len` bytes of a page. -/
def fitEntries (data : Bytes) (off len : Nat) : Nat :=
  min (u16At data (off + 2)).toNat ((len - kPageHeaderSize) / kSlotEntrySize)

/-- The directory is clamped to the entries that fit. -/
theorem clamped_eq (count len : Nat) :
    (if decide (kPageHeaderSize + count * kSlotEntrySize > len) = true then
      (if len > kPageHeaderSize then len - kPageHeaderSize else 0) / kSlotEntrySize
    else count) = min count ((len - kPageHeaderSize) / kSlotEntrySize) := by
  rw [kPageHeaderSize, kSlotEntrySize]
  by_cases hclamp : 8 + count * 4 > len
  · rw [decide_eq_true hclamp, if_pos rfl]
    split <;> omega
  · rw [decide_eq_false hclamp, if_neg Bool.false_ne_true]
    omega

theorem parsePageBody_at {index : UInt32} {pageLen : Nat} {r s : ByteReader} {page : Page}
    (h : parsePageBody index pageSize pageLen r = .ok page s) :
    page.index = index ∧ r.rest.head? = some page.type ∧
      page.slots = (List.range (min (u16At r.data (r.pos + 2)).toNat
        ((pageLen - kPageHeaderSize) / kSlotEntrySize))).map
          (fun k => slotAt r.data pageSize (r.pos + kPageHeaderSize + kSlotEntrySize * k)) := by
  rcases bind_eq_ok.mp h with ⟨type, r₁, htype, h⟩
  rcases readU8_ok htype with ⟨hrest, rfl⟩
  rcases bind_eq_ok.mp h with ⟨flags, r₂, hflags, h⟩
  rcases readU8_ok hflags with ⟨-, rfl⟩
  rcases bind_eq_ok.mp h with ⟨slotCount, r₃, hslotCount, h⟩
  rcases readU16le_at hslotCount with ⟨hcount, rfl⟩
  rcases bind_eq_ok.mp h with ⟨freeStart, r₄, hfree, h⟩
  rcases readU16le_at hfree with ⟨-, rfl⟩
  rcases bind_eq_ok.mp h with ⟨overflowNext, r₅, hnext, h⟩
  rcases readU16le_at hnext with ⟨-, rfl⟩
  rcases bind_eq_ok.mp h with ⟨slots, r₆, hdirectory, h⟩
  cases h
  have hslots := parseSlots_at hdirectory
  simp only [ByteReader.advance_advance, ByteReader.data_advance, ByteReader.pos_advance] at hcount hslots
  rw [clamped_eq, hcount] at hslots
  exact ⟨rfl, by rw [hrest]; rfl, hslots⟩

/-- The page at `off`, of which `len` bytes are there. -/
theorem parsePage_at {index : UInt32} {off len : Nat} {page : Page}
    (h : parsePage data index pageSize off len = .ok page) :
    page.index = index ∧ (page.slots ≠ [] → data[off]? = some page.type) ∧
      page.slots = (List.range (fitEntries data off len)).map
        (fun s => slotAt data pageSize (off + (kPageHeaderSize + kSlotEntrySize * s))) := by
  rw [parsePage] at h
  split at h
  · next hshort =>
    cases h
    have hzero : fitEntries data off len = 0 := by
      rw [fitEntries, Nat.sub_eq_zero_of_le hshort.le, Nat.zero_div, Nat.min_zero]
    rw [hzero]
    exact ⟨rfl, fun hne => absurd rfl hne, rfl⟩
  · next hheader =>
    rw [kPageHeaderSize] at hheader
    split at h
    · next page' r hbody =>
      cases h
      rcases parsePageBody_at hbody with ⟨hindex, htype, hslots⟩
      refine ⟨hindex, fun _ => ?_, ?_⟩
      · rw [ByteReader.rest_mk_zero, List.head?_take, if_neg (by omega), List.head?_drop] at htype
        exact htype
      · simp only [Nat.zero_add] at hslots
        rw [hslots, fitEntries, u16At_slice (by omega)]
        apply List.map_congr_left
        intro k hk
        rw [List.mem_range] at hk
        have hin := Nat.lt_of_lt_of_le hk (Nat.min_le_right _ _)
        rw [kPageHeaderSize, kSlotEntrySize] at *
        rw [slotAt_slice (by rw [kSlotEntrySize]; omega)]
    · cases h

end Bytewright.Minidb
