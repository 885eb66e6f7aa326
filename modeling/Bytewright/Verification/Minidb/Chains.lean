import Bytewright.Verification.Minidb.Image
import Bytewright.Verification.Minidb.Overflow

/-! # Payloads that are spread over pages

A payload on a chain of overflow pages of a store that is written, and what is reconstructed of it. -/

namespace Bytewright.Minidb

open Bytewright.Common Bytewright.Library

variable {data : Bytes}

/-! ### A page without slots -/

theorem makeBodyPage_eq (type : PageType) {pageSize : UInt16} (overflowNext : UInt16) {body : Bytes}
    (hfits : kPageHeaderSize + body.length ≤ pageSize.toNat) :
    makeBodyPage type pageSize overflowNext body = type :: 0 :: 0 :: 0 ::
      (leBytes 2 (kPageHeaderSize + body.length) ++ (leBytes 2 overflowNext.toNat ++
        (body ++ List.replicate (pageSize.toNat - (kPageHeaderSize + body.length)) 0))) := by
  have hsize := pageSize.toNat_lt
  have hfree : (UInt16.ofNat (kPageHeaderSize + body.length)).toNat = kPageHeaderSize + body.length := by
    rw [UInt16.toNat_ofNat', Nat.mod_eq_of_lt (by omega)]
  have hbody : body.take (pageSize.toNat - kPageHeaderSize) = body :=
    List.take_of_length_le (by omega)
  rw [makeBodyPage, hfree, hbody]
  simp [kPageHeaderSize]
  omega

theorem makeBodyPage_length (type : PageType) {pageSize : UInt16} (overflowNext : UInt16) {body : Bytes}
    (hfits : kPageHeaderSize + body.length ≤ pageSize.toNat) :
    (makeBodyPage type pageSize overflowNext body).length = pageSize.toNat := by
  rw [makeBodyPage_eq type overflowNext hfits]
  rw [kPageHeaderSize] at *
  simp
  omega

theorem parsePageBody_links {index : UInt32} {pageSize pageLen : Nat} {r s : ByteReader} {page : Page}
    (h : parsePageBody index pageSize pageLen r = .ok page s) :
    page.freeStart = u16At r.data (r.pos + 4) ∧ page.overflowNext = u16At r.data (r.pos + 6) := by
  rcases bind_eq_ok.mp h with ⟨type, r₁, htype, h⟩
  rcases readU8_ok htype with ⟨-, rfl⟩
  rcases bind_eq_ok.mp h with ⟨flags, r₂, hflags, h⟩
  rcases readU8_ok hflags with ⟨-, rfl⟩
  rcases bind_eq_ok.mp h with ⟨slotCount, r₃, hslotCount, h⟩
  rcases readU16le_at hslotCount with ⟨-, rfl⟩
  rcases bind_eq_ok.mp h with ⟨freeStart, r₄, hfree, h⟩
  rcases readU16le_at hfree with ⟨hstart, rfl⟩
  rcases bind_eq_ok.mp h with ⟨overflowNext, r₅, hnext, h⟩
  rcases readU16le_at hnext with ⟨hlink, rfl⟩
  rcases bind_eq_ok.mp h with ⟨slots, r₆, hdirectory, h⟩
  cases h
  exact ⟨hstart, hlink⟩

/-- The header of a page without slots is found again, and its body behind it. -/
theorem parsePage_body {type : PageType} {pageSize overflowNext : UInt16} {body : Bytes}
    (hfits : kPageHeaderSize + body.length ≤ pageSize.toNat) {off : Nat}
    (hpage : makeBodyPage type pageSize overflowNext body <+: data.drop off) {index : UInt32} {page : Page}
    (hparse : parsePage data index pageSize.toNat off pageSize.toNat = .ok page) :
    page.freeStart.toNat = kPageHeaderSize + body.length ∧ page.overflowNext = overflowNext ∧
      (data.drop (off + kPageHeaderSize)).take body.length = body := by
  have hsize := pageSize.toNat_lt
  have hslice := (List.prefix_iff_eq_take.mp hpage).symm
  rw [makeBodyPage_length type overflowNext hfits, makeBodyPage_eq type overflowNext hfits] at hslice
  obtain ⟨rest, hrest⟩ := hpage
  rw [makeBodyPage_eq type overflowNext hfits] at hrest
  rw [parsePage, if_neg (by omega), hslice] at hparse
  split at hparse
  · next page r hbody =>
    cases hparse
    obtain ⟨hfree, hnext⟩ := parsePageBody_links hbody
    dsimp only at hfree hnext
    rw [Nat.zero_add] at hfree hnext
    rw [@u16At_of_spelled _ 4 (kPageHeaderSize + body.length) (by simp)] at hfree
    rw [@u16At_of_spelled _ 6 overflowNext.toNat (by simp)] at hnext
    refine ⟨?_, hnext.trans UInt16.ofNat_toNat, ?_⟩
    · rw [hfree, UInt16.toNat_ofNat', Nat.mod_eq_of_lt (by omega)]
    · rw [← List.drop_drop, ← hrest, kPageHeaderSize]
      simp [List.drop_append, List.drop_eq_nil_of_le]
  · cases hparse

/-! ### Chains -/

/-- A page of a chain, and its part of the payload. -/
structure Link where
  page : UInt16
  payload : Bytes

/-- The links are pages of the store: each leads to the next one, and the last one to `stop`. -/
def StoreSpec.HasChain (spec : StoreSpec) (stop : UInt16) : List Link → Prop
  | [] => True
  | link :: links =>
    kPageHeaderSize + link.payload.length ≤ spec.pageSize.toNat ∧
      spec.pages[link.page.toNat]? = some (.raw (makeOverflowPage spec.pageSize
        ((links.head?.map Link.page).getD stop) link.payload)) ∧
      links.head?.map Link.page ≠ some kNoOverflow ∧ spec.HasChain stop links

/-- The database that the store is opened to, with the spans of its pages. -/
theorem StoreSpec.pages_of_open {spec : StoreSpec} {opts : Options} {db : Database}
    (h : openDb spec.image opts = .ok db) : parsePagesFrom spec.image spec.pageSize.toNat spec.pages.length 0 =
      .ok (deriveSpans spec.image.length db, db.pages) := by
  obtain ⟨spans, s, hstages⟩ := openDb_stages h
  have hpages := hstages.pages
  rw [hstages.deriveSpans_eq]
  rw [parsePages, spec.headerOf_image] at hpages
  dsimp only at hpages
  rwa [UInt32.toNat_ofNat', Nat.mod_eq_of_lt spec.pages_lt] at hpages

/-- A link of a chain as the walk comes by it. -/
theorem link_of_image {spec : StoreSpec} {spans : List PageSpan} {pages : List Page}
    (h : parsePagesFrom spec.image spec.pageSize.toNat spec.pages.length 0 = .ok (spans, pages))
    {link : Link} {next : UInt16} (hfits : kPageHeaderSize + link.payload.length ≤ spec.pageSize.toNat)
    (hlink : spec.pages[link.page.toNat]? = some (.raw (makeOverflowPage spec.pageSize next link.payload))) :
    ∃ page span, pages[link.page.toNat]? = some page ∧ spans[link.page.toNat]? = some span ∧
      page.overflowNext = next ∧ ∀ limits bytes, bytes.length + link.payload.length ≤ limits.maxBytes →
        appendPayload spec.image limits page span bytes = some (bytes ++ link.payload) := by
  have hk := (List.getElem?_eq_some_iff.mp hlink).1
  obtain ⟨hspan, page, hpage, hparse⟩ := StoreSpec.parsed_page h hk
  obtain ⟨hfree, hnext, hbody⟩ := parsePage_body hfits (spec.image_drop_page hlink) hparse
  refine ⟨page, _, hpage, hspan, hnext, fun limits bytes hroom => ?_⟩
  have hinside := spec.image_room hk
  have hsmall := spec.small
  have hle := Nat.mul_le_mul_right spec.pageSize.toNat (Nat.succ_le_of_lt hk)
  rw [Nat.succ_mul] at hle
  rw [appendPayload, payloadRange, hfree]
  dsimp only
  rw [if_neg (Nat.not_lt.mpr hfits), Nat.mod_eq_of_lt (by omega), Nat.mod_eq_of_lt (by omega)]
  cases hpayload : link.payload with
  | nil =>
      rw [if_neg (by simp), List.append_nil]
  | cons b bs =>
      rw [hpayload, List.length_cons] at hfits hroom hbody
      rw [List.length_cons, if_pos (by omega), if_pos (by omega)]
      dsimp only
      have hadd : kHeaderSize + link.page.toNat * spec.pageSize.toNat + (kPageHeaderSize + (bs.length + 1)) -
          (kHeaderSize + link.page.toNat * spec.pageSize.toNat + kPageHeaderSize) = bs.length + 1 := by omega
      rw [hadd, if_neg (Nat.not_lt.mpr hroom), hbody]

theorem toUInt32_injective : Function.Injective UInt16.toUInt32 := by
  intro m n h
  have hnat := congrArg UInt32.toNat h
  exact UInt16.toNat_inj.mp (by simpa using hnat)

section

variable {spec : StoreSpec} {db : Database} {spans : List PageSpan}
  (h : parsePagesFrom spec.image spec.pageSize.toNat spec.pages.length 0 = .ok (spans, db.pages))

include h

/-- One round of the walk, on a link of a chain. -/
theorem followChain_link {limits : OverflowLimits} {link : Link} {next : UInt16}
    (hfits : kPageHeaderSize + link.payload.length ≤ spec.pageSize.toNat)
    (hlink : spec.pages[link.page.toNat]? = some (.raw (makeOverflowPage spec.pageSize next link.payload)))
    {visited : List UInt16} {bytes : Bytes} (hnew : link.page ∉ visited)
    (hpages : visited.length < limits.maxPages)
    (hbytes : bytes.length + link.payload.length ≤ limits.maxBytes) (fuel : Nat) :
    followChain spec.image spans db limits (fuel + 1) link.page.toUInt32 (visited.map UInt16.toUInt32) bytes =
      if next = kNoOverflow then .ok
        { status := .kComplete
          bytes := bytes ++ link.payload
          visited := (visited ++ [link.page]).map UInt16.toUInt32 }
      else if spec.pages.length ≤ next.toNat then .ok
        { status := .kDanglingPage
          bytes := bytes ++ link.payload
          visited := (visited ++ [link.page]).map UInt16.toUInt32 }
      else followChain spec.image spans db limits fuel next.toUInt32 ((visited ++ [link.page]).map UInt16.toUInt32)
        (bytes ++ link.payload) := by
  obtain ⟨page, span, hpage, hspan, hnext, happend⟩ := link_of_image h hfits hlink
  have hspans : spans.length = spec.pages.length := by
    rw [(parsePagesFrom_spans h).1, List.length_map, List.length_range, StoreSpec.length_pages h]
  rw [followChain, if_neg ((List.mem_map_of_injective toUInt32_injective).not.mpr hnew), if_neg (by rw [List.length_map]; omega),
    UInt16.toNat_toUInt32, hpage, hspan]
  dsimp only
  rw [happend limits bytes hbytes]
  dsimp only
  rw [hnext, UInt16.toNat_toUInt32, StoreSpec.length_pages h, hspans]
  simp only [or_self, ge_iff_le, List.map_append, List.map_cons, List.map_nil]

/-- The walk goes along a chain to its end. -/
theorem followChain_links {limits : OverflowLimits} {stop : UInt16} {link : Link} {links : List Link}
    (hchain : spec.HasChain stop (link :: links)) {visited : List UInt16} {bytes : Bytes} {fuel : Nat}
    (hdistinct : (visited ++ (link :: links).map Link.page).Nodup)
    (hstop : stop = kNoOverflow ∨ stop ∈ visited ++ (link :: links).map Link.page ∨
      spec.pages.length ≤ stop.toNat)
    (hpages : visited.length + (link :: links).length ≤ limits.maxPages)
    (hbytes : bytes.length + ((link :: links).flatMap Link.payload).length ≤ limits.maxBytes)
    (hfuel : (link :: links).length < fuel) :
    followChain spec.image spans db limits fuel link.page.toUInt32 (visited.map UInt16.toUInt32) bytes = .ok
      { status :=
          if stop = kNoOverflow then .kComplete
          else if spec.pages.length ≤ stop.toNat then .kDanglingPage
          else .kCycle
        bytes := bytes ++ (link :: links).flatMap Link.payload
        visited := (visited ++ (link :: links).map Link.page).map UInt16.toUInt32 } := by
  induction links generalizing link visited bytes fuel with
  | nil =>
      obtain ⟨hfits, hlink, -, -⟩ := hchain
      change _ = some (PageSpec.raw (makeOverflowPage spec.pageSize stop link.payload)) at hlink
      obtain ⟨fuel, rfl⟩ : ∃ n, fuel = n + 2 := ⟨fuel - 2, by simp at hfuel; omega⟩
      have hnew : link.page ∉ visited := fun hmem =>
        List.disjoint_of_nodup_append hdistinct hmem (List.mem_cons_self ..)
      rw [List.flatMap_singleton, List.length_singleton] at *
      rw [followChain_link h hfits hlink hnew (by omega) hbytes]
      by_cases hend : stop = kNoOverflow
      · rw [if_pos hend, if_pos hend]
        rfl
      · rw [if_neg hend, if_neg hend]
        by_cases hout : spec.pages.length ≤ stop.toNat
        · rw [if_pos hout, if_pos hout]
          rfl
        · have hmem : stop ∈ visited ++ [link.page] := by
            rcases hstop with hstop | hstop | hstop
            · exact absurd hstop hend
            · exact hstop
            · exact absurd hstop hout
          rw [if_neg hout, if_neg hout, followChain, if_pos ((List.mem_map_of_injective toUInt32_injective).mpr hmem)]
          rfl
  | cons next links ih =>
      obtain ⟨hfits, hlink, hmore, hrest⟩ := hchain
      obtain ⟨fuel, rfl⟩ : ∃ n, fuel = n + 1 := ⟨fuel - 1, by simp at hfuel; omega⟩
      have hnew : link.page ∉ visited := fun hmem =>
        List.disjoint_of_nodup_append hdistinct hmem (List.mem_cons_self ..)
      have hnext : next.page.toNat < spec.pages.length := (List.getElem?_eq_some_iff.mp hrest.2.1).1
      have happend : visited ++ (link :: next :: links).map Link.page =
          visited ++ [link.page] ++ (next :: links).map Link.page := by simp
      rw [List.flatMap_cons, List.length_append] at hbytes
      rw [List.length_cons] at hpages hfuel
      rw [happend] at hdistinct hstop ⊢
      rw [followChain_link h hfits hlink hnew (by omega) (by omega), List.head?_cons, Option.map_some,
        Option.getD_some, if_neg fun heq => hmore (by rw [List.head?_cons, Option.map_some, heq]),
        if_neg (Nat.not_le.mpr hnext), ih hrest hdistinct hstop
          (by rw [List.length_append, List.length_singleton]; omega)
          (by rw [List.length_append]; omega) (by omega), List.append_assoc]
      rfl

theorem links_inRange {stop : UInt16} {links : List Link} (hchain : spec.HasChain stop links) :
    ∀ i ∈ (links.map Link.page).map UInt16.toUInt32, InRange spans db i := by
  have hspans : spans.length = spec.pages.length := by
    rw [(parsePagesFrom_spans h).1, List.length_map, List.length_range, StoreSpec.length_pages h]
  induction links with
  | nil => exact nofun
  | cons link links ih =>
      have hpage := (List.getElem?_eq_some_iff.mp hchain.2.1).1
      refine List.forall_mem_cons.mpr ⟨?_, ih hchain.2.2.2⟩
      rw [InRange, UInt16.toNat_toUInt32, StoreSpec.length_pages h, hspans]
      exact ⟨hpage, hpage⟩

end

/-- A payload that is spread over overflow pages of a store, in any order of the pages, is put together
again from the opened file. The walk is complete if the last link ends the chain, says so if it leads back
into the chain or outside the file, and has the whole payload in each case. -/
theorem reconstruct_chain (spec : StoreSpec) (opts : Options) {limits : OverflowLimits} {stop : UInt16}
    {link : Link} {links : List Link} (hchain : spec.HasChain stop (link :: links))
    (hdistinct : ((link :: links).map Link.page).Nodup)
    (hstop : stop = kNoOverflow ∨ stop ∈ (link :: links).map Link.page ∨ spec.pages.length ≤ stop.toNat)
    (hpages : (link :: links).length ≤ limits.maxPages)
    (hbytes : ((link :: links).flatMap Link.payload).length ≤ limits.maxBytes) :
    ∃ db, openDb spec.image opts = .ok db ∧
      reconstructOverflowOf spec.image db link.page.toUInt32 limits = .ok
        { status :=
            if stop = kNoOverflow then .kComplete
            else if spec.pages.length ≤ stop.toNat then .kDanglingPage
            else .kCycle
          bytes := (link :: links).flatMap Link.payload
          visited := ((link :: links).map Link.page).map UInt16.toUInt32 } := by
  obtain ⟨db, hopen, -⟩ := spec.openDb_rows opts
  have hparsed := StoreSpec.pages_of_open hopen
  have hrange := links_inRange hparsed hchain
  have hcount := length_le_pages (hdistinct.map toUInt32_injective) hrange
  rw [List.length_map, List.length_map] at hcount
  have hstart := hrange link.page.toUInt32 (by simp)
  have hwalk := @followChain_links _ _ _ hparsed limits stop link links hchain [] [] (db.pages.length + 1)
    hdistinct hstop (by rwa [List.length_nil, Nat.zero_add]) (by rwa [List.length_nil, Nat.zero_add])
    (Nat.lt_succ_of_le hcount)
  refine ⟨db, hopen, ?_⟩
  rw [reconstructOverflowOf, reconstructOverflow, if_neg]
  · exact hwalk
  · exact fun hout => hout.elim (Nat.not_le.mpr hstart.1) (Nat.not_le.mpr hstart.2)

/-- Two pages, the second of which leads to the first. -/
def chainStore : StoreSpec where
  pageSize := 64
  pages := [.raw (makeOverflowPage 64 kNoOverflow (ascii "de")), .raw (makeOverflowPage 64 0 (ascii "abc"))]
  sized := by decide
  fits := by
    intro page hpage
    rcases List.mem_pair.mp hpage with rfl | rfl
    · exact ⟨by decide +kernel, by decide +kernel⟩
    · exact ⟨by decide +kernel, by decide +kernel⟩
  small := by decide

theorem reconstruct_chain_backwards : ∃ db, openDb chainStore.image {} = .ok db ∧
    reconstructOverflowOf chainStore.image db 1 {} = .ok
      { status := .kComplete, bytes := ascii "abcde", visited := [1, 0] } :=
  @reconstruct_chain chainStore {} {} kNoOverflow ⟨1, ascii "abc"⟩ [⟨0, ascii "de"⟩]
    ⟨by decide, rfl, by decide, by decide, rfl, nofun, trivial⟩ (by decide) (.inl rfl) (by decide) (by decide)

end Bytewright.Minidb
