import Mathlib.Data.List.Chain
import Mathlib.Data.List.Nodup
import Mathlib.Data.List.Perm.Subperm
import Bytewright.Model.Minidb.Overflow
import Bytewright.Verification.Minidb.Pages

/-! # Overflow chains -/

namespace Bytewright.Minidb

open Bytewright.Common

/-! ### Links and payloads -/

/-- The `overflow_next` of page `i` is `j`. -/
def LinksTo (db : Database) (i j : UInt32) : Prop :=
  ∃ page, db.pages[i.toNat]? = some page ∧ page.overflowNext ≠ kNoOverflow ∧
    page.overflowNext.toUInt32 = j

/-- The `overflow_next` of page `i` is 0xFFFF. -/
def EndsChain (db : Database) (i : UInt32) : Prop :=
  ∃ page, db.pages[i.toNat]? = some page ∧ page.overflowNext = kNoOverflow

def InRange (spans : List PageSpan) (db : Database) (i : UInt32) : Prop :=
  i.toNat < db.pages.length ∧ i.toNat < spans.length

/-- The payload of page `i`, clamped to the bytes that exist for it. -/
def payloadOf (data : Bytes) (spans : List PageSpan) (db : Database) (i : UInt32) : Bytes :=
  match db.pages[i.toNat]?, spans[i.toNat]? with
  | some page, some span =>
    match payloadRange data.length page span with
    | none => []
    | some (absStart, absEnd) => (data.drop absStart).take (absEnd - absStart)
  | _, _ => []

variable {data : Bytes} {spans : List PageSpan} {db : Database} {limits : OverflowLimits}

theorem InRange.page {i : UInt32} (h : InRange spans db i) : ∃ page, db.pages[i.toNat]? = some page :=
  ⟨_, List.getElem?_eq_getElem h.1⟩

theorem InRange.span {i : UInt32} (h : InRange spans db i) : ∃ span, spans[i.toNat]? = some span :=
  ⟨_, List.getElem?_eq_getElem h.2⟩

theorem LinksTo.unique {i j k : UInt32} (h : LinksTo db i j) (h' : LinksTo db i k) : j = k := by
  rcases h with ⟨page, hpage, -, rfl⟩
  rcases h' with ⟨page', hpage', -, rfl⟩
  rw [hpage] at hpage'
  cases hpage'
  rfl

theorem EndsChain.not_linksTo {i j : UInt32} (h : EndsChain db i) : ¬ LinksTo db i j := by
  rcases h with ⟨page, hpage, hnone⟩
  rintro ⟨page', hpage', hsome, -⟩
  rw [hpage] at hpage'
  cases hpage'
  exact hsome hnone

theorem payloadRange_le {size absStart absEnd : Nat} {page : Page} {span : PageSpan}
    (h : payloadRange size page span = some (absStart, absEnd)) : absStart ≤ absEnd ∧ absEnd ≤ size := by
  rw [payloadRange] at h
  dsimp only at h
  generalize (if page.freeStart.toNat > span.length then span.length else page.freeStart.toNat) =
    payloadEnd at h
  split at h
  · split at h
    · next hinside =>
      cases h
      exact ⟨hinside.2.2, hinside.2.1⟩
    · cases h
  · cases h

/-- A span inside the buffer: the payload is the bytes behind the page header, up to `free_start` or the
end of the span. -/
theorem payloadOf_of_inside {i : UInt32} {page : Page} {span : PageSpan}
    (hpage : db.pages[i.toNat]? = some page) (hspan : spans[i.toNat]? = some span)
    (hinside : span.fileOffset + span.length ≤ data.length) (hsize : data.length < 2 ^ 64) :
    payloadOf data spans db i = (data.drop (span.fileOffset + kPageHeaderSize)).take
      (min page.freeStart.toNat span.length - kPageHeaderSize) := by
  have hend : (if page.freeStart.toNat > span.length then span.length else page.freeStart.toNat) =
      min page.freeStart.toNat span.length := by
    split <;> omega
  simp only [payloadOf, hpage, hspan, payloadRange, hend]
  by_cases hsome : min page.freeStart.toNat span.length > kPageHeaderSize ∧ span.length > kPageHeaderSize
  · have hstart : (span.fileOffset + kPageHeaderSize) % 2 ^ 64 = span.fileOffset + kPageHeaderSize :=
      Nat.mod_eq_of_lt (by omega)
    have hstop : (span.fileOffset + min page.freeStart.toNat span.length) % 2 ^ 64 =
        span.fileOffset + min page.freeStart.toNat span.length := Nat.mod_eq_of_lt (by omega)
    have hadd : span.fileOffset + min page.freeStart.toNat span.length -
        (span.fileOffset + kPageHeaderSize) = min page.freeStart.toNat span.length - kPageHeaderSize := by
      omega
    rw [if_pos hsome, hstart, hstop, if_pos ⟨by omega, by omega, by omega⟩]
    dsimp only
    rw [hadd]
  · have hzero : min page.freeStart.toNat span.length - kPageHeaderSize = 0 := by omega
    rw [if_neg hsome, hzero, List.take_zero]

theorem appendPayload_eq {i : UInt32} {page : Page} {span : PageSpan} {bytes : Bytes}
    (hpage : db.pages[i.toNat]? = some page) (hspan : spans[i.toNat]? = some span)
    (hbytes : bytes.length ≤ limits.maxBytes) : appendPayload data limits page span bytes =
      if bytes.length + (payloadOf data spans db i).length > limits.maxBytes then none
      else some (bytes ++ payloadOf data spans db i) := by
  simp only [appendPayload, payloadOf, hpage, hspan]
  cases hrange : payloadRange data.length page span with
  | none => simp [hbytes]
  | some range =>
      rcases range with ⟨absStart, absEnd⟩
      have hle := payloadRange_le hrange
      have hlen : ((data.drop absStart).take (absEnd - absStart)).length = absEnd - absStart := by
        rw [List.length_take, List.length_drop]
        omega
      simp only [hlen]

/-! ### The walk -/

/-- Page `i` can be visited next. -/
structure Visitable (data : Bytes) (spans : List PageSpan) (db : Database) (limits : OverflowLimits)
    (i : UInt32) (visited : List UInt32) (bytes : Bytes) : Prop where
  unseen : i ∉ visited
  room : visited.length < limits.maxPages
  fits : bytes.length + (payloadOf data spans db i).length ≤ limits.maxBytes

/-- The walk that has come to page `i` and ends with a result. -/
inductive Walk (data : Bytes) (spans : List PageSpan) (db : Database) (limits : OverflowLimits) :
    UInt32 → List UInt32 → Bytes → OverflowResult → Prop where
  | cycle {i : UInt32} {visited : List UInt32} {bytes : Bytes} (seen : i ∈ visited) :
      Walk data spans db limits i visited bytes { status := .kCycle, bytes, visited }
  | pageLimit {i : UInt32} {visited : List UInt32} {bytes : Bytes} (unseen : i ∉ visited)
      (full : limits.maxPages ≤ visited.length) :
      Walk data spans db limits i visited bytes { status := .kPageLimit, bytes, visited }
  | lengthLimit {i : UInt32} {visited : List UInt32} {bytes : Bytes} (unseen : i ∉ visited)
      (room : visited.length < limits.maxPages)
      (long : limits.maxBytes < bytes.length + (payloadOf data spans db i).length) :
      Walk data spans db limits i visited bytes
        { status := .kLengthLimit, bytes, visited := visited ++ [i] }
  | complete {i : UInt32} {visited : List UInt32} {bytes : Bytes}
      (visit : Visitable data spans db limits i visited bytes) (stop : EndsChain db i) :
      Walk data spans db limits i visited bytes
        { status := .kComplete, bytes := bytes ++ payloadOf data spans db i, visited := visited ++ [i] }
  | dangling {i j : UInt32} {visited : List UInt32} {bytes : Bytes}
      (visit : Visitable data spans db limits i visited bytes) (link : LinksTo db i j)
      (outside : ¬ InRange spans db j) :
      Walk data spans db limits i visited bytes
        { status := .kDanglingPage, bytes := bytes ++ payloadOf data spans db i,
          visited := visited ++ [i] }
  | next {i j : UInt32} {visited : List UInt32} {bytes : Bytes} {r : OverflowResult}
      (visit : Visitable data spans db limits i visited bytes) (link : LinksTo db i j)
      (inside : InRange spans db j)
      (rest : Walk data spans db limits j (visited ++ [i]) (bytes ++ payloadOf data spans db i) r) :
      Walk data spans db limits i visited bytes r

/-- There are no more pages to visit than pages. -/
theorem length_le_pages {visited : List UInt32} (hnodup : visited.Nodup)
    (hrange : ∀ i ∈ visited, InRange spans db i) : visited.length ≤ db.pages.length := by
  have hsub : visited.map UInt32.toNat ⊆ List.range db.pages.length := by
    intro k hk
    rcases List.mem_map.mp hk with ⟨i, hi, rfl⟩
    exact List.mem_range.mpr (hrange i hi).1
  have hmap : (visited.map UInt32.toNat).Nodup :=
    List.Nodup.map (fun i j => UInt32.toNat_inj.mp) hnodup
  simpa using (List.subperm_of_subset hmap hsub).length_le

theorem nodup_snoc {i : UInt32} {visited : List UInt32} (hnodup : visited.Nodup) (hi : i ∉ visited) :
    (visited ++ [i]).Nodup := by
  rw [← List.concat_eq_append]
  exact List.Nodup.concat hi hnodup

theorem followChain_walk (data : Bytes) (limits : OverflowLimits) {fuel : Nat} {i : UInt32} {visited : List UInt32} {bytes : Bytes}
    (hi : InRange spans db i) (hnodup : visited.Nodup) (hrange : ∀ k ∈ visited, InRange spans db k)
    (hbytes : bytes.length ≤ limits.maxBytes) (hfuel : db.pages.length < visited.length + fuel) :
    ∃ r, followChain data spans db limits fuel i visited bytes = .ok r ∧
      Walk data spans db limits i visited bytes r := by
  induction fuel generalizing i visited bytes with
  | zero =>
      have hle := length_le_pages hnodup hrange
      omega
  | succ fuel ih =>
      rcases hi.page with ⟨page, hpage⟩
      rcases hi.span with ⟨span, hspan⟩
      rw [followChain]
      by_cases hseen : i ∈ visited
      · rw [if_pos hseen]
        exact ⟨_, rfl, .cycle hseen⟩
      · rw [if_neg hseen]
        by_cases hfull : visited.length ≥ limits.maxPages
        · rw [if_pos hfull]
          exact ⟨_, rfl, .pageLimit hseen hfull⟩
        · have hroom : visited.length < limits.maxPages := Nat.lt_of_not_le hfull
          rw [if_neg hfull, hpage, hspan]
          dsimp only
          rw [appendPayload_eq hpage hspan hbytes]
          by_cases hlong : bytes.length + (payloadOf data spans db i).length > limits.maxBytes
          · rw [if_pos hlong]
            exact ⟨_, rfl, .lengthLimit hseen hroom hlong⟩
          · have hvisit : Visitable data spans db limits i visited bytes :=
              ⟨hseen, hroom, Nat.le_of_not_lt hlong⟩
            rw [if_neg hlong]
            dsimp only
            by_cases hstop : page.overflowNext = kNoOverflow
            · rw [if_pos hstop]
              exact ⟨_, rfl, .complete hvisit ⟨_, hpage, hstop⟩⟩
            · have hlink : LinksTo db i page.overflowNext.toUInt32 :=
                ⟨_, hpage, hstop, rfl⟩
              rw [if_neg hstop]
              split
              · next hout =>
                exact ⟨_, rfl, .dangling hvisit hlink fun hin => by
                  have hlt := hin.1
                  have hlt' := hin.2
                  omega⟩
              · next hin =>
                have hinside : InRange spans db page.overflowNext.toUInt32 :=
                  ⟨by omega, by omega⟩
                have hnodup' : (visited ++ [i]).Nodup := nodup_snoc hnodup hseen
                have hrange' : ∀ k ∈ visited ++ [i], InRange spans db k := by
                  intro k hk
                  rcases List.mem_append.mp hk with hk | hk
                  · exact hrange k hk
                  · rwa [List.mem_singleton.mp hk]
                rcases ih hinside hnodup' hrange' (by rw [List.length_append]; exact hvisit.fits)
                  (by rw [List.length_append, List.length_singleton]; omega) with ⟨r, hrun, hwalk⟩
                exact ⟨r, hrun, .next hvisit hlink hinside hwalk⟩

/-! ### What a walk leaves behind -/

namespace Walk

variable {i start : UInt32} {visited : List UInt32} {bytes : Bytes} {r : OverflowResult}

theorem distinct (h : Walk data spans db limits i visited bytes r) (hnodup : visited.Nodup) :
    r.visited.Nodup := by
  induction h with
  | cycle | pageLimit => exact hnodup
  | lengthLimit unseen => exact nodup_snoc hnodup unseen
  | complete visit | dangling visit => exact nodup_snoc hnodup visit.unseen
  | next visit _ _ _ ih => exact ih (nodup_snoc hnodup visit.unseen)

theorem inRange (h : Walk data spans db limits i visited bytes r)
    (hrange : ∀ k ∈ visited ++ [i], InRange spans db k) : ∀ k ∈ r.visited, InRange spans db k := by
  induction h with
  | cycle | pageLimit => exact fun k hk => hrange k (List.mem_append_left _ hk)
  | lengthLimit | complete | dangling => exact hrange
  | next _ _ inside _ ih =>
      apply ih
      intro k hk
      rcases List.mem_append.mp hk with hk | hk
      · exact hrange k hk
      · rwa [List.mem_singleton.mp hk]

/-- The pages visited are linked, and so is the one that comes next. -/
theorem linked (h : Walk data spans db limits i visited bytes r)
    (hlinked : (visited ++ [i]).IsChain (LinksTo db)) : r.visited.IsChain (LinksTo db) := by
  induction h with
  | cycle | pageLimit => exact hlinked.left_of_append
  | lengthLimit | complete | dangling => exact hlinked
  | next _ link _ _ ih =>
      apply ih
      rw [List.append_assoc]
      exact List.isChain_append_cons_cons.mpr ⟨hlinked, link, .singleton _⟩

theorem starts (h : Walk data spans db limits i visited bytes r)
    (hstart : (visited ++ [i]).head? = some start) : ∀ k, r.visited.head? = some k → k = start := by
  induction h with
  | cycle | pageLimit =>
      intro k hk
      rw [List.head?_append, hk] at hstart
      exact Option.some.inj hstart
  | lengthLimit | complete | dangling =>
      intro k hk
      rw [hk] at hstart
      exact Option.some.inj hstart
  | next _ _ _ _ ih =>
      apply ih
      rw [List.head?_append, hstart]
      rfl

theorem pages_le (h : Walk data spans db limits i visited bytes r)
    (hle : visited.length ≤ limits.maxPages) : r.visited.length ≤ limits.maxPages := by
  induction h with
  | cycle | pageLimit => exact hle
  | lengthLimit _ room =>
      rw [List.length_append, List.length_singleton]
      exact room
  | complete visit | dangling visit =>
      rw [List.length_append, List.length_singleton]
      exact visit.room
  | next visit _ _ _ ih =>
      apply ih
      rw [List.length_append, List.length_singleton]
      exact visit.room

theorem bytes_le (h : Walk data spans db limits i visited bytes r)
    (hle : bytes.length ≤ limits.maxBytes) : r.bytes.length ≤ limits.maxBytes := by
  induction h with
  | cycle | pageLimit | lengthLimit => exact hle
  | complete visit | dangling visit =>
      rw [List.length_append]
      exact visit.fits
  | next visit _ _ _ ih =>
      apply ih
      rw [List.length_append]
      exact visit.fits

/-- The bytes are the payloads of the pages visited, except the one that would take them too far. -/
theorem bytes_eq (h : Walk data spans db limits i visited bytes r)
    (hbytes : bytes = visited.flatMap (payloadOf data spans db)) : r.bytes =
      (if r.status = .kLengthLimit then r.visited.dropLast else r.visited).flatMap
        (payloadOf data spans db) := by
  induction h with
  | cycle | pageLimit => simp [hbytes]
  | lengthLimit => simp [hbytes]
  | complete | dangling => simp [hbytes]
  | next _ _ _ _ ih => exact ih (by simp [hbytes])

theorem complete_stops (h : Walk data spans db limits i visited bytes r) (hstatus : r.status = .kComplete) :
    ∃ last, r.visited.getLast? = some last ∧ EndsChain db last := by
  induction h with
  | cycle | pageLimit | lengthLimit | dangling => cases hstatus
  | @complete i visited bytes _ stop => exact ⟨i, by simp, stop⟩
  | next _ _ _ _ ih => exact ih hstatus

theorem cycle_returns (h : Walk data spans db limits i visited bytes r)
    (hlinked : (visited ++ [i]).IsChain (LinksTo db)) (hstatus : r.status = .kCycle) :
    ∃ last j, r.visited.getLast? = some last ∧ LinksTo db last j ∧ j ∈ r.visited := by
  induction h with
  | pageLimit | lengthLimit | complete | dangling => cases hstatus
  | @cycle i visited bytes seen =>
      rcases List.eq_nil_or_concat visited with rfl | ⟨front, last, rfl⟩
      · cases seen
      · rw [List.concat_eq_append, List.append_assoc] at hlinked
        exact ⟨last, i, by simp, (List.isChain_append_cons_cons.mp hlinked).2.1, seen⟩
  | next _ link _ _ ih =>
      refine ih ?_ hstatus
      rw [List.append_assoc]
      exact List.isChain_append_cons_cons.mpr ⟨hlinked, link, .singleton _⟩

theorem dangling_leaves (h : Walk data spans db limits i visited bytes r)
    (hstatus : r.status = .kDanglingPage) :
    ∃ last j, r.visited.getLast? = some last ∧ LinksTo db last j ∧ ¬ InRange spans db j := by
  induction h with
  | cycle | pageLimit | lengthLimit | complete => cases hstatus
  | @dangling i j visited bytes _ link outside => exact ⟨i, j, by simp, link, outside⟩
  | next _ _ _ _ ih => exact ih hstatus

end Walk

/-! ### Chains that are complete -/

/-- Following `overflow_next` from the start reaches 0xFFFF through these pages, within the limits. -/
structure ReachesEnd (data : Bytes) (spans : List PageSpan) (db : Database) (limits : OverflowLimits)
    (start : UInt32) (chain : List UInt32) : Prop where
  starts : chain.head? = some start
  linked : chain.IsChain (LinksTo db)
  stops : ∃ last, chain.getLast? = some last ∧ EndsChain db last
  distinct : chain.Nodup
  inRange : ∀ i ∈ chain, InRange spans db i
  pages : chain.length ≤ limits.maxPages
  bytes : (chain.flatMap (payloadOf data spans db)).length ≤ limits.maxBytes

/-- A walk along such a chain goes on to its end. -/
theorem ReachesEnd.walk {start i : UInt32} {visited rest : List UInt32} {bytes : Bytes}
    {r : OverflowResult} (h : ReachesEnd data spans db limits start (visited ++ i :: rest))
    (hbytes : bytes = visited.flatMap (payloadOf data spans db))
    (hwalk : Walk data spans db limits i visited bytes r) : r.status = .kComplete := by
  have hpages := h.pages
  have hfits := h.bytes
  induction hwalk generalizing rest with
  | cycle seen =>
      have hdisjoint := List.disjoint_of_nodup_append h.distinct
      exact absurd List.mem_cons_self (hdisjoint seen)
  | pageLimit _ full =>
      rw [List.length_append, List.length_cons] at hpages
      omega
  | lengthLimit _ _ long =>
      rw [List.flatMap_append, List.flatMap_cons, List.length_append, List.length_append, ← hbytes] at hfits
      omega
  | complete => rfl
  | @dangling i j visited bytes _ link outside =>
      cases rest with
      | nil =>
          rcases h.stops with ⟨last, hlast, hstop⟩
          obtain rfl : i = last := by simpa using hlast
          exact absurd link hstop.not_linksTo
      | cons k rest =>
          obtain rfl : j = k := link.unique (List.isChain_append_cons_cons.mp h.linked).2.1
          exact absurd (h.inRange j (by simp)) outside
  | @next i j visited bytes r _ link _ _ ih =>
      cases rest with
      | nil =>
          rcases h.stops with ⟨last, hlast, hstop⟩
          obtain rfl : i = last := by simpa using hlast
          exact absurd link hstop.not_linksTo
      | cons k rest =>
          obtain rfl : j = k := link.unique (List.isChain_append_cons_cons.mp h.linked).2.1
          have happend : visited ++ i :: j :: rest = visited ++ [i] ++ j :: rest := by simp
          rw [happend] at h hpages hfits
          exact ih h (by simp [hbytes]) hpages hfits

/-! ### The reconstruction -/

/-- What the reconstruction promises of its result. -/
structure Reconstructs (data : Bytes) (spans : List PageSpan) (db : Database) (limits : OverflowLimits)
    (start : UInt32) (r : OverflowResult) : Prop where
  distinct : r.visited.Nodup
  starts : ∀ i, r.visited.head? = some i → i = start
  linked : r.visited.IsChain (LinksTo db)
  inRange : ∀ i ∈ r.visited, InRange spans db i
  pages : r.visited.length ≤ limits.maxPages
  length : r.bytes.length ≤ limits.maxBytes
  bytes : r.bytes = (if r.status = .kLengthLimit then r.visited.dropLast else r.visited).flatMap
    (payloadOf data spans db)
  complete : r.status = .kComplete ↔ ∃ chain, ReachesEnd data spans db limits start chain
  cycle : r.status = .kCycle →
    ∃ last j, r.visited.getLast? = some last ∧ LinksTo db last j ∧ j ∈ r.visited
  dangling : r.status = .kDanglingPage →
    ∃ last j, r.visited.getLast? = some last ∧ LinksTo db last j ∧ ¬ InRange spans db j

theorem Walk.reconstructs {start : UInt32} {r : OverflowResult} (hstart : InRange spans db start)
    (h : Walk data spans db limits start [] [] r) : Reconstructs data spans db limits start r where
  distinct := h.distinct .nil
  starts := h.starts rfl
  linked := h.linked (.singleton _)
  inRange := h.inRange (by simpa using hstart)
  pages := h.pages_le (Nat.zero_le _)
  length := h.bytes_le (Nat.zero_le _)
  bytes := h.bytes_eq rfl
  complete := by
    constructor
    · intro hstatus
      rcases h.complete_stops hstatus with ⟨last, hlast, hstop⟩
      have hbytes := h.bytes_eq rfl
      rw [hstatus, if_neg nofun] at hbytes
      refine ⟨r.visited, ?_, h.linked (.singleton _), ⟨last, hlast, hstop⟩, h.distinct .nil,
        h.inRange (by simpa using hstart), h.pages_le (Nat.zero_le _), ?_⟩
      · cases hhead : r.visited.head? with
        | none =>
            rw [List.head?_eq_none_iff.mp hhead] at hlast
            cases hlast
        | some i => rw [h.starts rfl i hhead]
      · rw [← hbytes]
        exact h.bytes_le (Nat.zero_le _)
    · rintro ⟨chain, hchain⟩
      rcases List.head?_eq_some_iff.mp hchain.starts with ⟨rest, rfl⟩
      exact @ReachesEnd.walk _ _ _ _ _ _ [] rest _ _ hchain rfl h
  cycle := h.cycle_returns (.singleton _)
  dangling := h.dangling_leaves

/-- A start outside the page array: nothing is visited, and no chain starts there. -/
theorem reconstructs_badStart {start : UInt32} (hstart : ¬ InRange spans db start) :
    Reconstructs data spans db limits start { status := .kBadStart } where
  distinct := .nil
  starts := nofun
  linked := .nil
  inRange := nofun
  pages := Nat.zero_le _
  length := Nat.zero_le _
  bytes := rfl
  complete := by
    constructor
    · nofun
    · rintro ⟨chain, hchain⟩
      exact absurd (hchain.inRange start (List.mem_of_head? hchain.starts)) hstart
  cycle := nofun
  dangling := nofun

/-- The walk always comes to an end, and its result is as promised. -/
theorem reconstructOverflow_ok (data : Bytes) (spans : List PageSpan) (db : Database) (start : UInt32)
    (limits : OverflowLimits) : ∃ r, reconstructOverflow data spans db start limits = .ok r ∧
      Reconstructs data spans db limits start r := by
  rw [reconstructOverflow]
  split
  · next hout => exact ⟨_, rfl, reconstructs_badStart fun hin => by
      have hlt := hin.1
      have hlt' := hin.2
      omega⟩
  · next hin =>
    have hstart : InRange spans db start := ⟨by omega, by omega⟩
    have hfuel : db.pages.length < ([] : List UInt32).length + (db.pages.length + 1) := by simp
    have hempty : ([] : Bytes).length ≤ limits.maxBytes := Nat.zero_le _
    rcases followChain_walk data limits hstart .nil nofun hempty hfuel with ⟨r, hrun, hwalk⟩
    exact ⟨r, hrun, hwalk.reconstructs hstart⟩

/-! ### The spans of a database -/

/-- No offset of a page, nor its end, comes near the limit of `std::size_t`. -/
theorem pageOffset_lt {pageSize : Nat} (hsize : pageSize ≤ 8192) (i : UInt32) :
    kHeaderSize + i.toNat * pageSize + pageSize < 2 ^ 64 := by
  have hi := i.toNat_lt
  have hmul : i.toNat * pageSize ≤ 2 ^ 32 * 8192 := Nat.mul_le_mul hi.le hsize
  have hheader : kHeaderSize = 32 := rfl
  omega

theorem Stages.deriveSpans_eq {opts : Options} {s : ReplayState} (h : Stages data opts spans s db) :
    deriveSpans data.length db = spans := by
  have hsize := h.pageSize_le
  have hpages := h.pages
  rw [parsePages, ← h.pageSize, ← h.pageCount] at hpages
  rcases parsePagesFrom_spans hpages with ⟨rfl, hle, hbelow⟩
  apply List.map_congr_left
  intro k hk
  rw [List.mem_range] at hk
  have hlt := hbelow k hk
  rw [Nat.zero_add] at hlt ⊢
  have hcount := db.pageCount.toNat_lt
  have hoffset := pageOffset_lt hsize (UInt32.ofNat k)
  rw [UInt32.toNat_ofNat', Nat.mod_eq_of_lt (by omega)] at hoffset
  dsimp only
  rw [Nat.mod_eq_of_lt (by omega), spanAt]
  split
  · next hnone =>
    congr 1
    rcases hnone with hend | hzero
    · omega
    · rw [hzero]
      exact (Nat.min_zero _).symm
  · congr 1
    split <;> omega

/-- The spans taken off a database are those its pages were parsed with, so that both overloads do the
same, and no offset of a page overflows. -/
theorem openDb_deriveSpans {opts : Options} (h : openDb data opts = .ok db) :
    ∃ hdr r spans, parseHeader opts.strict { data } = .ok hdr r ∧
      parsePages data hdr = .ok (spans, db.pages) ∧ deriveSpans data.length db = spans ∧
      (∀ start limits, reconstructOverflowOf data db start limits =
        reconstructOverflow data spans db start limits) ∧
      ∀ i : UInt32, kHeaderSize + i.toNat * db.pageSize.toNat + db.pageSize.toNat < 2 ^ 64 := by
  rcases openDb_stages h with ⟨spans, s, hstages⟩
  rcases hstages.header with ⟨r, hheader⟩
  have hspans := hstages.deriveSpans_eq
  refine ⟨headerOf data, r, spans, hheader, hstages.pages, hspans, fun start limits => ?_,
    pageOffset_lt hstages.pageSize_le⟩
  rw [reconstructOverflowOf, hspans]

/-- A chain of two pages, the second of which is cut off. -/
def cutChain : Bytes :=
  ascii "MDB1" ++ [1, 0, 64, 0] ++ [2, 0, 0, 0] ++ [0, 0, 0, 0] ++ [0xFF, 0xFF, 0xFF, 0xFF] ++
    [0, 0, 0, 0] ++ [0, 0, 0, 0] ++ [0, 0, 0, 0] ++
    ([4, 0, 0, 0, 10, 0, 1, 0] ++ ascii "ab" ++ List.replicate 54 0) ++
    ([4, 0, 0, 0, 64, 0, 0xFF, 0xFF] ++ ascii "cde")

theorem openDb_deriveSpans_cutChain : ∃ db, openDb cutChain {} = .ok db ∧
    ∃ hdr r spans, parseHeader false { data := cutChain } = .ok hdr r ∧
      parsePages cutChain hdr = .ok (spans, db.pages) ∧ deriveSpans cutChain.length db = spans ∧
      (∀ start limits, reconstructOverflowOf cutChain db start limits =
        reconstructOverflow cutChain spans db start limits) ∧
      ∀ i : UInt32, kHeaderSize + i.toNat * db.pageSize.toNat + db.pageSize.toNat < 2 ^ 64 := by
  have hok : (openDb cutChain {}).isOk = true := by decide +kernel
  cases hopen : openDb cutChain {} with
  | error e =>
      rw [hopen] at hok
      cases hok
  | ok db => exact ⟨db, rfl, openDb_deriveSpans hopen⟩

example : (do reconstructOverflowOf cutChain (← openDb cutChain {}) 0) =
    .ok { status := .kComplete, bytes := ascii "abcde", visited := [0, 1] } := by
  decide +kernel

end Bytewright.Minidb
