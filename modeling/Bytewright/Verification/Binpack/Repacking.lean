import Mathlib.Algebra.Order.BigOperators.Group.List
import Bytewright.Verification.Binpack.Reencoding
import Bytewright.Verification.Binpack.RoundTrip

/-! # A container built anew from what was parsed -/

namespace Bytewright.Binpack

open Bytewright.Common Bytewright.Library

/-! ### Handing a container to the builder -/

def SectionContent.toSpec (s : SectionContent) : SectionSpec :=
  { type := s.type, id := s.id, flags := s.flags, itemCount := s.itemCount
    records := s.records.map Record.toSpec }

/-- The calls that put a section into the builder. -/
def Builder.addContent (b : Builder) (s : SectionContent) : Builder :=
  (s.records.foldl (fun b rec => b.addRecord rec.toSpec) (b.addSection s.type s.id s.flags)).setItemCount
    s.itemCount

theorem parallel_nil : ([] : List Bool).length = ([] : List SectionSpec).length := rfl

/-- The builder to which the sections of a container were given. -/
def Container.rebuild (c : Container) : Builder :=
  (c.sections.map Section.content).foldl Builder.addContent
    { hasMetadata := c.hasMetadata, hasTrailerCrc := c.hasTrailerCrc, parallel := parallel_nil }

theorem modify_back {α : Type} (xs : List α) (x : α) (f : α → α) :
    (xs ++ [x]).modify ((xs ++ [x]).length - 1) f = xs ++ [f x] := by
  induction xs with
  | nil => rfl
  | cons head xs ih => simpa using ih

namespace Builder

/-- The settings, which calls for sections leave alone. -/
def settings (b : Builder) : UInt16 × Bool × Bool := (b.version, b.hasMetadata, b.hasTrailerCrc)

theorem sections_updateBack {b : Builder} {front : List SectionSpec} {s : SectionSpec}
    (hb : b.sections = front ++ [s]) (f : SectionSpec → SectionSpec) :
    (b.updateBack f).sections = front ++ [f s] := by
  change b.sections.modify (b.sections.length - 1) f = _
  rw [hb, modify_back]

theorem foldl_addRecord {b : Builder} {front : List SectionSpec} {s : SectionSpec}
    (hb : b.sections = front ++ [s]) (recs : List Record) :
    let b' := recs.foldl (fun b rec => b.addRecord rec.toSpec) b
    b'.settings = b.settings ∧ b'.itemCountExplicit = b.itemCountExplicit ∧
      b'.sections = front ++ [{ s with records := s.records ++ recs.map Record.toSpec }] := by
  induction recs generalizing b s with
  | nil => simpa using hb
  | cons rec recs ih =>
      have hadd := sections_updateBack hb fun s => { s with records := s.records ++ [rec.toSpec] }
      rcases ih hadd with ⟨hsettings, hexplicit, hsections⟩
      refine ⟨hsettings, hexplicit, ?_⟩
      rw [List.append_assoc] at hsections
      exact hsections

theorem addContent_spec (b : Builder) (s : SectionContent) :
    (b.addContent s).settings = b.settings ∧ (b.addContent s).sections = b.sections ++ [s.toSpec] ∧
      (b.addContent s).itemCountExplicit = b.itemCountExplicit ++ [true] := by
  rcases foldl_addRecord (b := b.addSection s.type s.id s.flags) rfl s.records with
    ⟨hsettings, hexplicit, hsections⟩
  have hback := sections_updateBack hsections fun t => { t with itemCount := s.itemCount }
  refine ⟨hsettings, hback, ?_⟩
  have hback : (b.addContent s).sections = b.sections ++ [s.toSpec] := hback
  have hset : (b.addContent s).itemCountExplicit =
      (b.itemCountExplicit ++ [false]).set ((b.addContent s).sections.length - 1) true :=
    congrArg (fun explicit => List.set explicit ((b.addContent s).sections.length - 1) true) hexplicit
  rw [hset, hback, List.length_append, ← b.parallel]
  simp

theorem foldl_addContent (b : Builder) (ss : List SectionContent) :
    let b' := ss.foldl addContent b
    b'.settings = b.settings ∧ b'.sections = b.sections ++ ss.map SectionContent.toSpec ∧
      b'.itemCountExplicit = b.itemCountExplicit ++ ss.map fun _ => true := by
  induction ss generalizing b with
  | nil => simp
  | cons s ss ih =>
      rcases b.addContent_spec s with ⟨hsettings, hsections, hexplicit⟩
      rcases ih (b.addContent s) with ⟨hsettings', hsections', hexplicit'⟩
      rw [hsections, List.append_assoc] at hsections'
      rw [hexplicit, List.append_assoc] at hexplicit'
      exact ⟨hsettings'.trans hsettings, hsections', hexplicit'⟩

end Builder

theorem rows_rebuild (c : Container) :
    c.rebuild.rows = c.sections.map fun s => (s.content.toSpec, true) := by
  rcases Builder.foldl_addContent { hasMetadata := c.hasMetadata, hasTrailerCrc := c.hasTrailerCrc }
    (c.sections.map Section.content) with ⟨-, hsections, hexplicit⟩
  have hsections : c.rebuild.sections = (c.sections.map Section.content).map SectionContent.toSpec :=
    hsections
  have hexplicit : c.rebuild.itemCountExplicit = (c.sections.map Section.content).map fun _ => true :=
    hexplicit
  rw [Builder.rows, hsections, hexplicit, List.map_map, List.map_map, List.zip_map']
  rfl

theorem settings_rebuild (c : Container) :
    c.rebuild.settings = (1, c.hasMetadata, c.hasTrailerCrc) :=
  (Builder.foldl_addContent _ (c.sections.map Section.content)).1

/-! ### What parsing leaves behind -/

theorem Record.levels_toSpecs_le {room : Nat} {recs : List Record}
    (h : ∀ rec ∈ recs, rec.toSpec.height < room) : RecordSpec.levels (toSpecs recs) ≤ room := by
  induction recs with
  | nil => exact Nat.zero_le _
  | cons rec recs ih =>
      rw [List.forall_mem_cons] at h
      exact Nat.max_le.mpr ⟨h.1, ih h.2⟩

theorem Record.Fits.height_lt {room : Nat} {rec : Record} (h : rec.Fits room) :
    rec.toSpec.height < room := by
  induction h with
  | @node room rec unary below ih =>
      have hlevels := Record.levels_toSpecs_le ih
      rcases rec with ⟨tag, group, i64, u64, f64, str, blob, children, key⟩
      cases tag with
      | kArray | kGroup | kKeyval => exact Nat.lt_succ_of_le hlevels
      | _ => exact Nat.succ_pos _

/-- The records of a stream, each with the bytes it was read off. -/
theorem normal_parseStream {maxDepth base : Nat} {body : Bytes} {recs : List Record} {u : ByteReader}
    (h : parseStream maxDepth base 0 { data := body } = .ok recs u) :
    ∃ pieces, body = pieces.flatten ∧ List.Forall₂ (Normal (maxDepth + 1)) pieces recs := by
  rcases bind_eq_ok.mp h with ⟨r, t, hget, hstream⟩
  cases hget
  rcases (takes_parseRecordIn _ base).streamLoop _ hstream with ⟨pieces, hbody, -, -, hall⟩
  exact ⟨pieces, hbody, hall.imp fun _ _ => Encodes.normal⟩

/-- What `parse` makes of a section: its records can be encoded again, in no more bytes. -/
structure Section.Encodable (maxDepth : Nat) (s : Section) : Prop where
  decodable : s.content.toSpec.Decodable maxDepth
  same : s.content.toSpec.toRecords = s.records
  shorter : s.content.toSpec.body.length ≤ s.length.toNat

theorem encodable_free {maxDepth : Nat} {s : Section} (hrecords : s.records = []) : s.Encodable maxDepth := by
  rcases s with ⟨type, id, flags, offset, length, itemCount, crc, ok, records⟩
  cases hrecords
  refine ⟨fun _ _ hrec => absurd hrec List.not_mem_nil, ?_, ?_⟩
  · exact ite_self _
  · rw [SectionSpec.body]
    split <;> exact Nat.zero_le _

theorem encodable_stream {maxDepth base : Nat} {s : Section} {body : Bytes} {u : ByteReader}
    (hfree : s.type ≠ .kFree) (hlength : body.length ≤ s.length.toNat)
    (hfits : ∀ rec ∈ s.records, rec.Fits (maxDepth + 1))
    (h : parseStream maxDepth base 0 { data := body } = .ok s.records u) : s.Encodable maxDepth := by
  rcases normal_parseStream h with ⟨pieces, rfl, hall⟩
  have hunary := (RecordSpec.allUnary_iff _).mp (allUnary_pieces hall)
  have hsame := toRecords_pieces hall
  have hshorter := shorter_pieces hall
  rw [Record.toSpecs_eq_map] at hunary hsame hshorter
  rw [RecordSpec.toRecords_eq_map] at hsame
  refine ⟨fun _ rec hrec => ⟨hunary rec hrec, ?_⟩, ?_, ?_⟩
  · rcases List.mem_map.mp hrec with ⟨rec', hrec', rfl⟩
    exact Nat.le_of_lt_succ (hfits rec' hrec').height_lt
  · exact (if_neg hfree).trans hsame
  · rw [body_eq hfree]
    exact hshorter.trans hlength

/-- A FREE section has no records. -/
theorem records_of_free {opts : Options} {e : Entry} {r t : ByteReader} {s : Section}
    (h : parseSection opts e r = .ok s t) (hfree : s.type = .kFree) : s.records = [] := by
  rcases bind_eq_ok.mp h with ⟨r', r'', hget, h⟩
  cases hget
  dsimp only at h
  rw [ite_run] at h
  split at h
  · cases h
  · rcases bind_eq_ok.mp h with ⟨ok, u, -, h⟩
    rw [ite_run] at h
    split at h
    · cases h
      rfl
    · next hnot =>
      rcases bind_eq_ok.mp h with ⟨records, v, -, h⟩
      cases h
      exact absurd hfree hnot

/-- Every section was read off an entry. -/
theorem entry_of_section {opts : Options} {t : ByteReader} {entries : List Entry} {ss : List Section}
    (hall : List.Forall₂ (fun e s => parseSection opts e t = .ok s t) entries ss) {s : Section}
    (hs : s ∈ ss) : ∃ e, parseSection opts e t = .ok s t := by
  induction hall with
  | nil => cases hs
  | cons hhead _ ih =>
      cases hs with
      | head => exact ⟨_, hhead⟩
      | tail _ hs => exact ih hs

theorem parse_encodable {data : Bytes} {opts : Options} {c : Container} (h : parse data opts = .ok c) :
    ∀ s ∈ c.sections, s.Encodable opts.maxDepth := by
  intro s hs
  have hfits := parse_fits h s hs
  rcases parse_records h s hs with hnil | ⟨base, body, u, hlength, hstream⟩
  · exact encodable_free hnil
  · by_cases hfree : s.type = .kFree
    · rcases parse_ok h with ⟨c₀, entries, t, -, -, -, hall, -⟩
      rcases entry_of_section hall hs with ⟨e, hsection⟩
      exact encodable_free (records_of_free hsection hfree)
    · exact encodable_stream hfree hlength hfits hstream

/-! ### The metadata view -/

/-- What a section adds to the metadata view, by what it says. -/
def SectionContent.metadata (s : SectionContent) : List (Bytes × Record) :=
  if s.type = .kMetadata then s.records.filterMap Record.keyval? else []

/-- A container of the version that is read, with the metadata view of its sections. -/
structure Container.Coherent (c : Container) : Prop where
  version : c.version = 1
  metadata : c.metadata = (c.sections.map Section.content).flatMap SectionContent.metadata

theorem coherent_addSection {c : Container} (h : c.Coherent) (s : Section) : (c.addSection s).Coherent := by
  have hsection : s.metadata = s.content.metadata := rfl
  refine ⟨h.version, ?_⟩
  change c.metadata ++ s.metadata = _
  rw [h.metadata, hsection, Container.addSection, List.map_append, List.flatMap_append,
    List.map_singleton, List.flatMap_singleton]

theorem coherent_foldlM {opts : Options} {entries : List Entry} {c c' : Container} {r t : ByteReader}
    (hc : c.Coherent) (h : entries.foldlM (sectionRound opts) c r = .ok c' t) : c'.Coherent := by
  induction entries generalizing c r with
  | nil =>
      cases h
      exact hc
  | cons e entries ih =>
      rw [List.foldlM_cons] at h
      rcases bind_eq_ok.mp h with ⟨c₁, u, hround, hrest⟩
      rcases bind_eq_ok.mp hround with ⟨s, v, -, hround⟩
      cases hround
      exact ih (coherent_addSection hc s) hrest

theorem readHeader_start {strict : Bool} {r t : ByteReader} {c : Container}
    (h : readHeader strict r = .ok c t) : c.sections = [] ∧ c.Coherent := by
  rcases bind_eq_ok.mp h with ⟨r', r'', -, h⟩
  rcases bind_eq_ok.mp h with ⟨magic, r₁, -, h⟩
  rw [ite_run] at h
  split at h
  · cases h
  · rcases bind_eq_ok.mp h with ⟨version, r₂, -, h⟩
    rw [ite_run] at h
    split at h
    · cases h
    · next hversion =>
      rcases bind_eq_ok.mp h with ⟨flags, r₃, -, h⟩
      rcases bind_eq_ok.mp h with ⟨sectionCount, r₄, -, h⟩
      rcases bind_eq_ok.mp h with ⟨reserved, r₅, -, h⟩
      rcases bind_eq_ok.mp h with ⟨headerCrcStored, r₆, -, h⟩
      rcases bind_eq_ok.mp h with ⟨ok, r₇, -, h⟩
      cases h
      exact ⟨rfl, not_not.mp hversion, rfl⟩

theorem parse_coherent {data : Bytes} {opts : Options} {c : Container} (h : parse data opts = .ok c) :
    c.Coherent ∧ c.sections.length ≤ 65535 := by
  rcases parse_eq_ok.mp h with ⟨u, h⟩
  rcases bind_eq_ok.mp h with ⟨c₀, r, hheader, h⟩
  rcases bind_eq_ok.mp h with ⟨entries, t, htable, h⟩
  rcases bind_eq_ok.mp h with ⟨c₁, t', hrounds, h⟩
  rcases bind_eq_ok.mp h with ⟨ok, v, -, h⟩
  cases h
  rcases readHeader_start hheader with ⟨hsections, hcoherent⟩
  rcases readTable_ok htable with ⟨-, hlength, -⟩
  rcases foldlM_sectionRound_sections hrounds with ⟨ss, hss, hall⟩
  have hcoherent' := coherent_foldlM hcoherent hrounds
  refine ⟨⟨hcoherent'.version, hcoherent'.metadata⟩, ?_⟩
  change c₁.sections.length ≤ 65535
  rw [hss, hsections, List.nil_append, ← hall.length_eq, hlength]
  exact Nat.le_of_lt_succ c₀.sectionCount.toNat_lt

/-! ### The container built anew -/

section Rebuild

variable {c : Container} {maxDepth : Nat}

theorem sections_rebuild (c : Container) : c.rebuild.sections = c.sections.map fun s => s.content.toSpec := by
  rw [← c.rebuild.map_fst_rows, rows_rebuild, List.map_map]
  rfl

theorem contents_rebuild (h : ∀ s ∈ c.sections, s.Encodable maxDepth) :
    c.rebuild.contents = c.sections.map Section.content := by
  rw [Builder.contents, rows_rebuild, List.map_map]
  refine List.map_congr_left fun s hs => ?_
  have hsame := (h s hs).same
  change SectionContent.mk s.type s.id s.flags s.itemCount s.content.toSpec.toRecords = s.content
  rw [hsame]
  rfl

theorem length_bodies_rebuild (h : ∀ s ∈ c.sections, s.Encodable maxDepth) :
    c.rebuild.bodies.length ≤ (c.sections.map (·.length.toNat)).sum := by
  rw [Builder.bodies, rows_rebuild, List.flatMap_map, List.length_flatMap]
  exact List.sum_le_sum fun s hs => (h s hs).shorter

theorem length_build_rebuild (h : ∀ s ∈ c.sections, s.Encodable maxDepth) :
    c.rebuild.build.length ≤ kHeaderTotal + kSectionEntryBytes * c.sections.length +
      (c.sections.map (·.length.toNat)).sum + if c.hasTrailerCrc then kTrailerBytes else 0 := by
  have hbodies := length_bodies_rebuild h
  have hrows : c.rebuild.rows.length = c.sections.length := by rw [rows_rebuild, List.length_map]
  have hflag : c.rebuild.hasTrailerCrc = c.hasTrailerCrc :=
    congrArg (fun settings => settings.2.2) (settings_rebuild c)
  have htrailer : c.rebuild.trailer.length = if c.hasTrailerCrc then kTrailerBytes else 0 := by
    rw [Builder.trailer, hflag]
    split
    · exact leBytes_length ..
    · rfl
  rw [c.rebuild.build_eq_append, List.length_append, c.rebuild.length_table, List.length_append,
    Builder.bodiesAt, hrows, htrailer]
  omega

theorem rebuild_congr {c c' : Container} (hmetadata : c'.hasMetadata = c.hasMetadata)
    (htrailer : c'.hasTrailerCrc = c.hasTrailerCrc)
    (hsections : c'.sections.map Section.content = c.sections.map Section.content) :
    c'.rebuild = c.rebuild := by
  rw [Container.rebuild, Container.rebuild, hmetadata, htrailer, hsections]

end Rebuild

/-- Whatever was parsed, handed to the builder section by section and record by record, is written as a
file that says the same, with checksums that match, and that is written again byte by byte. Nothing in
it is longer than it was. -/
theorem parse_rebuild {data : Bytes} {opts : Options} {c : Container} (h : parse data opts = .ok c) :
    c.rebuild.build.length ≤ kHeaderTotal + kSectionEntryBytes * c.sections.length +
        (c.sections.map (·.length.toNat)).sum + (if c.hasTrailerCrc then kTrailerBytes else 0) ∧
    (c.rebuild.build.length < 2 ^ 32 → ∀ strict, ∃ c',
      parse c.rebuild.build { opts with strict } = .ok c' ∧ c'.checksumOk = true ∧
        c'.version = c.version ∧ c'.hasMetadata = c.hasMetadata ∧ c'.hasTrailerCrc = c.hasTrailerCrc ∧
        c'.sections.map Section.content = c.sections.map Section.content ∧ c'.metadata = c.metadata ∧
        c'.rebuild.build = c.rebuild.build) := by
  have hencodable := parse_encodable h
  rcases parse_coherent h with ⟨hcoherent, hcount⟩
  refine ⟨length_build_rebuild hencodable, fun hsize strict => ?_⟩
  have hsettings := settings_rebuild c
  have hversion : c.rebuild.version = 1 := congrArg (fun settings => settings.1) hsettings
  have hmetadata : c.rebuild.hasMetadata = c.hasMetadata :=
    congrArg (fun settings => settings.2.1) hsettings
  have htrailer : c.rebuild.hasTrailerCrc = c.hasTrailerCrc :=
    congrArg (fun settings => settings.2.2) hsettings
  have hlength : c.rebuild.sections.length ≤ 65535 := by rwa [sections_rebuild, List.length_map]
  have hdecodable : ∀ s ∈ c.rebuild.sections, s.Decodable opts.maxDepth := by
    rw [sections_rebuild, List.forall_mem_map]
    exact fun s hs => (hencodable s hs).decodable
  have hparse : parse c.rebuild.build { opts with strict } = .ok c.rebuild.container :=
    parse_build_eq hversion hlength hsize hdecodable
  have hsections : c.rebuild.container.sections.map Section.content = c.sections.map Section.content :=
    (content_sectionsFrom c.rebuild.bodiesAt c.rebuild.rows).trans (contents_rebuild hencodable)
  have hcoherent' := (parse_coherent hparse).1
  refine ⟨c.rebuild.container, hparse, rfl, hversion.trans hcoherent.version.symm, hmetadata, htrailer,
    hsections, ?_, ?_⟩
  · rw [hcoherent'.metadata, hcoherent.metadata, hsections]
  · rw [rebuild_congr hmetadata htrailer hsections]

/-- The file of two KEYVALs, written anew. -/
theorem parse_rebuild_keyTwice :
    ∃ c, parse keyTwice {} = .ok c ∧ ∃ c', parse c.rebuild.build {} = .ok c' ∧ c'.checksumOk = true ∧
      c'.metadata = c.metadata := by
  have hreturns : (parse keyTwice {}).toOption.map (fun c => decide (c.rebuild.build.length < 2 ^ 32)) =
      some true := by decide +kernel
  cases hparse : parse keyTwice {} with
  | error e =>
      rw [hparse] at hreturns
      cases hreturns
  | ok c =>
      rw [hparse] at hreturns
      have hsize : c.rebuild.build.length < 2 ^ 32 := of_decide_eq_true (Option.some.inj hreturns)
      rcases (parse_rebuild hparse).2 hsize false with ⟨c', hparse', hok, -, -, -, -, hmetadata, -⟩
      exact ⟨c, rfl, c', hparse', hok, hmetadata⟩

end Bytewright.Binpack
