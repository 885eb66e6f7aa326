import Mathlib.Data.List.Forall2
import Bytewright.Model.Binpack.Parser
import Bytewright.Verification.Common.ByteReader

/-! # Strict and lenient parsing -/

namespace Bytewright.Binpack

open Bytewright.Common

/-! ### A call that returns less than another -/

/-- `strict` returns what `lenient` returns, but only where `P` holds of it. -/
def Restricts {σ α : Type} (strict lenient : Action σ α) (P : α → Prop) : Prop :=
  ∀ s a t, strict s = .ok a t ↔ lenient s = .ok a t ∧ P a

namespace Restricts

variable {σ α β : Type}

theorem of_forall {m : Action σ α} {P : α → Prop} (h : ∀ s a t, m s = .ok a t → P a) :
    Restricts m m P :=
  fun s a t => ⟨fun hm => ⟨hm, h s a t hm⟩, And.left⟩

theorem raise (c : ErrorCode) (i : Nat) (w : String) (P : α → Prop) :
    Restricts (Common.raise c i w : Action σ α) (Common.raise c i w) P :=
  of_forall nofun

/-- What has to hold of the first result is known from the last one. -/
theorem bind {strict lenient : Action σ α} {f g : α → Action σ β} {P : α → Prop} {Q : β → Prop}
    (hm : Restricts strict lenient P) (hf : ∀ a, P a → Restricts (f a) (g a) Q)
    (hP : ∀ s a t b u, lenient s = .ok a t → g a t = .ok b u → Q b → P a) :
    Restricts (strict >>= f) (lenient >>= g) Q := by
  intro s b u
  rw [bind_eq_ok, bind_eq_ok]
  constructor
  · rintro ⟨a, t, hstrict, hrest⟩
    obtain ⟨hlenient, ha⟩ := (hm s a t).mp hstrict
    obtain ⟨hrest, hb⟩ := (hf a ha t b u).mp hrest
    exact ⟨⟨a, t, hlenient, hrest⟩, hb⟩
  · rintro ⟨⟨a, t, hlenient, hrest⟩, hb⟩
    have ha := hP s a t b u hlenient hrest hb
    exact ⟨a, t, (hm s a t).mpr ⟨hlenient, ha⟩, (hf a ha t b u).mpr ⟨hrest, hb⟩⟩

/-- The first call is the same in both. -/
theorem bind_same {m : Action σ α} {f g : α → Action σ β} {Q : β → Prop}
    (hf : ∀ a, Restricts (f a) (g a) Q) : Restricts (m >>= f) (m >>= g) Q :=
  (of_forall fun _ _ _ _ => True.intro).bind (fun a _ => hf a) fun _ _ _ _ _ _ _ _ => trivial

theorem ite {c : Prop} [Decidable c] {m n m' n' : Action σ α} {P : α → Prop}
    (hm : Restricts m m' P) (hn : Restricts n n' P) :
    Restricts (if c then m else n) (if c then m' else n') P := by
  split
  · exact hm
  · exact hn

end Restricts

/-! ### The three checks -/

theorem restricts_verifyCrc {σ : Type} (computed stored : UInt32) (offset : Nat) (what : String) :
    Restricts (verifyCrc computed stored true offset what : Action σ Bool)
      (verifyCrc computed stored false offset what) (· = true) := by
  unfold verifyCrc
  apply Restricts.ite
  · exact .of_forall fun s a t h => by cases h; rfl
  · intro s a t
    constructor
    · intro h
      cases h
    · rintro ⟨h, rfl⟩
      cases h

/-- A check that returns says whether the two CRCs are equal. -/
theorem verifyCrc_ok {σ : Type} {computed stored : UInt32} {strict : Bool} {offset : Nat}
    {what : String} {s t : σ} {ok : Bool}
    (h : verifyCrc computed stored strict offset what s = .ok ok t) :
    ok = decide (computed = stored) ∧ t = s := by
  unfold verifyCrc at h
  split at h
  · next heq =>
    cases h
    exact ⟨(decide_eq_true heq).symm, rfl⟩
  · next hne =>
    cases strict with
    | true => cases h
    | false =>
        cases h
        exact ⟨(decide_eq_false hne).symm, rfl⟩

/-- The header and every body so far have the CRC that is stored for them. -/
def Container.Sound (c : Container) : Prop :=
  c.headerChecksumOk = true ∧ c.sections.all (·.bodyChecksumOk) = true

theorem restricts_readHeader : Restricts (readHeader true) (readHeader false) Container.Sound := by
  unfold readHeader
  apply Restricts.bind_same
  intro r
  apply Restricts.bind_same
  intro magic
  apply Restricts.ite (.raise _ _ _ _)
  apply Restricts.bind_same
  intro version
  apply Restricts.ite (.raise _ _ _ _)
  apply Restricts.bind_same
  intro flags
  apply Restricts.bind_same
  intro sectionCount
  apply Restricts.bind_same
  intro reserved
  apply Restricts.bind_same
  intro headerCrcStored
  apply (restricts_verifyCrc _ _ _ _).bind
  · rintro ok rfl
    exact .of_forall fun s c t h => by cases h; exact ⟨rfl, rfl⟩
  · intro s ok t c u _ h hc
    cases h
    exact hc.1

theorem restricts_parseSection (maxDepth : Nat) (e : Entry) :
    Restricts (parseSection { strict := true, maxDepth } e) (parseSection { strict := false, maxDepth } e)
      (·.bodyChecksumOk = true) := by
  unfold parseSection
  apply Restricts.bind_same
  intro r
  apply Restricts.ite (.raise _ _ _ _)
  apply (restricts_verifyCrc _ _ _ _).bind
  · rintro ok rfl
    apply Restricts.ite
    · exact .of_forall fun s c t h => by cases h; rfl
    · apply Restricts.bind_same
      intro records
      exact .of_forall fun s c t h => by cases h; rfl
  · intro s ok t c u _ h hc
    split at h
    · cases h
      exact hc
    · obtain ⟨records, v, -, h⟩ := bind_eq_ok.mp h
      cases h
      exact hc

theorem restricts_parseTrailer (c : Container) :
    Restricts (parseTrailer c true) (parseTrailer c false) (· = true) := by
  unfold parseTrailer
  apply Restricts.ite
  · unfold checkTrailer
    apply Restricts.bind_same
    intro r
    apply Restricts.ite (.raise _ _ _ _)
    apply Restricts.bind_same
    intro trailerStored
    exact restricts_verifyCrc _ _ _ _
  · exact .of_forall fun s a t h => by cases h; rfl

/-! ### What a section says -/

/-- The bytes an entry points at. -/
def Entry.bodyIn (e : Entry) (data : Bytes) : Bytes :=
  (data.drop e.offset.toNat).take e.length.toNat

theorem parseSection_ok {opts : Options} {e : Entry} {r t : ByteReader} {s : Section}
    (h : parseSection opts e r = .ok s t) :
    t = r ∧ s.bodyChecksumOk = decide (crc32 (e.bodyIn r.data) = e.crc32Stored) := by
  obtain ⟨r', r'', hget, h⟩ := bind_eq_ok.mp h
  cases hget
  dsimp only at h
  rw [ite_run] at h
  split at h
  · cases h
  · obtain ⟨ok, u, hcrc, h⟩ := bind_eq_ok.mp h
    obtain ⟨rfl, rfl⟩ := verifyCrc_ok hcrc
    rw [ite_run] at h
    split at h
    · cases h
      exact ⟨rfl, rfl⟩
    · obtain ⟨records, v, hbody, h⟩ := bind_eq_ok.mp h
      cases h
      exact ⟨(readWithin_ok hbody).1, rfl⟩

/-- The bytes of a section. -/
def Section.bodyIn (s : Section) (data : Bytes) : Bytes :=
  (data.drop s.offset.toNat).take s.length.toNat

theorem verifyCrc_strict {σ : Type} {computed stored : UInt32} {offset : Nat} {what : String} {s t : σ}
    {ok : Bool} (h : verifyCrc computed stored true offset what s = .ok ok t) : ok = true :=
  ((restricts_verifyCrc computed stored offset what s ok t).mp h).2

/-- The verdict on a body is that of its CRC. In strict mode only one is accepted. -/
theorem parseSection_verdict {opts : Options} {e : Entry} {r t : ByteReader} {s : Section}
    (h : parseSection opts e r = .ok s t) :
    s.bodyChecksumOk = decide (crc32 (s.bodyIn r.data) = s.crc32Stored) ∧
      (opts.strict = true → s.bodyChecksumOk = true) ∧
      s.bodyIn r.data = e.bodyIn r.data ∧ s.crc32Stored = e.crc32Stored := by
  have hverdict := (parseSection_ok h).2
  obtain ⟨r', r'', hget, h⟩ := bind_eq_ok.mp h
  cases hget
  dsimp only at h
  rw [ite_run] at h
  split at h
  · cases h
  · obtain ⟨ok, u, hcrc, h⟩ := bind_eq_ok.mp h
    have hstrict : opts.strict = true → ok = true := fun hs => by
      rw [hs] at hcrc
      exact verifyCrc_strict hcrc
    rw [ite_run] at h
    split at h
    · cases h
      exact ⟨hverdict, hstrict, rfl, rfl⟩
    · obtain ⟨records, v, -, h⟩ := bind_eq_ok.mp h
      cases h
      exact ⟨hverdict, hstrict, rfl, rfl⟩

/-! ### The section loop -/

theorem sound_addSection (c : Container) (s : Section) :
    (c.addSection s).Sound ↔ c.Sound ∧ s.bodyChecksumOk = true := by
  rw [Container.Sound, Container.Sound, Container.addSection, List.all_append, Bool.and_eq_true,
    List.all_cons, List.all_nil, Bool.and_true, and_assoc]

/-- One round adds one section. -/
theorem sectionRound_ok {opts : Options} {c c' : Container} {e : Entry} {r t : ByteReader}
    (h : sectionRound opts c e r = .ok c' t) :
    t = r ∧ c'.hasTrailerCrc = c.hasTrailerCrc ∧
      (c'.Sound ↔ c.Sound ∧ crc32 (e.bodyIn r.data) = e.crc32Stored) := by
  obtain ⟨s, u, hsection, h⟩ := bind_eq_ok.mp h
  cases h
  obtain ⟨rfl, hok⟩ := parseSection_ok hsection
  refine ⟨rfl, rfl, ?_⟩
  rw [sound_addSection, hok, decide_eq_true_iff]

theorem foldlM_sectionRound_ok {opts : Options} {entries : List Entry} {c c' : Container}
    {r t : ByteReader} (h : entries.foldlM (sectionRound opts) c r = .ok c' t) :
    t = r ∧ c'.hasTrailerCrc = c.hasTrailerCrc ∧
      (c'.Sound ↔ c.Sound ∧ ∀ e ∈ entries, crc32 (e.bodyIn r.data) = e.crc32Stored) := by
  induction entries generalizing c r with
  | nil =>
      cases h
      simp
  | cons e entries ih =>
      rw [List.foldlM_cons] at h
      obtain ⟨c₁, u, hround, hrest⟩ := bind_eq_ok.mp h
      obtain ⟨rfl, hflag, hsound⟩ := sectionRound_ok hround
      obtain ⟨rfl, hflag', hsound'⟩ := ih hrest
      refine ⟨rfl, hflag'.trans hflag, ?_⟩
      rw [hsound', hsound, List.forall_mem_cons, and_assoc]

/-- The loop adds the section of every entry, all read off the same file. -/
theorem foldlM_sectionRound_sections {opts : Options} {entries : List Entry} {c c' : Container}
    {r t : ByteReader} (h : entries.foldlM (sectionRound opts) c r = .ok c' t) :
    ∃ ss, c'.sections = c.sections ++ ss ∧
      List.Forall₂ (fun e s => parseSection opts e r = .ok s r) entries ss := by
  induction entries generalizing c r with
  | nil =>
      cases h
      exact ⟨[], by simp, .nil⟩
  | cons e entries ih =>
      rw [List.foldlM_cons] at h
      obtain ⟨c₁, u, hround, hrest⟩ := bind_eq_ok.mp h
      obtain ⟨s, v, hsection, hround⟩ := bind_eq_ok.mp hround
      cases hround
      obtain ⟨rfl, -⟩ := parseSection_ok hsection
      obtain ⟨ss, hsections, hall⟩ := ih hrest
      refine ⟨s :: ss, ?_, .cons hsection hall⟩
      rw [hsections, Container.addSection, List.append_assoc]
      rfl

theorem restricts_foldlM_sectionRound (maxDepth : Nat) (entries : List Entry) {c : Container}
    (hc : c.Sound) :
    Restricts (entries.foldlM (sectionRound { strict := true, maxDepth }) c)
      (entries.foldlM (sectionRound { strict := false, maxDepth }) c) Container.Sound := by
  induction entries generalizing c with
  | nil =>
      intro s a t
      refine ⟨fun h => ⟨h, ?_⟩, And.left⟩
      cases h
      exact hc
  | cons e entries ih =>
      rw [List.foldlM_cons, List.foldlM_cons]
      have hround : Restricts (sectionRound { strict := true, maxDepth } c e)
          (sectionRound { strict := false, maxDepth } c e) Container.Sound := by
        apply (restricts_parseSection maxDepth e).bind
        · intro s hs
          refine .of_forall fun r c' t h => ?_
          cases h
          exact (sound_addSection c s).mpr ⟨hc, hs⟩
        · intro r s t c' u _ h hc'
          cases h
          exact ((sound_addSection c s).mp hc').2
      apply hround.bind
      · intro c₁ hc₁
        exact ih hc₁
      · intro r c₁ t c' u _ hrest hc'
        obtain ⟨-, -, hsound⟩ := foldlM_sectionRound_ok hrest
        exact (hsound.mp hc').1

/-! ### The table -/

/-- An entry says what the 24 bytes from `i` on say. -/
structure Entry.At (e : Entry) (data : Bytes) (i : Nat) : Prop where
  offset : e.offset = u32At data (i + 8)
  length : e.length = u32At data (i + 12)
  crc32Stored : e.crc32Stored = u32At data (i + 20)

theorem readEntry_ok {r t : ByteReader} {e : Entry} (h : readEntry r = .ok e t) :
    e.At r.data r.pos ∧ t = r.advance kSectionEntryBytes := by
  obtain ⟨rawType, r₁, htype, h⟩ := bind_eq_ok.mp h
  obtain ⟨-, rfl⟩ := readU16le_at htype
  cases hraw : SectionType.ofRaw? rawType with
  | none =>
    rw [hraw] at h
    obtain ⟨r', r'', -, h⟩ := bind_eq_ok.mp h
    cases h
  | some type =>
    rw [hraw] at h
    obtain ⟨id, r₂, hid, h⟩ := bind_eq_ok.mp h
    obtain ⟨-, rfl⟩ := readU16le_at hid
    obtain ⟨flags, r₃, hflags, h⟩ := bind_eq_ok.mp h
    obtain ⟨-, rfl⟩ := readU16le_at hflags
    obtain ⟨reserved, r₄, hreserved, h⟩ := bind_eq_ok.mp h
    obtain ⟨-, rfl⟩ := readU16le_at hreserved
    obtain ⟨offset, r₅, hoffset, h⟩ := bind_eq_ok.mp h
    obtain ⟨rfl, rfl⟩ := readU32le_at hoffset
    obtain ⟨length, r₆, hlength, h⟩ := bind_eq_ok.mp h
    obtain ⟨rfl, rfl⟩ := readU32le_at hlength
    obtain ⟨itemCount, r₇, hcount, h⟩ := bind_eq_ok.mp h
    obtain ⟨-, rfl⟩ := readU32le_at hcount
    obtain ⟨crc, r₈, hcrc, h⟩ := bind_eq_ok.mp h
    obtain ⟨rfl, rfl⟩ := readU32le_at hcrc
    cases h
    exact ⟨⟨rfl, rfl, rfl⟩, rfl⟩

theorem readTimes_readEntry_ok {count : Nat} {r t : ByteReader} {entries : List Entry}
    (h : readTimes readEntry count r = .ok entries t) :
    t.data = r.data ∧ entries.length = count ∧
      ∀ (i : Nat) (e : Entry), entries[i]? = some e → e.At r.data (r.pos + i * kSectionEntryBytes) := by
  induction count generalizing r entries with
  | zero =>
      cases h
      simp
  | succ count ih =>
      obtain ⟨e, u, hentry, h⟩ := bind_eq_ok.mp h
      obtain ⟨hat, rfl⟩ := readEntry_ok hentry
      obtain ⟨entries, v, hrest, h⟩ := bind_eq_ok.mp h
      cases h
      obtain ⟨hdata, hlen, hentries⟩ := ih hrest
      refine ⟨hdata, congrArg (· + 1) hlen, fun i e' he => ?_⟩
      cases i with
      | zero =>
          cases he
          simpa using hat
      | succ i =>
          have hat := hentries i e' he
          rw [ByteReader.pos_advance, ByteReader.data_advance, Nat.add_assoc,
            Nat.add_comm kSectionEntryBytes, ← Nat.succ_mul] at hat
          exact hat

theorem readTable_ok {sectionCount : UInt16} {r t : ByteReader} {entries : List Entry}
    (h : readTable sectionCount r = .ok entries t) :
    t.data = r.data ∧ entries.length = sectionCount.toNat ∧
      ∀ (i : Nat) (e : Entry), entries[i]? = some e → e.At r.data (r.pos + i * kSectionEntryBytes) := by
  obtain ⟨r', r'', hget, h⟩ := bind_eq_ok.mp h
  cases hget
  dsimp only at h
  rw [ite_run] at h
  split at h
  · cases h
  · exact readTimes_readEntry_ok h

/-! ### The header and the trailer -/

theorem readHeader_ok {strict : Bool} {data : Bytes} {t : ByteReader} {c : Container}
    (h : readHeader strict { data } = .ok c t) :
    t = ByteReader.advance { data } kHeaderTotal ∧ c.sections = [] ∧
      c.sectionCount = u16At data 8 ∧ c.hasTrailerCrc = decide (u16At data 6 &&& 0x02 ≠ 0) ∧
      c.headerChecksumOk = decide (crc32 (data.take kHeaderBytes) = u32At data kHeaderBytes) := by
  obtain ⟨r', r'', hget, h⟩ := bind_eq_ok.mp h
  cases hget
  obtain ⟨magic, r₁, hmagic, h⟩ := bind_eq_ok.mp h
  obtain ⟨-, rfl⟩ := readRaw_at hmagic
  rw [ite_run] at h
  split at h
  · cases h
  · obtain ⟨version, r₂, hversion, h⟩ := bind_eq_ok.mp h
    obtain ⟨-, rfl⟩ := readU16le_at hversion
    rw [ite_run] at h
    split at h
    · cases h
    · obtain ⟨flags, r₃, hflags, h⟩ := bind_eq_ok.mp h
      obtain ⟨rfl, rfl⟩ := readU16le_at hflags
      obtain ⟨sectionCount, r₄, hcount, h⟩ := bind_eq_ok.mp h
      obtain ⟨rfl, rfl⟩ := readU16le_at hcount
      obtain ⟨reserved, r₅, hreserved, h⟩ := bind_eq_ok.mp h
      obtain ⟨-, rfl⟩ := readU16le_at hreserved
      obtain ⟨headerCrcStored, r₆, hstored, h⟩ := bind_eq_ok.mp h
      obtain ⟨rfl, rfl⟩ := readU32le_at hstored
      obtain ⟨ok, r₇, hcrc, h⟩ := bind_eq_ok.mp h
      obtain ⟨rfl, rfl⟩ := verifyCrc_ok hcrc
      cases h
      exact ⟨rfl, rfl, rfl, rfl, rfl⟩

theorem parseTrailer_ok {strict : Bool} {c : Container} {r t : ByteReader} {ok : Bool}
    (h : parseTrailer c strict r = .ok ok t) :
    ok = true ↔ (c.hasTrailerCrc = true → crc32 (r.data.take (r.data.length - kTrailerBytes)) =
      u32At r.data (r.data.length - kTrailerBytes)) := by
  unfold parseTrailer at h
  rw [ite_run] at h
  split at h
  · next hflag =>
    obtain ⟨r', r'', hget, h⟩ := bind_eq_ok.mp h
    cases hget
    dsimp only at h
    rw [ite_run] at h
    split at h
    · cases h
    · obtain ⟨stored, u, hstored, h⟩ := bind_eq_ok.mp h
      obtain ⟨rfl, -⟩ := verifyCrc_ok h
      obtain ⟨-, v, hread⟩ := readWithin_ok hstored
      have hvalue : stored = u32At r.data (r.data.length - kTrailerBytes) := (readU32le_at hread).1
      rw [decide_eq_true_iff, hvalue]
      exact ⟨fun heq _ => heq, fun himp => himp hflag⟩
  · next hflag =>
    cases h
    simp [hflag]

/-! ### The whole file -/

/-- Every stored CRC of a file is the CRC of the bytes it is stored for: those of the header, of the
body of every section of the table, and of the trailer if the header flags one. -/
structure ChecksumsMatch (data : Bytes) : Prop where
  header : crc32 (data.take kHeaderBytes) = u32At data kHeaderBytes
  bodies : ∀ i < (u16At data 8).toNat,
    let entry := kHeaderTotal + i * kSectionEntryBytes
    crc32 ((data.drop (u32At data (entry + 8)).toNat).take (u32At data (entry + 12)).toNat) =
      u32At data (entry + 20)
  trailer : u16At data 6 &&& 0x02 ≠ 0 →
    crc32 (data.take (data.length - kTrailerBytes)) = u32At data (data.length - kTrailerBytes)

theorem bodies_iff {entries : List Entry} {data : Bytes} {pos count : Nat}
    (hlen : entries.length = count)
    (hat : ∀ (i : Nat) (e : Entry), entries[i]? = some e → e.At data (pos + i * kSectionEntryBytes)) :
    (∀ e ∈ entries, crc32 (e.bodyIn data) = e.crc32Stored) ↔ ∀ i < count,
      let entry := pos + i * kSectionEntryBytes
      crc32 ((data.drop (u32At data (entry + 8)).toNat).take (u32At data (entry + 12)).toNat) =
        u32At data (entry + 20) := by
  constructor
  · intro h i hi
    have hi : i < entries.length := hlen.symm ▸ hi
    have hentry := hat i _ (List.getElem?_eq_getElem hi)
    have hbody := h _ (List.getElem_mem hi)
    rwa [Entry.bodyIn, hentry.offset, hentry.length, hentry.crc32Stored] at hbody
  · intro h e he
    obtain ⟨i, hi, rfl⟩ := List.getElem_of_mem he
    have hentry := hat i _ (List.getElem?_eq_getElem hi)
    rw [Entry.bodyIn, hentry.offset, hentry.length, hentry.crc32Stored]
    exact h i (hlen ▸ hi)

theorem checksumOk_iff (c : Container) (ok : Bool) :
    (c.headerChecksumOk && ok && c.sections.all (·.bodyChecksumOk)) = true ↔ c.Sound ∧ ok = true := by
  rw [Bool.and_eq_true, Bool.and_eq_true, Container.Sound, and_right_comm]

theorem restricts_parseContainer (maxDepth : Nat) :
    Restricts (parseContainer { strict := true, maxDepth }) (parseContainer { strict := false, maxDepth })
      (·.checksumOk = true) := by
  have htrailer : ∀ {strict : Bool} {c c' : Container} {r t : ByteReader},
      (do
        let trailerChecksumOk ← parseTrailer c strict
        return { c with
          trailerChecksumOk
          checksumOk := c.headerChecksumOk && trailerChecksumOk && c.sections.all (·.bodyChecksumOk) }
        : Reader Container) r = .ok c' t → c'.checksumOk = true → c.Sound := by
    intro strict c c' r t h hc'
    obtain ⟨ok, u, -, h⟩ := bind_eq_ok.mp h
    cases h
    exact ((checksumOk_iff c ok).mp hc').1
  unfold parseContainer
  apply restricts_readHeader.bind
  · intro c hc
    apply Restricts.bind_same
    intro entries
    apply (restricts_foldlM_sectionRound maxDepth entries hc).bind
    · intro c' hc'
      apply (restricts_parseTrailer c').bind
      · intro ok hok
        refine .of_forall fun r c'' t h => ?_
        cases h
        exact (checksumOk_iff c' ok).mpr ⟨hc', hok⟩
      · intro r ok t c'' u _ h hc''
        cases h
        exact ((checksumOk_iff c' ok).mp hc'').2
    · intro r c' t c'' u _ h hc''
      exact htrailer h hc''
  · intro r c t c'' u _ h hc''
    obtain ⟨entries, v, -, h⟩ := bind_eq_ok.mp h
    obtain ⟨c', w, hrounds, h⟩ := bind_eq_ok.mp h
    obtain ⟨-, -, hsound⟩ := foldlM_sectionRound_ok hrounds
    exact (hsound.mp (htrailer h hc'')).1

theorem parse_eq_ok {data : Bytes} {opts : Options} {c : Container} :
    parse data opts = .ok c ↔ ∃ r, parseContainer opts { data } = .ok c r := by
  rw [parse]
  cases parseContainer opts { data } with
  | ok c' r => simp
  | error e r => simp

theorem parseContainer_checksumOk {opts : Options} {data : Bytes} {c : Container} {t : ByteReader}
    (h : parseContainer opts { data } = .ok c t) : c.checksumOk = true ↔ ChecksumsMatch data := by
  obtain ⟨c₀, r, hheader, h⟩ := bind_eq_ok.mp h
  obtain ⟨rfl, hsections, hcount, hflag, hok⟩ := readHeader_ok hheader
  obtain ⟨entries, r, htable, h⟩ := bind_eq_ok.mp h
  obtain ⟨hdata, hlen, hat⟩ := readTable_ok htable
  obtain ⟨c₁, r', hrounds, hrest⟩ := bind_eq_ok.mp h
  obtain ⟨rfl, hflag₁, hsound⟩ := foldlM_sectionRound_ok hrounds
  obtain ⟨ok, r', htrailer, h⟩ := bind_eq_ok.mp hrest
  cases h
  have hflagged := parseTrailer_ok htrailer
  have hhead : c₀.Sound ↔ crc32 (data.take kHeaderBytes) = u32At data kHeaderBytes := by
    rw [Container.Sound, hsections, hok, decide_eq_true_iff]
    exact and_iff_left rfl
  have hbodies := bodies_iff hlen hat
  rw [hdata] at hsound hflagged
  rw [hhead, hbodies, hcount] at hsound
  rw [hflag₁, hflag, decide_eq_true_iff] at hflagged
  change (c₁.headerChecksumOk && ok && c₁.sections.all (·.bodyChecksumOk)) = true ↔ _
  rw [checksumOk_iff, hsound, hflagged]
  exact ⟨fun ⟨⟨hheader, hbodies⟩, htrailer⟩ => ⟨hheader, hbodies, htrailer⟩,
    fun h => ⟨⟨h.header, h.bodies⟩, h.trailer⟩⟩

/-- What a parsed file went through: the header, the table, and for each entry its section. -/
theorem parse_ok {data : Bytes} {opts : Options} {c : Container} (h : parse data opts = .ok c) :
    ∃ c₀ entries t, readHeader opts.strict { data } = .ok c₀ (ByteReader.advance { data } kHeaderTotal) ∧
      readTable c₀.sectionCount (ByteReader.advance { data } kHeaderTotal) = .ok entries t ∧
      t.data = data ∧ List.Forall₂ (fun e s => parseSection opts e t = .ok s t) entries c.sections ∧
      (c.checksumOk = true → ∀ e ∈ entries, crc32 (e.bodyIn data) = e.crc32Stored) := by
  obtain ⟨u, h⟩ := parse_eq_ok.mp h
  obtain ⟨c₀, r, hheader, h⟩ := bind_eq_ok.mp h
  obtain ⟨rfl, hsections, -⟩ := readHeader_ok hheader
  obtain ⟨entries, t, htable, h⟩ := bind_eq_ok.mp h
  obtain ⟨hdata, -⟩ := readTable_ok htable
  have hdata : t.data = data := hdata
  obtain ⟨c₁, t', hrounds, h⟩ := bind_eq_ok.mp h
  obtain ⟨ok, v, -, h⟩ := bind_eq_ok.mp h
  cases h
  obtain ⟨-, -, hsound⟩ := foldlM_sectionRound_ok hrounds
  obtain ⟨ss, hss, hall⟩ := foldlM_sectionRound_sections hrounds
  rw [hsections, List.nil_append] at hss
  refine ⟨c₀, entries, t, hheader, htable, hdata, hss.symm ▸ hall, fun hok => ?_⟩
  rw [← hdata]
  exact (hsound.mp ((checksumOk_iff c₁ ok).mp hok).1).2

/-- What a parsed file says of each of its sections. -/
theorem parse_verdict {data : Bytes} {opts : Options} {c : Container} (h : parse data opts = .ok c)
    {s : Section} (hs : s ∈ c.sections) :
    s.bodyChecksumOk = decide (crc32 (s.bodyIn data) = s.crc32Stored) ∧
      (opts.strict = true → s.bodyChecksumOk = true) ∧
      (c.checksumOk = true → s.bodyChecksumOk = true) := by
  obtain ⟨c₀, entries, t, -, -, rfl, hall, hsound⟩ := parse_ok h
  have hentry : ∃ e ∈ entries, parseSection opts e t = .ok s t := by
    obtain ⟨i, hi, rfl⟩ := List.getElem_of_mem hs
    have hlen := hall.length_eq
    exact ⟨_, List.get_mem entries ⟨i, by omega⟩, hall.get (by omega) hi⟩
  obtain ⟨e, he, hsection⟩ := hentry
  obtain ⟨hverdict, hstrict, hbody, hstored⟩ := parseSection_verdict hsection
  refine ⟨hverdict, hstrict, fun hok => ?_⟩
  rw [hverdict, decide_eq_true_iff, hbody, hstored]
  exact hsound hok e he

/-- Strict parsing accepts exactly the files that lenient parsing finds sound, and reads the same out
of them. A file is found sound when every CRC it stores is the right one. -/
theorem parse_strict_iff (data : Bytes) (maxDepth : Nat) :
    (∀ c, parse data { strict := true, maxDepth } = .ok c ↔
      parse data { strict := false, maxDepth } = .ok c ∧ c.checksumOk = true) ∧
    ∀ strict c, parse data { strict, maxDepth } = .ok c → (c.checksumOk = true ↔ ChecksumsMatch data) := by
  constructor
  · intro c
    simp only [parse_eq_ok]
    rw [← exists_and_right]
    exact exists_congr fun t => restricts_parseContainer maxDepth _ c t
  · intro strict c h
    obtain ⟨t, h⟩ := parse_eq_ok.mp h
    exact parseContainer_checksumOk h

end Bytewright.Binpack
