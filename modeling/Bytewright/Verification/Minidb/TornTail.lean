import Bytewright.Verification.Minidb.Entries
import Bytewright.Verification.Minidb.Stages

/-! # A journal cut inside its last entry -/

namespace Bytewright.Minidb

open Bytewright.Common

/-! ### Readers that do not mind a longer buffer -/

/-- The same cursor over a buffer with more bytes at its end. -/
def grow (r : ByteReader) (more : Bytes) : ByteReader := { r with data := r.data ++ more }

/-- What `m` returns does not change when the buffer grows at its end. -/
def Extends {α : Type} (m : Reader α) : Prop :=
  ∀ r a s more, m r = .ok a s → m (grow r more) = .ok a (grow s more)

theorem rest_grow (r : ByteReader) (more : Bytes) :
    (grow r more).rest = r.rest ++ more.drop (r.pos - r.size) := by
  simp [grow, ByteReader.rest, ByteReader.size, List.drop_append]

namespace Extends

variable {α β : Type}

theorem pure (a : α) : Extends (Pure.pure a) := by
  intro r b s more h
  cases h
  rfl

theorem raise (c : ErrorCode) (i : Nat) (w : String) : Extends (Common.raise c i w : Reader α) := by
  intro r a s more h
  cases h

theorem bind {m : Reader α} {f : α → Reader β} (hm : Extends m) (hf : ∀ a, Extends (f a)) :
    Extends (m >>= f) := by
  intro r b u more h
  rcases bind_eq_ok.mp h with ⟨a, t, hmr, hft⟩
  rw [bind_of_ok (hm r a t more hmr)]
  exact hf a t b u more hft

theorem ite {c : Prop} [Decidable c] {m n : Reader α} (hm : Extends m) (hn : Extends n) :
    Extends (if c then m else n) := by
  split
  · exact hm
  · exact hn

/-- A look at the cursor that uses its position only. -/
theorem get {f : ByteReader → Reader α} (hpos : ∀ r more, f (grow r more) = f r)
    (hf : ∀ r, Extends (f r)) : Extends (MonadState.get >>= f) := by
  intro r a s more h
  have h : f r r = .ok a s := h
  change f (grow r more) (grow r more) = _
  rw [hpos]
  exact hf r r a s more h

theorem require (n : Nat) : Extends (require n) := by
  intro r a s more h
  rw [require_run] at h ⊢
  split at h
  · next hn =>
    cases h
    rw [if_pos (by rw [rest_grow, List.length_append]; omega)]
  · cases h

theorem readRaw (n : Nat) : Extends (readRaw n) := by
  intro r a s more h
  rw [readRaw_run] at h ⊢
  split at h
  · next hn =>
    cases h
    rw [if_pos (by rw [rest_grow, List.length_append]; omega), rest_grow,
      List.take_append_of_le_length hn]
    rfl
  · cases h

theorem bytesAt (i n : Nat) : Extends (bytesAt i n) := by
  intro r a s more h
  have hrun : ∀ r : ByteReader, Common.bytesAt i n r =
      if ((r.data.drop i).take n).length = n then .ok ((r.data.drop i).take n) r
      else .error .undefined r := by
    intro r
    rw [Common.bytesAt, bind_of_ok (get_run r)]
    split <;> rfl
  rw [hrun] at h ⊢
  split at h
  · next hn =>
    cases h
    have hle : n ≤ (r.data.drop i).length := by
      rw [List.length_take] at hn
      omega
    have htake : ((grow r more).data.drop i).take n = (r.data.drop i).take n := by
      rw [grow, List.drop_append, List.take_append_of_le_length hle]
    rw [htake, if_pos hn]
  · cases h

theorem readU16le : Extends readU16le := (readRaw 2).bind fun _ => Extends.pure _

theorem readU32le : Extends readU32le := (readRaw 4).bind fun _ => Extends.pure _

theorem skip (n : Nat) : Extends (skip n) := by
  apply (Extends.require n).bind
  intro _ r a s more h
  cases h
  rfl

/-- A match that has to succeed for the call to return. -/
theorem matchBytes (expected : Bytes) {f : Bool → Reader α} (hfalse : ∀ r a s, f false r ≠ .ok a s)
    (htrue : Extends (f true)) : Extends (matchBytes expected >>= f) := by
  intro r a s more h
  rcases bind_eq_ok.mp h with ⟨b, t, hmatch, hf⟩
  cases b with
  | false => exact absurd hf (hfalse t a s)
  | true =>
      rw [Common.matchBytes, bind_of_ok (get_run r)] at hmatch
      split at hmatch
      · cases hmatch
      · next hlen =>
        rcases bind_eq_ok.mp hmatch with ⟨bs, u, hbs, heq⟩
        have hlen' : ¬ expected.length > (grow r more).remaining := by
          rw [ByteReader.remaining_eq] at hlen ⊢
          rw [rest_grow, List.length_append]
          omega
        have hgrown : Common.matchBytes expected (grow r more) = .ok true (grow t more) := by
          have hgrown := bytesAt _ _ r bs u more hbs
          rw [Common.matchBytes, bind_of_ok (get_run _), if_neg hlen']
          exact (bind_of_ok hgrown).trans (Extends.pure _ u true t more heq)
        rw [bind_of_ok hgrown]
        exact htrue t a s more hf

end Extends

theorem extends_parseHeader (strict : Bool) : Extends (parseHeader strict) := by
  unfold parseHeader
  apply (Extends.require _).bind
  intro _
  apply Extends.get (fun _ _ => rfl)
  intro r
  apply Extends.matchBytes
  · intro r a s h
    cases h
  · apply (Extends.skip _).bind
    intro _
    apply Extends.readU16le.bind
    intro version
    apply Extends.ite (Extends.raise _ _ _)
    apply Extends.readU16le.bind
    intro pageSize
    apply Extends.ite (Extends.raise _ _ _)
    apply Extends.readU32le.bind
    intro pageCount
    apply Extends.readU32le.bind
    intro rootPage
    apply Extends.readU32le.bind
    intro stringTablePage
    apply Extends.readU32le.bind
    intro journalOffset
    apply Extends.readU32le.bind
    intro flags
    apply Extends.readU32le.bind
    intro headerCrc32
    apply (Extends.bytesAt _ _).bind
    intro covered
    apply Extends.ite (Extends.raise _ _ _)
    exact Extends.pure _

/-! ### The lenient stages -/

theorem readU16le_of_le {r : ByteReader} (h : 2 ≤ r.rest.length) :
    ∃ v, readU16le r = .ok v (r.advance 2) := by
  refine ⟨UInt16.ofNat (Library.leValue (r.rest.take 2)), ?_⟩
  rw [readU16le, bind_of_ok (readRaw_run 2 r |>.trans (if_pos h))]
  rfl

theorem parseSlots_ok (pageSize count : Nat) {r : ByteReader} (h : 4 * count ≤ r.rest.length) :
    ∃ slots s, parseSlots pageSize count r = .ok slots s := by
  induction count generalizing r with
  | zero => exact ⟨[], r, rfl⟩
  | succ count ih =>
      rcases readU16le_of_le (r := r) (by omega) with ⟨recOffset, hoff⟩
      rcases readU16le_of_le (r := r.advance 2) (by rw [ByteReader.rest_advance, List.length_drop]; omega)
        with ⟨recLength, hlen⟩
      have hslot : ∃ slot, parseSlot pageSize r = .ok slot ((r.advance 2).advance 2) := by
        rw [parseSlot, bind_of_ok hoff, bind_of_ok hlen]
        exact ⟨_, rfl⟩
      rcases hslot with ⟨slot, hslot⟩
      rcases ih (r := (r.advance 2).advance 2) (by
        rw [ByteReader.advance_advance, ByteReader.rest_advance, List.length_drop]; omega) with
        ⟨slots, s, hslots⟩
      exact ⟨slot :: slots, s, by rw [parseSlots, bind_of_ok hslot, bind_of_ok hslots]; rfl⟩

theorem parsePageBody_ok (index : UInt32) (pageSize pageLen : Nat) {r : ByteReader}
    (hlen : r.rest.length = pageLen) (h : kPageHeaderSize ≤ pageLen) :
    ∃ page s, parsePageBody index pageSize pageLen r = .ok page s := by
  have h8 : 8 ≤ r.rest.length := hlen.symm ▸ h
  have hadv : ∀ n, (r.advance n).rest.length = pageLen - n := fun n => by
    rw [ByteReader.rest_advance, List.length_drop, hlen]
  rcases hrest : r.rest with _ | ⟨type, _ | ⟨flags, rest⟩⟩
  · simp [hrest] at h8
  · simp [hrest] at h8
  · have htype := reads_readU8 type r _ hrest
    have hflags := reads_readU8 flags (r.advance 1) rest (by simp [hrest])
    simp only [List.length_singleton, ByteReader.advance_advance] at htype hflags
    rcases readU16le_of_le (r := r.advance 2) (by rw [hadv]; omega) with ⟨slotCount, h₁⟩
    rcases readU16le_of_le (r := r.advance 4) (by rw [hadv]; omega) with ⟨freeStart, h₂⟩
    rcases readU16le_of_le (r := r.advance 6) (by rw [hadv]; omega) with ⟨overflowNext, h₃⟩
    simp only [ByteReader.advance_advance] at h₁ h₂ h₃
    rw [parsePageBody, bind_of_ok htype, bind_of_ok hflags, bind_of_ok h₁, bind_of_ok h₂,
      bind_of_ok h₃]
    rcases parseSlots_ok pageSize
      (if decide (kPageHeaderSize + slotCount.toNat * kSlotEntrySize > pageLen) = true
        then (if pageLen > kPageHeaderSize then pageLen - kPageHeaderSize else 0) / kSlotEntrySize
        else slotCount.toNat) (r := r.advance 8) (by
          rw [hadv]
          unfold kPageHeaderSize kSlotEntrySize at *
          by_cases hfit : 8 + slotCount.toNat * 4 > pageLen
          · rw [decide_eq_true hfit, if_pos rfl]
            split <;> omega
          · rw [decide_eq_false hfit]
            simp only [Bool.false_eq_true, if_false]
            omega) with ⟨slots, s, hslots⟩
    rw [bind_of_ok hslots]
    exact ⟨_, _, rfl⟩

theorem parsePagesFrom_ok (data : Bytes) (pageSize left i : Nat) :
    ∃ spans pages, parsePagesFrom data pageSize left i = .ok (spans, pages) := by
  induction left generalizing i with
  | zero => exact ⟨[], [], rfl⟩
  | succ left ih =>
      rw [parsePagesFrom]
      dsimp only
      split
      · exact ⟨[], [], rfl⟩
      · next hoff =>
        generalize hlen : (if data.length - (kHeaderSize + i * pageSize) < pageSize
          then data.length - (kHeaderSize + i * pageSize) else pageSize) = pageLen
        have hle : pageLen ≤ data.length - (kHeaderSize + i * pageSize) := by
          rw [← hlen]
          split <;> omega
        have hpage : ∃ page, parsePage data (UInt32.ofNat i) pageSize (kHeaderSize + i * pageSize)
            pageLen = .ok page := by
          unfold parsePage
          split
          · exact ⟨_, rfl⟩
          · next hheader =>
            rcases parsePageBody_ok (UInt32.ofNat i) pageSize pageLen
              (r := { data := (data.drop (kHeaderSize + i * pageSize)).take pageLen })
              (by rw [ByteReader.rest_mk_zero, List.length_take, List.length_drop]; omega)
              (Nat.le_of_not_lt hheader) with ⟨page, s, hbody⟩
            exact ⟨page, by rw [hbody]⟩
        rcases hpage with ⟨page, hpage⟩
        rcases ih (i + 1) with ⟨spans, pages, hrest⟩
        rw [hpage, hrest]
        exact ⟨_, _, rfl⟩

theorem onlyThrows_readStringEntry : OnlyThrows readStringEntry := by
  apply onlyThrows_readVarint.bind
  intro len
  apply (OnlyThrows.require _).bind
  intro _
  exact OnlyThrows.readRaw _

theorem stringEntries_ok (count : Nat) (r : ByteReader) : ∃ entries, stringEntries count r = .ok entries := by
  induction count generalizing r with
  | zero => exact ⟨[], rfl⟩
  | succ count ih =>
      rw [stringEntries]
      cases h : readStringEntry r with
      | ok s t =>
          rcases ih t with ⟨entries, hentries⟩
          exact ⟨s :: entries, by simp only [hentries]; rfl⟩
      | error e t =>
          rcases onlyThrows_readStringEntry r e t h with ⟨p, rfl⟩
          exact ⟨[], rfl⟩

theorem parseStringTable_ok (data : Bytes) (hdr : FileHeader) (spans : List PageSpan)
    (pages : List Page) : ∃ table, parseStringTable data hdr spans pages = .ok table := by
  have hbody : ∀ r, ∃ table, stringTableBody r = .ok table := by
    intro r
    rw [stringTableBody]
    cases h : readVarint r with
    | ok count t => exact stringEntries_ok _ t
    | error e t =>
        rcases onlyThrows_readVarint r e t h with ⟨p, rfl⟩
        exact ⟨[], rfl⟩
  unfold parseStringTable
  split
  · exact ⟨[], rfl⟩
  · split
    · split
      · exact ⟨[], rfl⟩
      · split
        · exact ⟨[], rfl⟩
        · exact hbody _
    · exact ⟨[], rfl⟩

/-! ### The journal stage -/

/-- A journal that ends inside an entry makes the replay throw. -/
theorem replay_torn (seed : Store) {es : List Entry} {parts : List Bytes}
    (h : List.Forall₂ Encodes es parts) {e : Entry} {bs tail : Bytes} (he : Encodes e bs)
    (hpre : tail <+: bs) (hne : tail ≠ bs) (hnil : tail ≠ []) :
    ∃ at_ what, replay seed (parts.flatten ++ tail) = .error (.thrown ⟨.kShortRead, at_, what⟩) := by
  have hfuel := fuel_split h tail
  generalize hs : es.foldl ReplayState.step { committed := seed } = s at *
  rcases reads_entry he s with ⟨op, cs, rfl, hreads⟩
  rcases List.prefix_cons_iff.mp hpre with rfl | ⟨cs', rfl, hcs'⟩
  · exact absurd rfl hnil
  · have hne' : cs' ≠ cs := fun he => hne (by rw [he])
    generalize hr : ByteReader.advance { data := parts.flatten ++ op.byte :: cs' } parts.flatten.length = r
    have hrest : r.rest = op.byte :: cs' := by
      rw [← hr]
      simp
    have heof : r.eof = false := by
      rw [← Bool.not_eq_true, r.eof_iff, hrest]
      exact List.cons_ne_nil _ _
    have hafter : (r.advance 1).rest = cs' := by simp [hrest]
    rcases starves_entry s hreads (r.advance 1) (by rw [hafter]; exact hcs') (by rw [hafter]; exact hne')
      with ⟨at_, what, t, hthrow⟩
    refine ⟨at_, what, ?_⟩
    rw [replay, hfuel, replayLoop_entries h _ rfl, hs, hr, replayLoop, bind_of_ok (get_run r)]
    simp only [heof, Bool.false_eq_true, if_false]
    rw [bind_of_ok (reads_readU8 op.byte r cs' hrest)]
    simp only [ofByte?_byte]
    rw [List.length_singleton, bind_of_error hthrow]

/-! ### The whole buffer -/

/-- Behind an accepted header only the journal stage can fail. -/
theorem openDb_eq_replayJournal {data : Bytes} {opts : Options} {hdr : FileHeader} {r : ByteReader}
    (h : parseHeader opts.strict { data } = .ok hdr r) :
    ∃ spans db₀, db₀.journalOffset = hdr.journalOffset ∧
      openDb data opts = replayJournal data hdr spans db₀ := by
  rcases parsePagesFrom_ok data hdr.pageSize.toNat hdr.pageCount.toNat 0 with ⟨spans, pages, hpages⟩
  rcases parseStringTable_ok data hdr spans pages with ⟨table, htable⟩
  have hpages : parsePages data hdr = .ok (spans, pages) := hpages
  rw [openDb, h]
  simp only [hpages, bind, Except.bind, htable]
  exact ⟨spans, _, rfl, rfl⟩

theorem replayJournal_journalOffset {data : Bytes} {hdr : FileHeader} {spans : List PageSpan}
    {db₀ db : Database} (h : replayJournal data hdr spans db₀ = .ok db) :
    db.journalOffset = db₀.journalOffset := by
  rcases replayJournal_ok h with ⟨s, records, -, -, rfl⟩
  rfl

theorem replayJournal_error {data : Bytes} {hdr : FileHeader} {spans : List PageSpan}
    {db₀ : Database} {e : Fault} (hjournal : hdr.journalOffset ≠ 0)
    (hlt : hdr.journalOffset.toNat < data.length)
    (h : replay (seedFromPages data spans db₀.pages) (data.drop hdr.journalOffset.toNat) = .error e) :
    replayJournal data hdr spans db₀ = .error e := by
  simp only [replayJournal, bind, Except.bind]
  rw [if_pos ⟨hjournal, hlt⟩, h]

/-- `open` on a buffer it accepts, with a strict prefix of one more entry behind a journal of complete
entries: it succeeds with the same records exactly if that prefix is empty. -/
theorem openDb_torn_iff {data : Bytes} {opts : Options} {db : Database}
    (hopen : openDb data opts = .ok db) (hjournal : db.journalOffset ≠ 0)
    (hle : db.journalOffset.toNat ≤ data.length) {es : List Entry} {parts : List Bytes}
    (hes : List.Forall₂ Encodes es parts) (hdata : data.drop db.journalOffset.toNat = parts.flatten)
    {e : Entry} {bs tail : Bytes} (he : Encodes e bs) (hpre : tail <+: bs) (hne : tail ≠ bs) :
    (∃ db', openDb (data ++ tail) opts = .ok db' ∧ db'.records = db.records) ↔ tail = [] := by
  constructor
  · rintro ⟨db', hopen', -⟩
    by_contra hnil
    cases hheader : parseHeader opts.strict { data } with
    | error e s =>
        rw [openDb, hheader] at hopen
        cases hopen
    | ok hdr r =>
        -- the header of the longer buffer is the same
        have hgrown : parseHeader opts.strict { data := data ++ tail } = .ok hdr (grow r tail) :=
          extends_parseHeader opts.strict { data } hdr r tail hheader
        rcases openDb_eq_replayJournal hheader with ⟨spans, db₀, hoff, heq⟩
        rcases openDb_eq_replayJournal hgrown with ⟨spans', db₀', -, heq'⟩
        have hoffset : db.journalOffset = hdr.journalOffset :=
          (replayJournal_journalOffset (heq.symm.trans hopen)).trans hoff
        rw [hoffset] at hjournal hle hdata
        have hdrop : (data ++ tail).drop hdr.journalOffset.toNat = parts.flatten ++ tail := by
          rw [List.drop_append_of_le_length hle, hdata]
        have hlt : hdr.journalOffset.toNat < (data ++ tail).length := by
          have := List.length_pos_iff.mpr hnil
          rw [List.length_append]
          omega
        rcases replay_torn (seedFromPages (data ++ tail) spans' db₀'.pages) hes he hpre hne hnil with
          ⟨at_, what, htorn⟩
        rw [← hdrop] at htorn
        rw [heq', replayJournal_error hjournal hlt htorn] at hopen'
        cases hopen'
  · rintro rfl
    exact ⟨db, by rw [List.append_nil, hopen], rfl⟩

/-! ### A store of no pages with a one-entry journal -/

/-- A header with its journal right behind it. -/
def storeHeader : Bytes :=
  ascii "MDB1" ++ [1, 0, 64, 0] ++ [0, 0, 0, 0] ++ [0, 0, 0, 0] ++ [0xFF, 0xFF, 0xFF, 0xFF] ++
    [32, 0, 0, 0] ++ [0, 0, 0, 0] ++ [0, 0, 0, 0]

/-- An INSERT of a record of no fields. -/
def storeInsert : Bytes := [2, 0, 0, 0, 0, 0, 0, 1, 0]

theorem encodes_storeInsert : Encodes (.insert (0, 0) [0]) storeInsert := by
  have hlen : Reads readVarint [1] 1 := @reads_readVarint_byte 1 (by decide)
  exact .insert (0, 0) hlen rfl

theorem openDb_store : ∃ db, openDb (storeHeader ++ storeInsert) {} = .ok db ∧ db.journalOffset = 32 := by
  have h : (fun db : Database => db.journalOffset) <$> openDb (storeHeader ++ storeInsert) {} = .ok 32 := by
    decide +kernel
  cases hopen : openDb (storeHeader ++ storeInsert) {} with
  | error e => rw [hopen] at h; cases h
  | ok db => exact ⟨db, rfl, Except.ok.inj (hopen ▸ h)⟩

theorem openDb_torn_iff_delete :
    ∃ db, openDb (storeHeader ++ storeInsert) {} = .ok db ∧
      ((∃ db', openDb (storeHeader ++ storeInsert ++ [4]) {} = .ok db' ∧ db'.records = db.records) ↔
        [(4 : UInt8)] = []) := by
  rcases openDb_store with ⟨db, hopen, hoff⟩
  exact ⟨db, hopen, openDb_torn_iff hopen (by rw [hoff]; decide) (by rw [hoff]; decide)
    (.cons encodes_storeInsert .nil) (by rw [hoff]; decide) (.delete (0, 0)) (by decide) (by decide)⟩

/-- One byte of a further DELETE makes `open` throw. -/
theorem openDb_torn_throws :
    ¬ ∀ (data : Bytes) (opts : Options) (db : Database), openDb data opts = .ok db →
      db.journalOffset ≠ 0 → db.journalOffset.toNat ≤ data.length →
      ∀ es parts, List.Forall₂ Encodes es parts → data.drop db.journalOffset.toNat = parts.flatten →
      ∀ e bs tail, Encodes e bs → tail <+: bs → tail ≠ bs →
        ∃ db', openDb (data ++ tail) opts = .ok db' ∧ db'.records = db.records := by
  intro h
  rcases openDb_store with ⟨db, hopen, hoff⟩
  rcases h _ _ db hopen (by rw [hoff]; decide) (by rw [hoff]; decide) _ _
    (.cons encodes_storeInsert .nil) (by rw [hoff]; decide) _ _ [4] (.delete (0, 0)) (by decide)
    (by decide) with ⟨db', hopen', -⟩
  have hfail : (openDb (storeHeader ++ storeInsert ++ [4]) {}).isOk = false := by decide +kernel
  rw [hopen'] at hfail
  cases hfail

end Bytewright.Minidb
