import Mathlib.Data.List.Forall2
import Bytewright.Verification.Binpack.Records

/-! # The wire format of a record, as a grammar -/

namespace Bytewright.Binpack

open Bytewright.Common Bytewright.Library

/-! ### What readers take -/

/-- When `m` returns, it has moved past bytes that `P` relates to its result. -/
def Takes {α : Type} (m : Reader α) (P : Bytes → α → Prop) : Prop :=
  ∀ r a s, m r = .ok a s → ∃ bs, r.rest = bs ++ s.rest ∧ s = r.advance bs.length ∧ P bs a

section Loops

variable {α : Type} {m : Reader α} {P : Bytes → α → Prop}

theorem Takes.readTimes (hm : Takes m P) (count : Nat) :
    Takes (readTimes m count) fun bs as =>
      ∃ pieces, bs = pieces.flatten ∧ pieces.length = count ∧ List.Forall₂ P pieces as := by
  induction count with
  | zero =>
      intro r as s h
      cases h
      exact ⟨[], rfl, rfl, [], rfl, rfl, .nil⟩
  | succ count ih =>
      intro r as u h
      rcases bind_eq_ok.mp h with ⟨a, s, hhead, h⟩
      rcases bind_eq_ok.mp h with ⟨rest, t, htail, h⟩
      cases h
      rcases hm r a s hhead with ⟨bs, hr, rfl, hP⟩
      rcases ih _ rest u htail with ⟨_, hs, rfl, pieces, rfl, hlength, hall⟩
      refine ⟨bs ++ pieces.flatten, ?_, by simp, bs :: pieces, rfl, by rw [List.length_cons, hlength],
        .cons hP hall⟩
      rw [hr, hs, List.append_assoc]

theorem Takes.streamLoop (hm : Takes m P) (fuel : Nat) {r s : ByteReader} {as : List α}
    (h : streamLoop m fuel r = .ok as s) :
    ∃ pieces, r.rest = pieces.flatten ∧ s = r.advance pieces.flatten.length ∧ s.rest = [] ∧
      List.Forall₂ P pieces as := by
  induction fuel generalizing r as with
  | zero => cases h
  | succ fuel ih =>
      rcases bind_eq_ok.mp h with ⟨r', t, hget, h⟩
      cases hget
      rw [ite_run] at h
      split at h
      · next heof =>
        cases h
        have hrest := (ByteReader.eof_iff _).mp heof
        exact ⟨[], hrest, rfl, hrest, .nil⟩
      · rcases bind_eq_ok.mp h with ⟨a, s', hhead, h⟩
        rcases bind_eq_ok.mp h with ⟨rest, t, htail, h⟩
        cases h
        rcases hm r a s' hhead with ⟨bs, hr, rfl, hP⟩
        rcases ih htail with ⟨pieces, hs, rfl, hend, hall⟩
        refine ⟨bs :: pieces, by rw [hr, hs, List.flatten_cons], ?_, hend, .cons hP hall⟩
        rw [ByteReader.advance_advance, List.flatten_cons, List.length_append]

end Loops

theorem takes_readVarint : Takes readVarint (Reads readVarint) := by
  intro r v s h
  rcases exact_readVarint r v s h with ⟨bs, hr, hs, hreads, -⟩
  exact ⟨bs, hr, hs, hreads⟩

theorem takes_readRaw (n : Nat) : Takes (readRaw n) fun bs as => bs = as ∧ as.length = n := by
  intro r as s h
  rw [readRaw_run] at h
  split at h
  · next hn =>
    cases h
    have hlength : (r.rest.take n).length = n := List.length_take_of_le hn
    refine ⟨r.rest.take n, ?_, by rw [hlength], rfl, hlength⟩
    rw [ByteReader.rest_advance, List.take_append_drop]
  · cases h

/-- A read of everything that is left. -/
theorem takes_remaining {payload bs : Bytes} {s : ByteReader}
    (h : readRaw ({ data := payload } : ByteReader).remaining { data := payload } = .ok bs s) :
    bs = payload := by
  rcases readRaw_at h with ⟨rfl, -⟩
  rw [ByteReader.remaining_eq, List.take_length]
  rfl

/-! ### The grammar -/

/-- The number a zig-zag encoding stands for. -/
def unzigzag (u : UInt64) : Int64 := ((u >>> 1) ^^^ (~~~(u &&& 1) + 1)).toInt64

/-- The payloads of a tag, given the records that may be nested in them. Scalars and arrays may be
followed by other bytes. -/
inductive Body (nested : Bytes → Record → Prop) (group : Bool) : RecordTag → Bytes → Record → Prop where
  | kInt {bs pad : Bytes} {u : UInt64} (h : Reads readVarint bs u) :
      Body nested group .kInt (bs ++ pad) { tag := .kInt, group, i64 := unzigzag u }
  | kUint {bs pad : Bytes} {u : UInt64} (h : Reads readVarint bs u) :
      Body nested group .kUint (bs ++ pad) { tag := .kUint, group, u64 := u }
  | kFloat {bs pad : Bytes} (h : bs.length = 8) :
      Body nested group .kFloat (bs ++ pad) { tag := .kFloat, group, f64 := UInt64.ofNat (leValue bs) }
  | kString (str : Bytes) : Body nested group .kString str { tag := .kString, group, str }
  | kBlob (blob : Bytes) : Body nested group .kBlob blob { tag := .kBlob, group, blob }
  | kArray {bs pad : Bytes} {count : UInt64} {pieces : List Bytes} {children : List Record}
      (hcount : Reads readVarint bs count) (hlength : pieces.length = count.toNat)
      (h : List.Forall₂ nested pieces children) :
      Body nested group .kArray (bs ++ (pieces.flatten ++ pad)) { tag := .kArray, group, children }
  | kGroup {pieces : List Bytes} {children : List Record} (h : List.Forall₂ nested pieces children) :
      Body nested group .kGroup pieces.flatten { tag := .kGroup, group, children }
  | kKeyval {bs key piece : Bytes} {keyLen : UInt64} {value : Record} (hlen : Reads readVarint bs keyLen)
      (hkey : key.length = keyLen.toNat) (h : nested piece value) :
      Body nested group .kKeyval (bs ++ (key ++ piece))
        { tag := .kKeyval, group, key, children := [value] }

/-- A record's header with the payload it declares. -/
structure Frame where
  tagByte : UInt8
  flags : UInt8
  length : UInt64
  lenBytes : Bytes
  payload : Bytes
  spelled : Reads readVarint lenBytes length
  declared : payload.length = length.toNat

/-- The bytes of the frame: its header and exactly its declared payload. -/
def Frame.bytes (f : Frame) : Bytes := [f.tagByte] ++ ([f.flags] ++ (f.lenBytes ++ f.payload))

def Frame.group (f : Frame) : Bool := f.flags &&& 0x01 ≠ 0

/-- The bytes are an encoding of the record, of at most `room` levels. -/
def Encodes : (room : Nat) → Bytes → Record → Prop
  | 0, _, _ => False
  | room + 1, bs, rec =>
    ∃ (f : Frame) (tag : RecordTag), bs = f.bytes ∧ RecordTag.ofByte? f.tagByte = some tag ∧
      Body (Encodes room) f.group tag f.payload rec

theorem Body.mono {P Q : Bytes → Record → Prop} (hPQ : ∀ bs rec, P bs rec → Q bs rec) {group : Bool}
    {tag : RecordTag} {payload : Bytes} {rec : Record} (h : Body P group tag payload rec) :
    Body Q group tag payload rec := by
  cases h with
  | kInt hspelled => exact .kInt hspelled
  | kUint hspelled => exact .kUint hspelled
  | kFloat hlength => exact .kFloat hlength
  | kString => exact .kString _
  | kBlob => exact .kBlob _
  | kArray hcount hlength hall => exact .kArray hcount hlength (hall.imp hPQ)
  | kGroup hall => exact .kGroup (hall.imp hPQ)
  | kKeyval hlen hkey hvalue => exact .kKeyval hlen hkey (hPQ _ _ hvalue)

/-- More levels of nesting allow more. -/
theorem Encodes.mono {room room' : Nat} (hle : room ≤ room') {bs : Bytes} {rec : Record}
    (h : Encodes room bs rec) : Encodes room' bs rec := by
  induction room generalizing room' bs rec with
  | zero => cases h
  | succ room ih =>
      cases room' with
      | zero => cases hle
      | succ room' =>
          obtain ⟨f, tag, hbs, htag, hbody⟩ := h
          exact ⟨f, tag, hbs, htag, hbody.mono fun _ _ => ih (Nat.le_of_succ_le_succ hle)⟩

theorem Encodes.ne_nil {room : Nat} {bs : Bytes} {rec : Record} (h : Encodes room bs rec) : bs ≠ [] := by
  cases room with
  | zero => cases h
  | succ room =>
      obtain ⟨f, tag, rfl, -⟩ := h
      exact List.cons_ne_nil _ _

/-! ### The parser reads by the grammar -/

/-- The value of a KEYVAL ends with the payload. -/
theorem keyval_of_parsePayload {nested : Reader Record} {P : Bytes → Record → Prop}
    (hnested : Takes nested P) {base : Nat} {group : Bool} {payload : Bytes} {rec : Record} {s : ByteReader}
    (h : parsePayload base nested { tag := .kKeyval, group } { data := payload } = .ok rec s) :
    Body P group .kKeyval payload rec := by
  rcases bind_eq_ok.mp h with ⟨keyLen, t, hvarint, h₁⟩
  rcases bind_eq_ok.mp h₁ with ⟨key, u, hraw, h₂⟩
  rcases bind_eq_ok.mp h₂ with ⟨value, v, hvalue, h₃⟩
  rcases bind_eq_ok.mp h₃ with ⟨r, w, hget, h₄⟩
  cases hget
  have heof : v.eof = true := by
    cases heof : v.eof with
    | true => rfl
    | false =>
        rw [heof] at h₄
        cases h₄
  rw [heof] at h₄
  cases h₄
  rcases takes_readVarint _ _ _ hvarint with ⟨bs, hpayload, -, hreads⟩
  rcases takes_readRaw keyLen.toNat _ _ _ hraw with ⟨_, hkey, -, rfl, hlength⟩
  rcases hnested _ _ _ hvalue with ⟨piece, hpiece, -, hP⟩
  have hpayload : payload = bs ++ t.rest := hpayload
  rw [hpayload, hkey, hpiece, (ByteReader.eof_iff _).mp heof, List.append_nil]
  exact .kKeyval hreads hlength hP

theorem body_of_parsePayload {nested : Reader Record} {P : Bytes → Record → Prop} (hnested : Takes nested P)
    {base : Nat} {tag : RecordTag} {group : Bool} {payload : Bytes} {rec : Record} {s : ByteReader}
    (h : parsePayload base nested { tag, group } { data := payload } = .ok rec s) :
    Body P group tag payload rec := by
  cases tag with
  | kInt =>
      rcases bind_eq_ok.mp h with ⟨v, t, hread, h⟩
      rcases bind_eq_ok.mp hread with ⟨u, t', hvarint, hread⟩
      cases hread
      cases h
      rcases takes_readVarint _ _ _ hvarint with ⟨bs, hpayload, -, hreads⟩
      have hpayload : payload = bs ++ s.rest := hpayload
      rw [hpayload]
      exact .kInt hreads
  | kUint =>
      rcases bind_eq_ok.mp h with ⟨u, t, hvarint, h⟩
      cases h
      rcases takes_readVarint _ _ _ hvarint with ⟨bs, hpayload, -, hreads⟩
      have hpayload : payload = bs ++ s.rest := hpayload
      rw [hpayload]
      exact .kUint hreads
  | kFloat =>
      rcases bind_eq_ok.mp h with ⟨v, t, hread, h⟩
      rcases bind_eq_ok.mp hread with ⟨bits, t', hraw, hread⟩
      cases hread
      cases h
      rcases takes_readRaw 8 _ _ _ hraw with ⟨bs, hpayload, -, rfl, hlength⟩
      have hpayload : payload = bs ++ s.rest := hpayload
      rw [hpayload]
      exact .kFloat hlength
  | kString =>
      rcases bind_eq_ok.mp h with ⟨r, t, hget, h'⟩
      cases hget
      rcases bind_eq_ok.mp h' with ⟨str, t, hraw, h''⟩
      cases h''
      rw [takes_remaining hraw]
      exact .kString payload
  | kBlob =>
      rcases bind_eq_ok.mp h with ⟨r, t, hget, h'⟩
      cases hget
      rcases bind_eq_ok.mp h' with ⟨blob, t, hraw, h''⟩
      cases h''
      rw [takes_remaining hraw]
      exact .kBlob payload
  | kArray =>
      rcases bind_eq_ok.mp h with ⟨count, t, hvarint, h⟩
      rcases bind_eq_ok.mp h with ⟨children, u, htimes, h⟩
      cases h
      rcases takes_readVarint _ _ _ hvarint with ⟨bs, hpayload, rfl, hreads⟩
      rcases hnested.readTimes count.toNat _ _ _ htimes with ⟨_, hrest, -, pieces, rfl, hlength, hall⟩
      have hpayload : payload = bs ++ _ := hpayload
      rw [hpayload, hrest]
      exact .kArray hreads hlength hall
  | kGroup =>
      rcases bind_eq_ok.mp h with ⟨children, t, hstream, h⟩
      cases h
      rcases bind_eq_ok.mp hstream with ⟨r, t, hget, hstream⟩
      cases hget
      rcases hnested.streamLoop _ hstream with ⟨pieces, hpayload, -, -, hall⟩
      have hpayload : payload = pieces.flatten := hpayload
      rw [hpayload]
      exact .kGroup hall
  | kKeyval => exact keyval_of_parsePayload hnested h

/-- A record that is read begins with a frame. -/
theorem parseRecordIn_ok {room base : Nat} {r s : ByteReader} {rec : Record}
    (h : parseRecordIn (room + 1) base r = .ok rec s) :
    ∃ (f : Frame) (tag : RecordTag) (u : ByteReader), r.rest = f.bytes ++ s.rest ∧
      s = r.advance f.bytes.length ∧ RecordTag.ofByte? f.tagByte = some tag ∧
      parsePayload (base + (r.pos + 2 + f.lenBytes.length))
        (parseRecordIn room (base + (r.pos + 2 + f.lenBytes.length))) { tag, group := f.group }
        { data := f.payload } = .ok rec u := by
  rcases bind_eq_ok.mp h with ⟨r₀, t₀, hget, h₁⟩
  cases hget
  rcases bind_eq_ok.mp h₁ with ⟨tagByte, t₁, htag, h₂⟩
  rcases bind_eq_ok.mp h₂ with ⟨flags, t₂, hflags, h₃⟩
  rcases readU8_ok htag with ⟨hrest₁, rfl⟩
  rcases readU8_ok hflags with ⟨hrest₂, rfl⟩
  cases htagByte : RecordTag.ofByte? tagByte with
  | none =>
      rw [htagByte] at h₃
      cases h₃
  | some tag =>
      rw [htagByte] at h₃
      rcases bind_eq_ok.mp h₃ with ⟨length, t₃, hvarint, h₄⟩
      rcases bind_eq_ok.mp h₄ with ⟨r₃, t₄, hget, h₅⟩
      cases hget
      rcases bind_eq_ok.mp h₅ with ⟨payload, t₅, hraw, h₆⟩
      rcases takes_readVarint _ _ _ hvarint with ⟨lenBytes, hrest₃, rfl, hreads⟩
      rcases takes_readRaw _ _ _ _ hraw with ⟨_, hrest₄, rfl, rfl, hlength⟩
      rcases readWithin_ok h₆ with ⟨rfl, u, hpayload⟩
      let f : Frame := ⟨tagByte, flags, length, lenBytes, _, hreads, hlength⟩
      refine ⟨f, tag, u, ?_, ?_, htagByte, ?_⟩
      · rw [hrest₁, hrest₂, hrest₃, hrest₄]
        simp [f, Frame.bytes]
      · simp [f, Frame.bytes]
        congr 1
        omega
      · simpa [f, Frame.group, Nat.add_assoc] using hpayload

theorem takes_parseRecordIn (room base : Nat) : Takes (parseRecordIn room base) (Encodes room) := by
  induction room generalizing base with
  | zero =>
      intro r rec s h
      rcases bind_eq_ok.mp h with ⟨r', t, -, h'⟩
      cases h'
  | succ room ih =>
      intro r rec s h
      rcases parseRecordIn_ok h with ⟨f, tag, u, hr, hs, htag, hpayload⟩
      exact ⟨f.bytes, hr, hs, f, tag, rfl, htag, body_of_parsePayload (ih _) hpayload⟩

/-! ### What the grammar spells is read -/

section Frame

variable {f : Frame} {room base : Nat} {r : ByteReader} {rest : Bytes}

theorem parseRecordIn_badType (hr : r.rest = f.bytes ++ rest) (htag : RecordTag.ofByte? f.tagByte = none) :
    parseRecordIn (room + 1) base r =
      .error (.thrown ⟨.kBadType, base + r.pos, "unknown record tag"⟩) (r.advance 2) := by
  have hrest : r.rest = [f.tagByte] ++ ([f.flags] ++ (f.lenBytes ++ f.payload) ++ rest) := by
    rw [hr, Frame.bytes, List.append_assoc]
  have hrest₁ : (r.advance 1).rest = [f.flags] ++ (f.lenBytes ++ f.payload ++ rest) := by simp [hrest]
  rw [parseRecordIn, bind_of_ok (get_run r), bind_of_ok (reads_readU8 f.tagByte r _ hrest)]
  refine (bind_of_ok (reads_readU8 f.flags _ _ hrest₁)).trans ?_
  rw [htag]
  simp

/-- Of the bytes in front of the cursor only the frame is looked at. -/
theorem parseRecordIn_frame {tag : RecordTag} (hr : r.rest = f.bytes ++ rest)
    (htag : RecordTag.ofByte? f.tagByte = some tag) :
    parseRecordIn (room + 1) base r =
      readWithin f.payload (parsePayload (base + (r.pos + 2 + f.lenBytes.length))
        (parseRecordIn room (base + (r.pos + 2 + f.lenBytes.length))) { tag, group := f.group })
        (r.advance f.bytes.length) := by
  have hrest : r.rest = [f.tagByte] ++ ([f.flags] ++ (f.lenBytes ++ f.payload) ++ rest) := by
    rw [hr, Frame.bytes, List.append_assoc]
  have hrest₁ : (r.advance 1).rest = [f.flags] ++ (f.lenBytes ++ f.payload ++ rest) := by simp [hrest]
  have hrest₂ : (r.advance 2).rest = f.lenBytes ++ (f.payload ++ rest) := by simp [hrest]
  have hrest₃ : ((r.advance 2).advance f.lenBytes.length).rest = f.payload ++ rest := by
    rw [ByteReader.rest_advance, hrest₂, List.drop_left]
  have hpayload := reads_readRaw f.payload _ _ hrest₃
  rw [f.declared] at hpayload
  rw [parseRecordIn, bind_of_ok (get_run r), bind_of_ok (reads_readU8 f.tagByte r _ hrest)]
  refine (bind_of_ok (reads_readU8 f.flags _ _ hrest₁)).trans ?_
  rw [htag]
  refine (bind_of_ok (f.spelled _ _ hrest₂)).trans ?_
  rw [bind_of_ok (get_run _), bind_of_ok hpayload]
  have hlength : 2 + f.lenBytes.length + f.length.toNat = f.bytes.length := by
    simp [Frame.bytes, f.declared]
    omega
  simp [Frame.group, hlength, Nat.add_assoc]

end Frame

theorem readWithin_of_ok {σ α : Type} {data : Bytes} {m : Reader α} {a : α} {u : ByteReader}
    (h : m { data } = .ok a u) (s : σ) : readWithin data m s = .ok a s := by
  rw [readWithin, h]
  rfl

section Pieces

variable {m : Reader Record} {P : Bytes → Record → Prop} {pieces : List Bytes} {recs : List Record}

/-- Pieces and the records they spell, one by one. -/
theorem forall_zip_pieces (hP : ∀ bs rec, P bs rec → bs ≠ [] ∧ Reads m bs rec)
    (h : List.Forall₂ P pieces recs) :
    (∀ x ∈ pieces.zip recs, Reads m x.1 x.2) ∧ (∀ x ∈ pieces.zip recs, x.1 ≠ []) ∧
      (pieces.zip recs).flatMap Prod.fst = pieces.flatten ∧ (pieces.zip recs).map Prod.snd = recs := by
  have hlength := h.length_eq
  refine ⟨fun x hx => ?_, fun x hx => ?_, ?_, List.map_snd_zip hlength.ge⟩
  · exact (hP _ _ ((List.forall₂_iff_zip.mp h).2 hx)).2
  · exact (hP _ _ ((List.forall₂_iff_zip.mp h).2 hx)).1
  · rw [List.flatMap_def, List.map_fst_zip hlength.le]

theorem streamOf_pieces (hP : ∀ bs rec, P bs rec → bs ≠ [] ∧ Reads m bs rec)
    (h : List.Forall₂ P pieces recs) : ∃ s, streamOf m { data := pieces.flatten } = .ok recs s := by
  obtain ⟨hreads, hne, hflatten, hsnd⟩ := forall_zip_pieces hP h
  obtain ⟨s, hs⟩ := streamOf_run hreads hne (r := { data := pieces.flatten }) hflatten.symm
  rw [hsnd] at hs
  exact ⟨s, hs⟩

theorem readTimes_pieces (hP : ∀ bs rec, P bs rec → bs ≠ [] ∧ Reads m bs rec)
    (h : List.Forall₂ P pieces recs) : Reads (readTimes m pieces.length) pieces.flatten recs := by
  obtain ⟨hreads, -, hflatten, hsnd⟩ := forall_zip_pieces hP h
  have hall := reads_readTimes hreads
  rwa [hflatten, hsnd, List.length_zip, ← h.length_eq, Nat.min_self] at hall

/-- The value of a KEYVAL is read to the end of the payload. -/
theorem parsePayload_keyval {base : Nat} {group : Bool} {bs key piece : Bytes} {keyLen : UInt64}
    {value : Record} (hlen : Reads readVarint bs keyLen) (hkey : key.length = keyLen.toNat)
    (hvalue : Reads m piece value) :
    ∃ s, parsePayload base m { tag := .kKeyval, group } { data := bs ++ (key ++ piece) } =
      .ok { tag := .kKeyval, group, key, children := [value] } s := by
  let start : ByteReader := { data := bs ++ (key ++ piece) }
  have hlenRun : readVarint start = .ok keyLen (start.advance bs.length) := hlen start _ rfl
  have hkeyRest : (start.advance bs.length).rest = key ++ piece := by simp [start]
  have hkeyRun := reads_readRaw key _ _ hkeyRest
  have hvalueRest : ((start.advance bs.length).advance key.length).rest = piece ++ [] := by
    rw [ByteReader.rest_advance, hkeyRest, List.drop_left, List.append_nil]
  have hvalueRun := hvalue _ _ hvalueRest
  have heof : (((start.advance bs.length).advance key.length).advance piece.length).eof = true := by
    rw [ByteReader.eof_iff, ByteReader.rest_advance, hvalueRest, List.append_nil, List.drop_length]
  refine ⟨((start.advance bs.length).advance key.length).advance piece.length,
    (bind_of_ok hlenRun).trans ?_⟩
  rw [← hkey]
  refine (bind_of_ok hkeyRun).trans ?_
  rw [bind_of_ok hvalueRun, bind_of_ok (get_run _)]
  simp only [heof, Bool.not_true, Bool.false_eq_true, if_false]
  rfl

theorem parsePayload_of_body (hP : ∀ bs rec, P bs rec → bs ≠ [] ∧ Reads m bs rec) {base : Nat}
    {group : Bool} {tag : RecordTag} {payload : Bytes} {rec : Record} (h : Body P group tag payload rec) :
    ∃ s, parsePayload base m { tag, group } { data := payload } = .ok rec s := by
  cases h with
  | @kInt bs pad u hspelled =>
      have hread : Reads (parsePayload base m { tag := .kInt, group }) bs
          { tag := .kInt, group, i64 := unzigzag u } :=
        (hspelled.map unzigzag).bind_last (Reads.pure _)
      exact ⟨_, hread.run rfl⟩
  | @kUint bs pad u hspelled =>
      have hread : Reads (parsePayload base m { tag := .kUint, group }) bs { tag := .kUint, group, u64 := u } :=
        hspelled.bind_last (Reads.pure _)
      exact ⟨_, hread.run rfl⟩
  | @kFloat bs pad hlength =>
      have hbits := (reads_readRaw bs).map fun bs => UInt64.ofNat (leValue bs)
      rw [hlength] at hbits
      have hread : Reads (parsePayload base m { tag := .kFloat, group }) bs
          { tag := .kFloat, group, f64 := UInt64.ofNat (leValue bs) } :=
        hbits.bind_last (Reads.pure _)
      exact ⟨_, hread.run rfl⟩
  | kString => exact readBytes_remaining payload (Reads.pure _)
  | kBlob => exact readBytes_remaining payload (Reads.pure _)
  | @kArray bs pad count pieces children hcount hlength hall =>
      have htimes := readTimes_pieces hP hall
      rw [hlength] at htimes
      have hread : Reads (parsePayload base m { tag := .kArray, group }) (bs ++ pieces.flatten)
          { tag := .kArray, group, children } :=
        hcount.bind (htimes.bind_last (Reads.pure _))
      exact ⟨_, hread.run (List.append_assoc ..).symm⟩
  | kGroup hall =>
      obtain ⟨s, hs⟩ := streamOf_pieces hP hall
      exact ⟨s, bind_of_ok hs⟩
  | kKeyval hlen hkey hvalue => exact parsePayload_keyval hlen hkey (hP _ _ hvalue).2

end Pieces

theorem Encodes.reads {room : Nat} {bs : Bytes} {rec : Record} (h : Encodes room bs rec) (base : Nat) :
    Reads (parseRecordIn room base) bs rec := by
  induction room generalizing bs rec base with
  | zero => cases h
  | succ room ih =>
      obtain ⟨f, tag, rfl, htag, hbody⟩ := h
      intro r rest hr
      rw [parseRecordIn_frame hr htag]
      obtain ⟨s, hs⟩ := parsePayload_of_body (fun _ _ hnested => ⟨hnested.ne_nil, ih hnested _⟩) hbody
      exact readWithin_of_ok hs _

/-- The grammar derives a record from exactly the bytes the parser reads it off. -/
theorem encodes_iff_reads (room base : Nat) (bs : Bytes) (rec : Record) :
    Encodes room bs rec ↔ Reads (parseRecordIn room base) bs rec := by
  refine ⟨fun h => h.reads base, fun h => ?_⟩
  have hrun := h.run (List.append_nil bs).symm
  obtain ⟨cs, hcs, -, hencodes⟩ := takes_parseRecordIn room base _ _ _ hrun
  have hrest : (ByteReader.advance { data := bs } bs.length).rest = [] := by simp
  rw [hrest, List.append_nil, ByteReader.rest_mk_zero] at hcs
  rwa [hcs]

end Bytewright.Binpack
