import Bytewright.Verification.Binpack.Defects
import Bytewright.Verification.Binpack.Wire

/-! # What the checks of the record parser refuse, as a grammar -/

namespace Bytewright.Binpack

open Bytewright.Common

/-! ### The grammar -/

/-- The bytes spell some record. -/
def IsRecord (room : Nat) (bs : Bytes) : Prop := ∃ rec, Encodes room bs rec

section Payloads

variable (spelled refused : Bytes → Prop)

/-- Records are counted off, and before their number is complete come bytes that are refused. -/
def RefusedTimes (count : Nat) (bs : Bytes) : Prop :=
  ∃ (pieces : List Bytes) (rest : Bytes), bs = pieces.flatten ++ rest ∧ pieces.length < count ∧
    (∀ piece ∈ pieces, spelled piece) ∧ refused rest

/-- Records up to the end of the bytes, of which one is refused. -/
def RefusedStream (bs : Bytes) : Prop :=
  ∃ (pieces : List Bytes) (rest : Bytes), bs = pieces.flatten ++ rest ∧
    (∀ piece ∈ pieces, spelled piece) ∧ rest ≠ [] ∧ refused rest

theorem refusedTimes_succ (count : Nat) (bs : Bytes) :
    RefusedTimes spelled refused (count + 1) bs ↔ refused bs ∨
      ∃ piece rest, bs = piece ++ rest ∧ spelled piece ∧ RefusedTimes spelled refused count rest := by
  constructor
  · rintro ⟨pieces, rest, rfl, hless, hpieces, h⟩
    cases pieces with
    | nil => exact .inl h
    | cons piece pieces =>
        rw [List.forall_mem_cons] at hpieces
        rw [List.flatten_cons, List.append_assoc]
        exact .inr ⟨piece, _, rfl, hpieces.1, pieces, rest, rfl, Nat.lt_of_succ_lt_succ hless, hpieces.2, h⟩
  · rintro (h | ⟨piece, _, rfl, hpiece, pieces, rest, rfl, hless, hpieces, h⟩)
    · exact ⟨[], bs, rfl, Nat.succ_pos count, nofun, h⟩
    · refine ⟨piece :: pieces, rest, ?_, Nat.succ_lt_succ hless, List.forall_mem_cons.mpr ⟨hpiece, hpieces⟩, h⟩
      rw [List.flatten_cons, List.append_assoc]

theorem refusedStream_iff (bs : Bytes) :
    RefusedStream spelled refused bs ↔ bs ≠ [] ∧ (refused bs ∨
      ∃ piece rest, bs = piece ++ rest ∧ spelled piece ∧ RefusedStream spelled refused rest) := by
  constructor
  · rintro ⟨pieces, rest, rfl, hpieces, hrest, h⟩
    refine ⟨List.append_ne_nil_of_right_ne_nil _ hrest, ?_⟩
    cases pieces with
    | nil => exact .inl h
    | cons piece pieces =>
        rw [List.forall_mem_cons] at hpieces
        rw [List.flatten_cons, List.append_assoc]
        exact .inr ⟨piece, _, rfl, hpieces.1, pieces, rest, rfl, hpieces.2, hrest, h⟩
  · rintro ⟨hne, h | ⟨piece, _, rfl, hpiece, pieces, rest, rfl, hpieces, hrest, h⟩⟩
    · exact ⟨[], bs, rfl, nofun, hne, h⟩
    · refine ⟨piece :: pieces, rest, ?_, List.forall_mem_cons.mpr ⟨hpiece, hpieces⟩, hrest, h⟩
      rw [List.flatten_cons, List.append_assoc]

/-- A single record that is refused, or one with bytes behind it. -/
def RefusedValue (bs : Bytes) : Prop :=
  refused bs ∨ ∃ piece rest, bs = piece ++ rest ∧ spelled piece ∧ rest ≠ []

/-- The payloads of a tag in which a check fails, given the records that may be nested in them and the
bytes that are refused as one. Only containers nest. -/
inductive RefusedBody : RecordTag → Bytes → Prop where
  | kArray {bs rest : Bytes} {count : UInt64} (hcount : Reads readVarint bs count)
      (h : RefusedTimes spelled refused count.toNat rest) : RefusedBody .kArray (bs ++ rest)
  | kGroup {payload : Bytes} (h : RefusedStream spelled refused payload) : RefusedBody .kGroup payload
  | kKeyval {bs key rest : Bytes} {keyLen : UInt64} (hlen : Reads readVarint bs keyLen)
      (hkey : key.length = keyLen.toNat) (h : RefusedValue spelled refused rest) :
      RefusedBody .kKeyval (bs ++ (key ++ rest))

end Payloads

/-- A check fails in the record that these bytes begin with, with `room` levels of nesting left: there is
none left, the tag is unknown, or the check fails in the payload. -/
def Refused : (room : Nat) → Bytes → Prop
  | 0, _ => True
  | room + 1, bs =>
    (∃ tagByte flags rest, bs = tagByte :: flags :: rest ∧ RecordTag.ofByte? tagByte = none) ∨
    ∃ (f : Frame) (tag : RecordTag) (rest : Bytes), bs = f.bytes ++ rest ∧
      RecordTag.ofByte? f.tagByte = some tag ∧ RefusedBody (IsRecord room) (Refused room) tag f.payload

/-- A check of the record parser fails in the body of a section. -/
def Refuses (maxDepth : Nat) (body : Bytes) : Prop :=
  RefusedStream (IsRecord (maxDepth + 1)) (Refused (maxDepth + 1)) body

/-! ### Walks that a check stops -/

def ChecksAt {α : Type} (m : Walk α) (r : ByteReader) : Prop :=
  ∃ code pos what s, m r = .error (.check code pos what) s

section Walks

variable {α β : Type} {r : ByteReader} {start : Nat}

theorem checksAt_bind {m : Walk α} {f : α → Walk β} :
    ChecksAt (m >>= f) r ↔ ChecksAt m r ∨ ∃ a s, m r = .ok a s ∧ ChecksAt (f a) s := by
  unfold ChecksAt
  cases hm : m r with
  | ok a s => simp [walk_bind_ok hm]
  | error d s => simp [walk_bind_error hm]

theorem not_checksAt_pure (a : α) : ¬ ChecksAt (pure a : Walk α) r := by
  rintro ⟨code, pos, what, s, h⟩
  cases h

theorem checksAt_throw (code : ErrorCode) (pos : Nat) (what : String) :
    ChecksAt (throw (.check code pos what) : Walk α) r :=
  ⟨code, pos, what, r, rfl⟩

theorem atCursor_eq_ok {m : Reader α} {a : α} {s : ByteReader} :
    atCursor start m r = .ok a s ↔ m r = .ok a s := by
  rw [atCursor]
  cases m r <;> simp

theorem not_checksAt_atCursor (m : Reader α) : ¬ ChecksAt (atCursor start m) r := by
  rintro ⟨code, pos, what, s, h⟩
  rw [atCursor] at h
  cases hm : m r <;> rw [hm] at h <;> cases h

theorem checksAt_atCursor_bind {m : Reader α} {f : α → Walk β} :
    ChecksAt (atCursor start m >>= f) r ↔ ∃ a s, m r = .ok a s ∧ ChecksAt (f a) s := by
  rw [checksAt_bind, or_iff_right (not_checksAt_atCursor m)]
  simp only [atCursor_eq_ok]

theorem checksAt_walkWithin {data : Bytes} {m : Walk α} :
    ChecksAt (walkWithin data m) r ↔ ChecksAt m { data } := by
  unfold ChecksAt
  rw [walkWithin]
  cases m { data } <;> simp

/-- The question goes on behind what a reader takes, where that is exactly what `P` spells. -/
theorem checksAt_takes_bind {m : Reader α} {P : Bytes → α → Prop} (htakes : Takes m P)
    (hreads : ∀ bs a, P bs a → Reads m bs a) {f : α → Walk β} {Q : α → Bytes → Prop}
    (hf : ∀ a s, ChecksAt (f a) s ↔ Q a s.rest) :
    ChecksAt (atCursor start m >>= f) r ↔ ∃ bs rest a, r.rest = bs ++ rest ∧ P bs a ∧ Q a rest := by
  rw [checksAt_atCursor_bind]
  constructor
  · rintro ⟨a, s, hm, h⟩
    obtain ⟨bs, hr, -, hP⟩ := htakes r a s hm
    exact ⟨bs, s.rest, a, hr, hP, (hf a s).mp h⟩
  · rintro ⟨bs, rest, a, hr, hP, hQ⟩
    refine ⟨a, r.advance bs.length, hreads bs a hP r rest hr, (hf a _).mpr ?_⟩
    rwa [ByteReader.rest_advance, hr, List.drop_left]

theorem checksAt_varint_bind {f : UInt64 → Walk β} {Q : UInt64 → Bytes → Prop}
    (hf : ∀ v s, ChecksAt (f v) s ↔ Q v s.rest) :
    ChecksAt (atCursor start readVarint >>= f) r ↔
      ∃ bs rest v, r.rest = bs ++ rest ∧ Reads readVarint bs v ∧ Q v rest :=
  checksAt_takes_bind takes_readVarint (fun _ _ => id) hf

theorem checksAt_raw_bind {n : Nat} {f : Bytes → Walk β} {Q : Bytes → Bytes → Prop}
    (hf : ∀ bs s, ChecksAt (f bs) s ↔ Q bs s.rest) :
    ChecksAt (atCursor start (readRaw n) >>= f) r ↔
      ∃ bs rest, r.rest = bs ++ rest ∧ bs.length = n ∧ Q bs rest := by
  rw [checksAt_takes_bind (takes_readRaw n) (by rintro bs _ ⟨rfl, rfl⟩; exact reads_readRaw bs) hf]
  constructor
  · rintro ⟨bs, rest, _, hr, ⟨rfl, hn⟩, hQ⟩
    exact ⟨bs, rest, hr, hn, hQ⟩
  · rintro ⟨bs, rest, hr, hn, hQ⟩
    exact ⟨bs, rest, bs, hr, ⟨rfl, hn⟩, hQ⟩

end Walks

/-! ### The checks refuse by the grammar -/

/-- What a walk over one record accepts, and what a check stops it at. -/
structure Judges (m : Walk Unit) (spelled refused : Bytes → Prop) : Prop where
  ok (r s : ByteReader) : m r = .ok () s ↔ ∃ bs, r.rest = bs ++ s.rest ∧ s = r.advance bs.length ∧ spelled bs
  checks (r : ByteReader) : ChecksAt m r ↔ refused r.rest
  ne_nil (bs : Bytes) : spelled bs → bs ≠ []

section Loops

variable {m : Walk Unit} {spelled refused : Bytes → Prop} {r : ByteReader}

/-- The first record is refused, or it is accepted and the question is about those behind it. -/
theorem Judges.checks_bind (hm : Judges m spelled refused) {next : Walk Unit} {Q : Bytes → Prop}
    (hnext : ∀ s : ByteReader, s.rest.length < r.rest.length → (ChecksAt next s ↔ Q s.rest)) :
    ChecksAt (m >>= fun _ => next) r ↔
      refused r.rest ∨ ∃ bs rest, r.rest = bs ++ rest ∧ spelled bs ∧ Q rest := by
  have hshorter : ∀ bs (s : ByteReader), spelled bs → r.rest = bs ++ s.rest → s.rest.length < r.rest.length := by
    intro bs s hbs hr
    have hpos := List.length_pos_iff.mpr (hm.ne_nil bs hbs)
    rw [hr, List.length_append]
    omega
  rw [checksAt_bind, hm.checks]
  refine or_congr Iff.rfl ⟨?_, ?_⟩
  · rintro ⟨_, s, hok, hs⟩
    obtain ⟨bs, hr, -, hbs⟩ := (hm.ok r s).mp hok
    exact ⟨bs, s.rest, hr, hbs, (hnext s (hshorter bs s hbs hr)).mp hs⟩
  · rintro ⟨bs, rest, hr, hbs, hQ⟩
    have hrest : (r.advance bs.length).rest = rest := by
      rw [ByteReader.rest_advance, hr, List.drop_left]
    have hr' : r.rest = bs ++ (r.advance bs.length).rest := by rw [hrest, hr]
    refine ⟨(), _, (hm.ok r _).mpr ⟨bs, hr', rfl, hbs⟩, (hnext _ (hshorter bs _ hbs hr')).mpr ?_⟩
    rwa [hrest]

theorem Judges.walkTimes (hm : Judges m spelled refused) (count : Nat) :
    ChecksAt (walkTimes m count) r ↔ RefusedTimes spelled refused count r.rest := by
  induction count generalizing r with
  | zero =>
      refine iff_of_false (not_checksAt_pure ()) ?_
      rintro ⟨pieces, rest, -, hless, -⟩
      exact Nat.not_lt_zero _ hless
  | succ count ih =>
      rw [Binpack.walkTimes, hm.checks_bind fun s _ => ih, refusedTimes_succ]

theorem Judges.walkLoop (hm : Judges m spelled refused) {fuel : Nat} (hfuel : r.rest.length < fuel) :
    ChecksAt (walkLoop m fuel) r ↔ RefusedStream spelled refused r.rest := by
  induction fuel generalizing r with
  | zero => cases hfuel
  | succ fuel ih =>
      have hround : ChecksAt (Binpack.walkLoop m (fuel + 1)) r ↔
          r.rest ≠ [] ∧ ChecksAt (m >>= fun _ => Binpack.walkLoop m fuel) r := by
        change ChecksAt (if r.eof then pure () else m >>= fun _ => Binpack.walkLoop m fuel) r ↔ _
        rw [ne_eq, ← r.eof_iff]
        cases r.eof with
        | true => exact iff_of_false (not_checksAt_pure ()) (by simp)
        | false => simp
      rw [hround, hm.checks_bind fun s hs => @ih s (by omega), refusedStream_iff]

theorem Judges.walkStream (hm : Judges m spelled refused) :
    ChecksAt (walkStream m) r ↔ RefusedStream spelled refused r.rest := by
  have hloop : ChecksAt (Binpack.walkStream m) r ↔ ChecksAt (Binpack.walkLoop m (r.remaining + 1)) r := Iff.rfl
  rw [hloop, hm.walkLoop (by rw [r.remaining_eq]; exact Nat.lt_succ_self _)]

/-- Behind its value a KEYVAL refuses anything. -/
theorem Judges.keyval (hm : Judges m spelled refused) {start : Nat} {code : ErrorCode} {what : String} :
    ChecksAt (do
      m
      let r ← get
      if !r.eof then
        throw (.check code (start + r.pos) what)) r ↔
      RefusedValue spelled refused r.rest := by
  refine hm.checks_bind fun s _ => ?_
  change ChecksAt (if !s.eof then throw (.check code (start + s.pos) what) else pure ()) s ↔ _
  rw [ne_eq, ← s.eof_iff]
  cases s.eof with
  | true => exact iff_of_false (not_checksAt_pure ()) (by simp)
  | false => exact iff_of_true (checksAt_throw _ _ _) (by simp)

theorem Judges.walkPayload (hm : Judges m spelled refused) (start : Nat) (tag : RecordTag) (payload : Bytes) :
    ChecksAt (walkPayload start m tag) { data := payload } ↔ RefusedBody spelled refused tag payload := by
  have hscalar : ∀ {α : Type} (m : Reader α) (r : ByteReader),
      ¬ ChecksAt (do let _ ← atCursor start m) r := by
    intro α m r h
    obtain ⟨a, s, -, h⟩ := checksAt_atCursor_bind.mp h
    exact not_checksAt_pure _ h
  cases tag with
  | kInt | kUint | kFloat | kString | kBlob =>
      refine iff_of_false (hscalar _ _) fun h => ?_
      cases h
  | kArray =>
      refine (checksAt_varint_bind fun count s => hm.walkTimes count.toNat).trans ?_
      constructor
      · rintro ⟨bs, rest, count, hpayload, hcount, h⟩
        have hpayload : payload = bs ++ rest := hpayload
        rw [hpayload]
        exact .kArray hcount h
      · rintro ⟨hcount, h⟩
        exact ⟨_, _, _, rfl, hcount, h⟩
  | kGroup =>
      rw [Binpack.walkPayload, hm.walkStream]
      constructor
      · exact .kGroup
      · intro h
        cases h with
        | kGroup h => exact h
  | kKeyval =>
      have hvalue : ∀ (keyLen : UInt64) (s : ByteReader), ChecksAt (do
          let _ ← atCursor start (readRaw keyLen.toNat)
          m
          let r ← get
          if !r.eof then
            throw (.check .kBadLength (start + r.pos) "trailing bytes after keyval value")) s ↔
          ∃ key rest, s.rest = key ++ rest ∧ key.length = keyLen.toNat ∧ RefusedValue spelled refused rest :=
        fun keyLen s => checksAt_raw_bind fun key t => hm.keyval
      refine (checksAt_varint_bind (Q := fun keyLen bs => ∃ key rest, bs = key ++ rest ∧
        key.length = keyLen.toNat ∧ RefusedValue spelled refused rest) hvalue).trans ?_
      constructor
      · rintro ⟨bs, _, keyLen, hpayload, hlen, key, rest, rfl, hkey, h⟩
        have hpayload : payload = bs ++ (key ++ rest) := hpayload
        rw [hpayload]
        exact .kKeyval hlen hkey h
      · rintro (_ | _ | ⟨hlen, hkey, h⟩)
        exact ⟨_, _, _, rfl, hlen, _, _, rfl, hkey, h⟩

end Loops

theorem walkRecord_ok_iff (room start : Nat) (r s : ByteReader) :
    walkRecord room start r = .ok () s ↔
      ∃ bs, r.rest = bs ++ s.rest ∧ s = r.advance bs.length ∧ IsRecord room bs := by
  have hwalk : walkRecord room start r = .ok () s ↔ ∃ rec, parseRecordIn room (0 + start) r = .ok rec s := by
    have hdone := congrFun (done_parseRecordIn room 0 start) r
    rw [done, bind_run, report] at hdone
    cases hparse : parseRecordIn room (0 + start) r <;> cases hrun : walkRecord room start r <;>
      rw [hparse, hrun] at hdone <;> simp_all
  rw [hwalk]
  constructor
  · rintro ⟨rec, h⟩
    obtain ⟨bs, hr, hs, hencodes⟩ := takes_parseRecordIn room _ r rec s h
    exact ⟨bs, hr, hs, rec, hencodes⟩
  · rintro ⟨bs, hr, rfl, rec, hencodes⟩
    exact ⟨rec, hencodes.reads _ r _ hr⟩

theorem checksAt_readU8_bind {α : Type} {start : Nat} {f : UInt8 → Walk α} {r : ByteReader} :
    ChecksAt (atCursor start readU8 >>= f) r ↔
      ∃ b rest, r.rest = b :: rest ∧ ChecksAt (f b) (r.advance 1) := by
  rw [checksAt_atCursor_bind, readU8_run]
  cases h : r.rest <;> simp

/-- The payload a header declares is refused. -/
theorem checksAt_payload {room start : Nat} {tag : RecordTag} {r : ByteReader}
    (hnested : ∀ inner, Judges (walkRecord room inner) (IsRecord room) (Refused room)) :
    ChecksAt (do
      let length ← atCursor start readVarint
      let payloadOff := (← get).pos
      let payload ← atCursor start (readRaw length.toNat)
      walkWithin payload (walkPayload (start + payloadOff) (walkRecord room (start + payloadOff)) tag)) r ↔
      ∃ bs rest length, r.rest = bs ++ rest ∧ Reads readVarint bs length ∧
        ∃ payload rest', rest = payload ++ rest' ∧ payload.length = length.toNat ∧
          RefusedBody (IsRecord room) (Refused room) tag payload := by
  refine checksAt_varint_bind (Q := fun length rest => ∃ payload rest', rest = payload ++ rest' ∧
    payload.length = length.toNat ∧ RefusedBody (IsRecord room) (Refused room) tag payload) ?_
  intro length s
  refine (checksAt_raw_bind (Q := fun payload _ => RefusedBody (IsRecord room) (Refused room) tag payload)
    fun payload t => ?_)
  rw [checksAt_walkWithin]
  exact (hnested _).walkPayload _ tag payload

theorem judges_walkRecord (room start : Nat) :
    Judges (walkRecord room start) (IsRecord room) (Refused room) := by
  induction room generalizing start with
  | zero =>
      refine ⟨walkRecord_ok_iff 0 start, fun r => iff_of_true (checksAt_throw _ _ _) trivial, ?_⟩
      rintro bs ⟨rec, h⟩
      exact h.ne_nil
  | succ room ih =>
      refine ⟨walkRecord_ok_iff (room + 1) start, fun r => ?_, fun bs ⟨rec, h⟩ => h.ne_nil⟩
      refine checksAt_readU8_bind.trans ?_
      constructor
      · rintro ⟨tagByte, _, hr, h⟩
        obtain ⟨flags, rest, hs, h⟩ := checksAt_readU8_bind.mp h
        rw [ByteReader.rest_advance, hr, List.drop_one, List.tail_cons] at hs
        rw [hs] at hr
        cases htag : RecordTag.ofByte? tagByte with
        | none => exact .inl ⟨tagByte, flags, rest, hr, htag⟩
        | some tag =>
            rw [htag] at h
            obtain ⟨lenBytes, _, length, hlen, hspelled, payload, rest', rfl, hdeclared, hbody⟩ :=
              (checksAt_payload ih).mp h
            have hrest : ((r.advance 1).advance 1).rest = rest := by simp [hr]
            rw [hrest] at hlen
            let f : Frame := ⟨tagByte, flags, length, lenBytes, payload, hspelled, hdeclared⟩
            exact .inr ⟨f, tag, rest', by rw [hr, hlen]; simp [f, Frame.bytes], htag, hbody⟩
      · rintro (⟨tagByte, flags, rest, hr, htag⟩ | ⟨f, tag, rest, hr, htag, hbody⟩)
        · refine ⟨tagByte, _, hr, checksAt_readU8_bind.mpr ⟨flags, rest, by simp [hr], ?_⟩⟩
          rw [htag]
          exact checksAt_throw _ _ _
        · have hr : r.rest = f.tagByte :: f.flags :: (f.lenBytes ++ (f.payload ++ rest)) := by
            rw [hr, Frame.bytes]
            simp
          have hnext : (r.advance 1).rest = f.flags :: (f.lenBytes ++ (f.payload ++ rest)) := by simp [hr]
          refine ⟨f.tagByte, _, hr, checksAt_readU8_bind.mpr ⟨f.flags, _, hnext, ?_⟩⟩
          rw [htag]
          refine (checksAt_payload ih).mpr ⟨f.lenBytes, _, f.length, ?_, f.spelled, f.payload, rest, rfl,
            f.declared, hbody⟩
          simp [hr]

/-- What stops the decoding of a body is a check exactly where the grammar says so. -/
theorem defect?_check_iff (maxDepth : Nat) (body : Bytes) :
    (∃ code pos what, defect? maxDepth body = some (.check code pos what)) ↔ Refuses maxDepth body := by
  have hstream := (judges_walkRecord (maxDepth + 1) 0).walkStream (r := { data := body })
  rw [ChecksAt] at hstream
  refine Iff.trans ?_ hstream
  rw [defect?]
  cases walkStream (walkRecord (maxDepth + 1) 0) { data := body } <;> simp

end Bytewright.Binpack
