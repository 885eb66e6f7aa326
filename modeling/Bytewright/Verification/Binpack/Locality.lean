import Bytewright.Verification.Binpack.Accounting

/-! # Records are framed locally -/

namespace Bytewright.Binpack

open Bytewright.Common Bytewright.Library

/-! ### Cursors that see the same bytes -/

/-- The code of an exception of the source. -/
def codeOf? : Fault → Option ErrorCode
  | .thrown err => some err.code
  | _ => none

/-- From cursors in front of the same bytes, `m` and `n` return the same and move alike, or fail with
the same code. Positions may differ. -/
abbrev Alike {α : Type} (m n : Reader α) : Prop :=
  EndAlike (fun e e' => codeOf? e = codeOf? e') (fun r r' : ByteReader => r.rest = r'.rest) m n

section Alike

variable {α : Type}

theorem alike_raise (code : ErrorCode) (i i' : Nat) (w w' : String) :
    Alike (raise code i w : Reader α) (raise code i' w') :=
  .throw rfl

theorem alike_readU8 : Alike readU8 readU8 := by
  intro r r' h
  rw [readU8_run, readU8_run, ← h]
  split
  · exact .ok (by rw [ByteReader.rest_advance, ByteReader.rest_advance, h])
  · exact .error rfl

theorem alike_readRaw (n : Nat) : Alike (readRaw n) (readRaw n) := by
  intro r r' h
  rw [readRaw_run, readRaw_run, ← h]
  split
  · exact .ok (by rw [ByteReader.rest_advance, ByteReader.rest_advance, h])
  · exact .error rfl

theorem alike_readVarintFrom (start start' left shift : Nat) (acc : UInt64) :
    Alike (readVarintFrom start left shift acc) (readVarintFrom start' left shift acc) := by
  induction left generalizing shift acc with
  | zero => exact alike_raise _ _ _ _ _
  | succ left ih => exact alike_readU8.bind fun b => .ite Iff.rfl (.pure _) (ih _ _)

theorem alike_readVarint : Alike readVarint readVarint :=
  .get_bind fun r r' _ => alike_readVarintFrom r.pos r'.pos 10 0 0

theorem alike_within {m n : Reader α} (h : Alike m n) (data : Bytes) :
    Alike (readWithin data m) (readWithin data n) := by
  intro r r' hr
  have hends := h { data } { data } rfl
  unfold readWithin
  generalize m { data } = x at hends
  generalize n { data } = y at hends
  cases hends with
  | ok _ => exact .ok hr
  | error he => exact .error he

theorem eof_eq_of_rest {r r' : ByteReader} (h : r.rest = r'.rest) : r.eof = r'.eof := by
  rw [r.eof_eq_isEmpty, r'.eof_eq_isEmpty, h]

theorem remaining_eq_of_rest {r r' : ByteReader} (h : r.rest = r'.rest) : r.remaining = r'.remaining := by
  rw [r.remaining_eq, r'.remaining_eq, h]

variable {item item' : Reader α}

theorem alike_readTimes (h : Alike item item') (count : Nat) :
    Alike (readTimes item count) (readTimes item' count) := by
  induction count with
  | zero => exact .pure []
  | succ count ih => exact h.bind fun _ => ih.bind fun _ => .pure _

theorem alike_streamLoop (h : Alike item item') (fuel : Nat) :
    Alike (streamLoop item fuel) (streamLoop item' fuel) := by
  induction fuel with
  | zero => exact .throw rfl
  | succ fuel ih =>
      refine .get_bind fun r r' hr => .ite ?_ (.pure _) (h.bind fun _ => ih.bind fun _ => .pure _)
      rw [eof_eq_of_rest hr]

theorem alike_streamOf (h : Alike item item') : Alike (streamOf item) (streamOf item') := by
  refine .get_bind fun r r' hr => ?_
  rw [remaining_eq_of_rest hr]
  exact alike_streamLoop h _

end Alike

theorem alike_parsePayload {nested nested' : Reader Record} (h : Alike nested nested') (base base' : Nat)
    (rec : Record) : Alike (parsePayload base nested rec) (parsePayload base' nested' rec) := by
  have hrest : ∀ f : Bytes → Record, Alike (do return f (← readRaw (← get).remaining))
      (do return f (← readRaw (← get).remaining)) := by
    refine fun f => .get_bind fun r r' hr => ?_
    rw [remaining_eq_of_rest hr]
    exact (alike_readRaw _).bind fun _ => .pure _
  unfold parsePayload
  cases rec.tag with
  | kInt => exact (alike_readVarint.bind fun _ => .pure _).bind fun _ => .pure _
  | kUint => exact alike_readVarint.bind fun _ => .pure _
  | kFloat => exact ((alike_readRaw 8).bind fun _ => .pure _).bind fun _ => .pure _
  | kString => exact hrest _
  | kBlob => exact hrest _
  | kArray => exact alike_readVarint.bind fun _ => (alike_readTimes h _).bind fun _ => .pure _
  | kGroup => exact (alike_streamOf h).bind fun _ => .pure _
  | kKeyval =>
      refine alike_readVarint.bind fun _ => (alike_readRaw _).bind fun _ => h.bind fun _ => ?_
      refine .get_bind fun r r' hr => .ite ?_ (alike_raise _ _ _ _ _) (.pure _)
      rw [eof_eq_of_rest hr]

/-- The record parser does not see where it is. -/
theorem alike_parseRecordIn (room base base' : Nat) :
    Alike (parseRecordIn room base) (parseRecordIn room base') := by
  induction room generalizing base base' with
  | zero => exact .get_bind fun r r' _ => alike_raise _ _ _ _ _
  | succ room ih =>
      refine .get_bind fun r r' _ => alike_readU8.bind fun tagByte => alike_readU8.bind fun flags => ?_
      cases RecordTag.ofByte? tagByte with
      | none => exact alike_raise _ _ _ _ _
      | some tag =>
          refine alike_readVarint.bind fun length => .get_bind fun s s' _ => ?_
          refine (alike_readRaw _).bind fun payload => alike_within ?_ payload
          exact alike_parsePayload (ih _ _) _ _ _

/-! ### A frame in front of the cursor -/

theorem ends_within {σ α : Type} {R : σ → σ → Prop} {s t : σ} (data : Bytes) (m : Reader α) (h : R s t) :
    Ends (· = ·) R (readWithin data m s) (readWithin data m t) := by
  unfold readWithin
  cases m { data } with
  | ok a u => exact .ok h
  | error e u => exact .error rfl

/-- Whatever follows a frame, a record parser in front of it ends the same: it moves past exactly the
frame, or throws the same exception. -/
theorem parseRecordIn_local (room base : Nat) {f : Frame} {r r' : ByteReader} (hpos : r.pos = r'.pos)
    (hr : f.bytes <+: r.rest) (hr' : f.bytes <+: r'.rest) :
    Ends (· = ·) (fun s s' => s = r.advance f.bytes.length ∧ s' = r'.advance f.bytes.length)
      (parseRecordIn room base r) (parseRecordIn room base r') := by
  rcases hr with ⟨rest, hr⟩
  rcases hr' with ⟨rest', hr'⟩
  cases room with
  | zero =>
      refine .error ?_
      rw [hpos]
  | succ room =>
      cases htag : RecordTag.ofByte? f.tagByte with
      | none =>
          rw [parseRecordIn_badType hr.symm htag, parseRecordIn_badType hr'.symm htag, hpos]
          exact .error rfl
      | some tag =>
          rw [parseRecordIn_frame hr.symm htag, parseRecordIn_frame hr'.symm htag, hpos]
          exact ends_within _ _ ⟨rfl, rfl⟩

/-- A record that was read is read off its frame wherever that lies. -/
theorem parseRecordIn_reads {room base : Nat} {r s : ByteReader} {rec : Record}
    (h : parseRecordIn room base r = .ok rec s) :
    ∃ f : Frame, r.rest = f.bytes ++ s.rest ∧ s = r.advance f.bytes.length ∧
      ∀ base', Reads (parseRecordIn room base') f.bytes rec := by
  rcases takes_parseRecordIn room base r rec s h with ⟨bs, hr, hs, hencodes⟩
  cases room with
  | zero => cases h
  | succ room =>
      rcases hencodes with ⟨f, tag, rfl, hspelled⟩
      exact ⟨f, hr, hs, Encodes.reads ⟨f, tag, rfl, hspelled⟩⟩

/-! ### Streams one after another -/

section Streams

variable {α : Type} {item : Reader α}

theorem streamLoop_fuel (hlower : Lowers ByteReader.remaining 1 item) {fuel fuel' : Nat} {r : ByteReader}
    (hfuel : r.remaining < fuel) (hfuel' : r.remaining < fuel') :
    streamLoop item fuel r = streamLoop item fuel' r := by
  induction fuel generalizing fuel' r with
  | zero => cases hfuel
  | succ fuel ih =>
      cases fuel' with
      | zero => cases hfuel'
      | succ fuel' =>
          rw [streamLoop, streamLoop, bind_of_ok (get_run r), bind_of_ok (get_run r), ite_run, ite_run]
          cases hrun : item r with
          | error e t => rw [bind_of_error hrun, bind_of_error hrun]
          | ok a t =>
              have hrest := hlower _ _ _ hrun
              rw [bind_of_ok hrun, bind_of_ok hrun, bind_run, bind_run,
                @ih fuel' t (by omega) (by omega)]

/-- One round of the stream. -/
theorem streamOf_cons (hlower : Lowers ByteReader.remaining 1 item) {r s : ByteReader} {a : α}
    (h : item r = .ok a s) (hr : r.rest ≠ []) :
    streamOf item r = (do return a :: (← streamOf item)) s := by
  have heof : ¬ r.eof = true := fun heof => hr (r.eof_iff.mp heof)
  have hrest := hlower _ _ _ h
  have hloop : streamLoop item r.remaining s = streamOf item s :=
    streamLoop_fuel hlower (by omega) (Nat.lt_succ_self _)
  have hround : streamOf item r = streamLoop item (r.remaining + 1) r := rfl
  rw [hround, streamLoop, bind_of_ok (get_run r), if_neg heof, bind_of_ok h, bind_run, hloop, ← bind_run]

theorem streamOf_append (hlower : Lowers ByteReader.remaining 1 item) {pieces : List Bytes} {as : List α}
    (h : List.Forall₂ (fun bs a => bs ≠ [] ∧ Reads item bs a) pieces as) {r : ByteReader} {rest : Bytes}
    (hr : r.rest = pieces.flatten ++ rest) :
    streamOf item r = (do return as ++ (← streamOf item)) (r.advance pieces.flatten.length) := by
  induction h generalizing r with
  | nil =>
      rw [bind_run]
      cases hrun : streamOf item r <;> simp [hrun]
  | @cons bs a pieces as hhead _ ih =>
      rw [List.flatten_cons, List.append_assoc] at hr
      have hrun := hhead.2 r _ hr
      have hne : r.rest ≠ [] := by
        rw [hr]
        exact List.append_ne_nil_of_left_ne_nil hhead.1 _
      rw [streamOf_cons hlower hrun hne, bind_run, ih (by simp [hr]), ByteReader.advance_advance,
        List.flatten_cons, List.length_append, bind_run, bind_run]
      cases streamOf item (r.advance (bs.length + pieces.flatten.length)) <;> rfl

end Streams

/-- `m` returns `a` from `r`. -/
def ReturnsAt {α : Type} (m : Reader α) (r : ByteReader) (a : α) : Prop := ∃ s, m r = .ok a s

/-- `m` throws an exception of this code from `r`. -/
def ThrowsAt {α : Type} (m : Reader α) (r : ByteReader) (code : ErrorCode) : Prop :=
  ∃ i w s, m r = .error (.thrown ⟨code, i, w⟩) s

section Outcomes

variable {α β : Type} {m n : Reader α} {r r' : ByteReader}

theorem returnsAt_iff_of_ends {R : ByteReader → ByteReader → Prop}
    (h : Ends (fun e e' => codeOf? e = codeOf? e') R (m r) (n r')) (a : α) :
    ReturnsAt m r a ↔ ReturnsAt n r' a := by
  unfold ReturnsAt
  generalize m r = x at h
  generalize n r' = y at h
  cases h with
  | ok h => simp
  | error h => simp

theorem throwsAt_iff_of_ends {R : ByteReader → ByteReader → Prop}
    (h : Ends (fun e e' => codeOf? e = codeOf? e') R (m r) (n r')) (code : ErrorCode) :
    ThrowsAt m r code ↔ ThrowsAt n r' code := by
  have hcode : ∀ e : Fault, (∃ i w, e = .thrown ⟨code, i, w⟩) ↔ codeOf? e = some code := by
    intro e
    cases e with
    | thrown err =>
        cases err
        simp [codeOf?]
    | undefined | diverged => simp [codeOf?]
  unfold ThrowsAt
  generalize m r = x at h
  generalize n r' = y at h
  cases h with
  | ok h => simp
  | @error e e' s t h =>
      have hiff : codeOf? e = some code ↔ codeOf? e' = some code := by rw [h]
      simpa [hcode] using hiff

theorem returnsAt_map (g : α → β) (b : β) :
    ReturnsAt (do return g (← m)) r b ↔ ∃ a, ReturnsAt m r a ∧ b = g a := by
  unfold ReturnsAt
  rw [bind_run]
  cases m r <;> simp [eq_comm]

theorem throwsAt_map (g : α → β) (code : ErrorCode) :
    ThrowsAt (do return g (← m)) r code ↔ ThrowsAt m r code := by
  unfold ThrowsAt
  rw [bind_run]
  cases m r <;> simp

end Outcomes

/-- A stream in front of more bytes is read first, and then what follows it. -/
theorem parseStream_front {maxDepth base depth : Nat} {a b : Bytes} {recs : List Record} {s : ByteReader}
    (h : parseStream maxDepth base depth { data := a } = .ok recs s) :
    parseStream maxDepth base depth { data := a ++ b } =
      (do return recs ++ (← parseStream maxDepth base depth))
        (ByteReader.advance { data := a ++ b } a.length) := by
  have hlower : Lowers ByteReader.remaining 1 (parseRecord maxDepth base depth) :=
    (lowers_parseRecordIn _ base).mono (by omega)
  have htakes : Takes (parseRecord maxDepth base depth)
      fun bs rec => bs ≠ [] ∧ Reads (parseRecord maxDepth base depth) bs rec := by
    intro r rec s hrun
    rcases parseRecordIn_reads hrun with ⟨f, hr, hs, hreads⟩
    have hlength := f.length_bytes
    exact ⟨f.bytes, hr, hs, List.ne_nil_of_length_pos (by omega), hreads base⟩
  rcases htakes.streamLoop _ h with ⟨pieces, ha, -, -, hall⟩
  have ha : a = pieces.flatten := ha
  have hrest : ByteReader.rest { data := a ++ b } = pieces.flatten ++ b := by
    rw [← ha]
    rfl
  have hfront := streamOf_append hlower hall hrest
  rw [← ha] at hfront
  exact hfront

/-- Behind a stream the parser ends as it does on what follows alone. -/
theorem parseStream_ends {maxDepth base depth : Nat} {a b : Bytes} {recs : List Record} {s : ByteReader}
    (h : parseStream maxDepth base depth { data := a } = .ok recs s) :
    Ends (fun e e' => codeOf? e = codeOf? e') (fun _ _ => True)
      (parseStream maxDepth base depth { data := a ++ b })
      ((do return recs ++ (← parseStream maxDepth base depth)) { data := b }) := by
  have hrest : (ByteReader.advance { data := a ++ b } a.length).rest = b := by simp
  have halike := alike_streamOf (alike_parseRecordIn (maxDepth + 1 - depth) base base) _ { data := b } hrest
  rw [parseStream_front h]
  exact halike.bind fun _ _ _ _ => .ok trivial

/-- A stream followed by more bytes is read as the stream, and then as they are on their own; it fails
exactly when they do, with the same code. A record is read off its header and the payload that this
declares, and what follows makes no difference to how that ends. -/
theorem parseStream_append (maxDepth base depth : Nat) :
    (∀ a recs, ReturnsAt (parseStream maxDepth base depth) { data := a } recs → ∀ b,
      (∀ out, ReturnsAt (parseStream maxDepth base depth) { data := a ++ b } out ↔
        ∃ recs', ReturnsAt (parseStream maxDepth base depth) { data := b } recs' ∧ out = recs ++ recs') ∧
      ∀ code, ThrowsAt (parseStream maxDepth base depth) { data := a ++ b } code ↔
        ThrowsAt (parseStream maxDepth base depth) { data := b } code) ∧
    (∀ r rec s, parseRecord maxDepth base depth r = .ok rec s →
      ∃ f : Frame, r.rest = f.bytes ++ s.rest ∧ s = r.advance f.bytes.length) ∧
    ∀ (f : Frame) (r r' : ByteReader), r.pos = r'.pos → f.bytes <+: r.rest → f.bytes <+: r'.rest →
      Ends (· = ·) (fun s s' => s = r.advance f.bytes.length ∧ s' = r'.advance f.bytes.length)
        (parseRecord maxDepth base depth r) (parseRecord maxDepth base depth r') := by
  refine ⟨?_, fun r rec s h => ?_, fun f r r' => parseRecordIn_local _ base⟩
  · rintro a recs ⟨s, h⟩ b
    have hends := parseStream_ends h (b := b)
    refine ⟨fun out => ?_, fun code => ?_⟩
    · rw [returnsAt_iff_of_ends hends, returnsAt_map]
    · rw [throwsAt_iff_of_ends hends, throwsAt_map]
  · rcases parseRecordIn_reads h with ⟨f, hr, hs, -⟩
    exact ⟨f, hr, hs⟩

/-- A UINT record, and then one that is cut short. -/
theorem parseStream_append_cut :
    ThrowsAt (parseStream 32 40 0) { data := [2, 0, 1, 5] ++ [2, 0, 3, 7] } .kShortRead := by
  have hstream : ReturnsAt (parseStream 32 40 0) { data := [2, 0, 1, 5] } [{ tag := .kUint, u64 := 5 }] :=
    ⟨_, rfl⟩
  have hcut : ThrowsAt (parseStream 32 40 0) { data := [2, 0, 3, 7] } .kShortRead := ⟨_, _, _, rfl⟩
  exact (((parseStream_append 32 40 0).1 _ _ hstream _).2 .kShortRead).mpr hcut

end Bytewright.Binpack
