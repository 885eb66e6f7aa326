import Bytewright.Model.Binpack.RecordParser
import Bytewright.Verification.Common.Varint

/-! # What stops the record decoder

A walk over the bytes of a body, in positions of the body, that the decoder is compared with. -/

namespace Bytewright.Binpack

open Bytewright.Common

/-! ### What stops the decoder -/

/-- What stops the record decoder, in positions of the body it decodes. -/
inductive Defect where
  /-- The byte cursor over the payload that starts at `start` fails. The fault's own position is one
  of that payload. -/
  | cursor (start : Nat) (fault : Fault)
  /-- A check of the record parser fails. -/
  | check (code : ErrorCode) (pos : Nat) (what : String)
  deriving DecidableEq, Repr

/-- The fault it surfaces as when the body lies at the file offset `o`: only the record parser's own
positions are translated. -/
def Defect.reported (o : Nat) : Defect → Fault
  | .cursor _ fault => fault
  | .check code pos what => .thrown ⟨code, o + pos, what⟩

/-- A walk over a body that builds nothing. -/
abbrev Walk := EStateM Defect ByteReader

def atCursor {α : Type} (start : Nat) (m : Reader α) : Walk α := fun r =>
  match m r with
  | .ok a s => .ok a s
  | .error e s => .error (.cursor start e) s

def walkWithin {α : Type} (data : Bytes) (m : Walk α) : Walk α := fun r =>
  match m { data } with
  | .ok a _ => .ok a r
  | .error d _ => .error d r

def walkLoop (item : Walk Unit) : (fuel : Nat) → Walk Unit
  | 0 => throw (.cursor 0 .diverged)
  | fuel + 1 => do
    if (← get).eof then return ()
    item
    walkLoop item fuel

def walkStream (item : Walk Unit) : Walk Unit := do
  walkLoop item ((← get).remaining + 1)

def walkTimes (item : Walk Unit) : (count : Nat) → Walk Unit
  | 0 => return ()
  | count + 1 => do
    item
    walkTimes item count

/-- A payload that starts at `start`. -/
def walkPayload (start : Nat) (nested : Walk Unit) : RecordTag → Walk Unit
  | .kInt | .kUint => do
    let _ ← atCursor start readVarint
  | .kFloat => do
    let _ ← atCursor start (readRaw 8)
  | .kString | .kBlob => do
    let _ ← atCursor start (readRaw (← get).remaining)
  | .kArray => do
    let count ← atCursor start readVarint
    walkTimes nested count.toNat
  | .kGroup => walkStream nested
  | .kKeyval => do
    let keyLen ← atCursor start readVarint
    let _ ← atCursor start (readRaw keyLen.toNat)
    nested
    let r ← get
    if !r.eof then
      throw (.check .kBadLength (start + r.pos) "trailing bytes after keyval value")

/-- One record out of the payload that starts at `start`, with `room` levels of nesting left. -/
def walkRecord : (room : Nat) → (start : Nat) → Walk Unit
  | 0, start => do
    let r ← get
    throw (.check .kDepthExceeded (start + r.pos) "record nesting exceeded max depth")
  | room + 1, start => do
    let recOff := (← get).pos
    let tagByte ← atCursor start readU8
    let _ ← atCursor start readU8
    let some tag := RecordTag.ofByte? tagByte
      | throw (.check .kBadType (start + recOff) "unknown record tag")
    let length ← atCursor start readVarint
    let payloadOff := (← get).pos
    let payload ← atCursor start (readRaw length.toNat)
    let inner := start + payloadOff
    walkWithin payload (walkPayload inner (walkRecord room inner) tag)

/-- What stops the decoding of a section's body, if anything does. -/
def defect? (maxDepth : Nat) (body : Bytes) : Option Defect :=
  match walkStream (walkRecord (maxDepth + 1) 0) { data := body } with
  | .ok _ _ => none
  | .error d _ => some d

/-! ### The decoder reports what the walk finds -/

section Report

variable {α β : Type} (o : Nat)

/-- The walk with its defects reported. -/
def report (m : Walk α) : Reader α := fun r =>
  match m r with
  | .ok a s => .ok a s
  | .error d s => .error (d.reported o) s

theorem report_pure (a : α) : report o (pure a : Walk α) = pure a := rfl

theorem report_get : report o (get : Walk ByteReader) = get := rfl

theorem report_throw (d : Defect) : report o (throw d : Walk α) = throw (d.reported o) := rfl

theorem report_bind (m : Walk α) (f : α → Walk β) :
    report o (m >>= f) = report o m >>= fun a => report o (f a) := by
  funext r
  rw [bind_run, report, report]
  cases h : m r <;> simp [bind, EStateM.bind, h, report]

theorem report_ite (c : Prop) [Decidable c] (m n : Walk α) :
    report o (if c then m else n) = if c then report o m else report o n := by
  split <;> rfl

theorem report_atCursor (start : Nat) (m : Reader α) : report o (atCursor start m) = m := by
  funext r
  rw [report, atCursor]
  cases m r <;> rfl

theorem report_walkWithin (data : Bytes) (m : Walk α) :
    report o (walkWithin data m) = readWithin data (report o m) := by
  funext r
  rw [report, walkWithin, readWithin, report]
  cases m { data } <;> rfl

/-- Run `m` for its faults. -/
def done (m : Reader α) : Reader Unit := m >>= fun _ => pure ()

theorem done_pure (a : α) : done (pure a : Reader α) = pure () := by
  rw [done, pure_bind]

theorem done_bind (m : Reader α) (f : α → Reader β) : done (m >>= f) = m >>= fun a => done (f a) := by
  rw [done, bind_assoc]
  rfl

theorem done_ite (c : Prop) [Decidable c] (m n : Reader α) :
    done (if c then m else n) = if c then done m else done n := by
  split <;> rfl

theorem done_raise (code : ErrorCode) (start pos : Nat) (what : String) :
    done (raise code (o + start + pos) what : Reader α) =
      report o (throw (.check code (start + pos) what)) := by
  rw [report_throw, Defect.reported, ← Nat.add_assoc]
  rfl

theorem done_readWithin (data : Bytes) (m : Reader α) :
    done (readWithin data m : Reader α) = readWithin data (done m) := by
  funext r
  rw [done, bind_run, readWithin, readWithin, done, bind_run]
  cases m { data } <;> rfl

/-- A continuation that ignores the result sees the faults only. -/
theorem bind_const (m : Reader α) (k : Reader β) : (m >>= fun _ => k) = done m >>= fun _ => k := by
  rw [done, bind_assoc]
  simp

variable {o} {item : Reader α} {item' : Walk Unit}

theorem done_readTimes (h : done item = report o item') (count : Nat) :
    done (readTimes item count) = report o (walkTimes item' count) := by
  induction count with
  | zero => rfl
  | succ count ih =>
      rw [readTimes, walkTimes, report_bind, done_bind, ← ih, ← h]
      simp only [done_bind, done_pure]
      exact bind_const item _

theorem done_streamLoop (h : done item = report o item') (fuel : Nat) :
    done (streamLoop item fuel) = report o (walkLoop item' fuel) := by
  induction fuel with
  | zero => rfl
  | succ fuel ih =>
      rw [streamLoop, walkLoop, report_bind, done_bind, report_get]
      refine congrArg (get >>= ·) (funext fun r => ?_)
      rw [report_ite, report_bind, ← ih, ← h]
      split
      · rfl
      · simp only [done_bind, done_pure]
        exact bind_const item _

theorem done_streamOf (h : done item = report o item') :
    done (streamOf item) = report o (walkStream item') := by
  rw [streamOf, walkStream, report_bind, done_bind, report_get]
  exact congrArg (get >>= ·) (funext fun r => done_streamLoop h _)

end Report

theorem done_parsePayload {o start : Nat} {nested : Reader Record} {nested' : Walk Unit}
    (h : done nested = report o nested') (rec : Record) :
    done (parsePayload (o + start) nested rec) = report o (walkPayload start nested' rec.tag) := by
  unfold parsePayload
  cases rec.tag with
  | kInt =>
      simp only [walkPayload, readSvarint, report_bind, report_atCursor, done_bind, done_pure,
        bind_assoc, pure_bind]
      rfl
  | kUint =>
      simp only [walkPayload, report_bind, report_atCursor, done_bind, done_pure]
      rfl
  | kFloat =>
      simp only [walkPayload, readU64le, report_bind, report_atCursor, done_bind, done_pure,
        bind_assoc, pure_bind]
      rfl
  | kString =>
      simp only [walkPayload, readString, report_bind, report_atCursor, report_get, done_bind, done_pure]
      rfl
  | kBlob =>
      simp only [walkPayload, readBytes, report_bind, report_atCursor, report_get, done_bind, done_pure]
      rfl
  | kArray =>
      simp only [walkPayload, report_bind, report_atCursor, done_bind, done_pure]
      refine congrArg (readVarint >>= ·) (funext fun count => ?_)
      exact done_readTimes h count.toNat
  | kGroup =>
      simp only [walkPayload, done_bind, done_pure]
      exact done_streamOf h
  | kKeyval =>
      simp only [walkPayload, readString, report_bind, report_atCursor, report_get, done_bind]
      refine congrArg (readVarint >>= ·) (funext fun keyLen => ?_)
      refine congrArg (readRaw keyLen.toNat >>= ·) (funext fun key => ?_)
      simp only [report_ite, report_pure, done_ite, done_bind, done_pure]
      rw [← h, ← bind_const]
      refine congrArg (nested >>= ·) (funext fun value => congrArg (get >>= ·) (funext fun r => ?_))
      rw [← done_raise]
      rfl

theorem done_parseRecordIn (room : Nat) (o start : Nat) :
    done (parseRecordIn room (o + start)) = report o (walkRecord room start) := by
  induction room generalizing start with
  | zero =>
      rw [parseRecordIn, walkRecord, report_bind, report_get, done_bind]
      exact congrArg (get >>= ·) (funext fun r => done_raise o _ start r.pos _)
  | succ room ih =>
      simp only [parseRecordIn, walkRecord, report_bind, report_get, report_atCursor, done_bind]
      refine congrArg (get >>= ·) (funext fun r => ?_)
      refine congrArg (readU8 >>= ·) (funext fun tagByte => ?_)
      refine congrArg (readU8 >>= ·) (funext fun flags => ?_)
      cases RecordTag.ofByte? tagByte with
      | none => exact done_raise o _ start r.pos _
      | some tag =>
          simp only [report_bind, report_get, report_atCursor, report_walkWithin, done_bind,
            done_readWithin, Nat.add_assoc o start]
          refine congrArg (readVarint >>= ·) (funext fun length => ?_)
          refine congrArg (get >>= ·) (funext fun r' => ?_)
          refine congrArg (readRaw length.toNat >>= ·) (funext fun payload => ?_)
          exact congrArg (readWithin payload) (done_parsePayload (ih _) _)

/-- What the decoder throws on a body is what the walk finds there, reported. -/
theorem parseStream_error {maxDepth o : Nat} {body : Bytes} {e : Fault} {s : ByteReader}
    (h : parseStream maxDepth o 0 { data := body } = .error e s) :
    ∃ d, defect? maxDepth body = some d ∧ e = d.reported o := by
  have hdone : done (parseStream maxDepth o 0) = report o (walkStream (walkRecord (maxDepth + 1) 0)) :=
    done_streamOf (done_parseRecordIn (maxDepth + 1) o 0)
  have hrun := congrFun hdone { data := body }
  rw [done, bind_of_error h, report] at hrun
  rw [defect?]
  cases hwalk : walkStream (walkRecord (maxDepth + 1) 0) { data := body } with
  | ok a t =>
      rw [hwalk] at hrun
      cases hrun
  | error d t =>
      rw [hwalk] at hrun
      cases hrun
      exact ⟨d, rfl, rfl⟩

/-! ### No position lies behind the body -/

/-- The place a defect is found at, where it has one, lies in the body. -/
def Defect.Within (n : Nat) : Defect → Prop
  | .cursor start (.thrown e) => start + e.offset ≤ n
  | .cursor _ _ => True
  | .check _ pos _ => pos ≤ n

/-- A reader that keeps its cursor in the buffer, and reports positions of it. -/
def Contained {α : Type} (m : Reader α) : Prop :=
  ∀ r, r.pos ≤ r.size →
    (∀ a s, m r = .ok a s → s.data = r.data ∧ s.pos ≤ s.size) ∧
    ∀ e s, m r = .error (.thrown e) s → e.offset ≤ r.size

theorem contained_readU8 : Contained readU8 := by
  intro r hr
  rw [readU8_run]
  split
  · next b bs hrest =>
    have hlen := congrArg List.length hrest
    rw [ByteReader.rest, List.length_drop, List.length_cons] at hlen
    refine ⟨fun a s h => ?_, fun e s h => by cases h⟩
    cases h
    exact ⟨rfl, by simp only [ByteReader.size, ByteReader.advance]; omega⟩
  · refine ⟨fun a s h => (by cases h), fun e s h => ?_⟩
    cases h
    exact hr

theorem contained_readRaw (n : Nat) : Contained (readRaw n) := by
  intro r hr
  rw [readRaw_run]
  split
  · next hn =>
    rw [ByteReader.rest, List.length_drop] at hn
    refine ⟨fun a s h => ?_, fun e s h => by cases h⟩
    cases h
    exact ⟨rfl, by simp only [ByteReader.size, ByteReader.advance] at hr ⊢; omega⟩
  · refine ⟨fun a s h => (by cases h), fun e s h => ?_⟩
    cases h
    exact hr

/-- The loop blames the position it was entered at. -/
theorem contained_readVarintFrom {start : Nat} {r : ByteReader} (left shift : Nat) (acc : UInt64)
    (hstart : start ≤ r.size) (hr : r.pos ≤ r.size) :
    (∀ a s, readVarintFrom start left shift acc r = .ok a s → s.data = r.data ∧ s.pos ≤ s.size) ∧
    ∀ e s, readVarintFrom start left shift acc r = .error (.thrown e) s → e.offset ≤ r.size := by
  induction left generalizing r shift acc with
  | zero =>
      refine ⟨fun a s h => (by cases h), fun e s h => ?_⟩
      cases h
      exact hstart
  | succ left ih =>
      obtain ⟨hok, herror⟩ := contained_readU8 r hr
      rw [readVarintFrom, bind_run]
      cases hread : readU8 r with
      | error e t =>
          refine ⟨fun a s h => (by cases h), fun e' s h => ?_⟩
          cases h
          exact herror _ _ hread
      | ok b t =>
          obtain ⟨hdata, ht⟩ := hok _ _ hread
          have hsize : t.size = r.size := congrArg List.length hdata
          dsimp only
          rw [ite_run]
          split
          · refine ⟨fun a s h => ?_, fun e s h => by cases h⟩
            cases h
            exact ⟨hdata, ht⟩
          · rw [← hdata, ← hsize]
            exact ih _ _ (hsize ▸ hstart) ht

theorem contained_readVarint : Contained readVarint :=
  fun _ hr => contained_readVarintFrom 10 0 0 hr hr

theorem walk_bind_ok {α β : Type} {m : Walk α} {f : α → Walk β} {r s : ByteReader} {a : α}
    (h : m r = .ok a s) : (m >>= f) r = f a s := by
  simp [bind, EStateM.bind, h]

theorem walk_bind_error {α β : Type} {m : Walk α} {f : α → Walk β} {r s : ByteReader} {d : Defect}
    (h : m r = .error d s) : (m >>= f) r = .error d s := by
  simp [bind, EStateM.bind, h]

theorem atCursor_ok {α : Type} {start : Nat} {m : Reader α} {r s : ByteReader} {a : α}
    (h : atCursor start m r = .ok a s) : m r = .ok a s := by
  rw [atCursor] at h
  cases hrun : m r with
  | ok b t =>
      rw [hrun] at h
      cases h
      rfl
  | error e t =>
      rw [hrun] at h
      cases h

/-- A walk, over a payload that starts at `start` in a body of `n` bytes, that does so. -/
def Inside {α : Type} (n start : Nat) (m : Walk α) : Prop :=
  ∀ r, r.pos ≤ r.size → start + r.size ≤ n →
    (∀ a s, m r = .ok a s → s.data = r.data ∧ s.pos ≤ s.size) ∧
    ∀ d s, m r = .error d s → d.Within n

namespace Inside

variable {α β : Type} {n start : Nat}

theorem pure (a : α) : Inside n start (Pure.pure a : Walk α) := by
  intro r hr hn
  refine ⟨fun b s h => ?_, fun d s h => by cases h⟩
  cases h
  exact ⟨rfl, hr⟩

theorem throw {d : Defect} (hd : d.Within n) : Inside n start (throw d : Walk α) := by
  intro r hr hn
  refine ⟨fun b s h => (by cases h), fun d' s h => ?_⟩
  cases h
  exact hd

theorem bind {m : Walk α} {f : α → Walk β} (hm : Inside n start m) (hf : ∀ a, Inside n start (f a)) :
    Inside n start (m >>= f) := by
  intro r hr hn
  obtain ⟨hok, herror⟩ := hm r hr hn
  cases hrun : m r with
  | error d t =>
      rw [walk_bind_error hrun]
      refine ⟨fun b s h => (by cases h), fun d' s h => ?_⟩
      cases h
      exact herror _ _ hrun
  | ok a t =>
      obtain ⟨hdata, ht⟩ := hok _ _ hrun
      have hsize : t.size = r.size := congrArg List.length hdata
      rw [walk_bind_ok hrun, ← hdata]
      exact hf a t ht (hsize ▸ hn)

/-- What is looked at is a cursor in the payload. -/
theorem get_bind {f : ByteReader → Walk β}
    (hf : ∀ r, r.pos ≤ r.size → start + r.size ≤ n → Inside n start (f r)) :
    Inside n start (get >>= f) :=
  fun r hr hn => hf r hr hn r hr hn

theorem ite {c : Prop} [Decidable c] {m m' : Walk α} (hm : Inside n start m)
    (hm' : Inside n start m') : Inside n start (if c then m else m') := by
  split
  · exact hm
  · exact hm'

theorem atCursor {m : Reader α} (hm : Contained m) : Inside n start (atCursor start m) := by
  intro r hr hn
  obtain ⟨hok, herror⟩ := hm r hr
  rw [Binpack.atCursor]
  cases hrun : m r with
  | ok a t =>
      refine ⟨fun b s h => ?_, fun d s h => by cases h⟩
      cases h
      exact hok _ _ hrun
  | error e t =>
      refine ⟨fun b s h => (by cases h), fun d s h => ?_⟩
      cases h
      cases e with
      | thrown p => exact (Nat.add_le_add_left (herror _ _ hrun) start).trans hn
      | _ => exact trivial

/-- The payload under the cursor is walked from where it starts. -/
theorem payload {m : Nat → Walk Unit} (hm : ∀ inner, Inside n inner (m inner)) (length : Nat) :
    Inside n start (do
      let payloadOff := (← get).pos
      let bytes ← Binpack.atCursor start (readRaw length)
      walkWithin bytes (m (start + payloadOff))) := by
  intro r hr hn
  obtain ⟨hok, herror⟩ := (atCursor (contained_readRaw length)) r hr hn
  rw [walk_bind_ok (rfl : (get : Walk ByteReader) r = .ok r r)]
  cases hrun : Binpack.atCursor start (readRaw length) r with
  | error d t =>
      rw [walk_bind_error hrun]
      refine ⟨fun b s h => (by cases h), fun d' s h => ?_⟩
      cases h
      exact herror _ _ hrun
  | ok bytes t =>
      rw [walk_bind_ok hrun]
      obtain ⟨hdata, ht⟩ := hok _ _ hrun
      obtain ⟨rfl, -⟩ := readRaw_at (atCursor_ok hrun)
      have hfit : start + r.pos + (r.rest.take length).length ≤ n := by
        rw [List.length_take, ByteReader.rest, List.length_drop]
        have hsize : r.size = r.data.length := rfl
        omega
      obtain ⟨-, hwithin⟩ := hm (start + r.pos) { data := r.rest.take length } (Nat.zero_le _) hfit
      rw [walkWithin]
      cases hinner : m (start + r.pos) { data := r.rest.take length } with
      | ok b u =>
          refine ⟨fun b' s h => ?_, fun d s h => (by cases h)⟩
          cases h
          exact ⟨hdata, ht⟩
      | error d u =>
          refine ⟨fun b s h => (by cases h), fun d' s h => ?_⟩
          cases h
          exact hwithin _ _ hinner

theorem walkTimes {item : Walk Unit} (h : Inside n start item) (count : Nat) :
    Inside n start (walkTimes item count) := by
  induction count with
  | zero => exact Inside.pure ()
  | succ count ih => exact h.bind fun _ => ih

theorem walkLoop {item : Walk Unit} (h : Inside n start item) (fuel : Nat) :
    Inside n start (walkLoop item fuel) := by
  induction fuel with
  | zero => exact Inside.throw trivial
  | succ fuel ih =>
      refine Inside.get_bind fun r hr hn => ?_
      exact Inside.ite (Inside.pure ()) (h.bind fun _ => ih)

theorem walkStream {item : Walk Unit} (h : Inside n start item) :
    Inside n start (walkStream item) :=
  Inside.get_bind fun _ _ _ => h.walkLoop _

theorem walkPayload {nested : Walk Unit} (h : Inside n start nested) (tag : RecordTag) :
    Inside n start (walkPayload start nested tag) := by
  have hvarint : Inside n start (Binpack.atCursor start readVarint) := .atCursor contained_readVarint
  have hraw : ∀ k, Inside n start (Binpack.atCursor start (readRaw k)) := fun k =>
    .atCursor (contained_readRaw k)
  cases tag with
  | kInt => exact hvarint.bind fun _ => .pure ()
  | kUint => exact hvarint.bind fun _ => .pure ()
  | kFloat => exact (hraw 8).bind fun _ => .pure ()
  | kString => exact .get_bind fun r _ _ => (hraw _).bind fun _ => .pure ()
  | kBlob => exact .get_bind fun r _ _ => (hraw _).bind fun _ => .pure ()
  | kArray => exact hvarint.bind fun count => h.walkTimes _
  | kGroup => exact h.walkStream
  | kKeyval =>
      refine hvarint.bind fun keyLen => (hraw _).bind fun _ => h.bind fun _ => ?_
      refine .get_bind fun r hr hn => .ite (.throw ?_) (.pure ())
      exact (Nat.add_le_add_left hr start).trans hn

theorem walkRecord (room : Nat) : Inside n start (walkRecord room start) := by
  induction room generalizing start with
  | zero =>
      refine .get_bind fun r hr hn => .throw ?_
      exact (Nat.add_le_add_left hr start).trans hn
  | succ room ih =>
      refine .get_bind fun r hr hn => ?_
      refine Inside.bind (.atCursor contained_readU8) fun tagByte => ?_
      refine Inside.bind (.atCursor contained_readU8) fun flags => ?_
      cases RecordTag.ofByte? tagByte with
      | none => exact .throw ((Nat.add_le_add_left hr start).trans hn)
      | some tag =>
          refine Inside.bind (.atCursor contained_readVarint) fun length => ?_
          exact .payload (fun inner => (@ih inner).walkPayload tag) length.toNat

end Inside

theorem defect?_within {maxDepth : Nat} {body : Bytes} {d : Defect}
    (h : defect? maxDepth body = some d) : d.Within body.length := by
  have hwalk : Inside body.length 0 (walkStream (walkRecord (maxDepth + 1) 0)) :=
    (Inside.walkRecord (maxDepth + 1)).walkStream
  obtain ⟨-, herror⟩ := hwalk { data := body } (Nat.zero_le _) (Nat.zero_add _).le
  rw [defect?] at h
  split at h
  · cases h
  · next d' s hrun =>
    cases h
    exact herror _ _ hrun

end Bytewright.Binpack
