import Bytewright.Model.Minidb.Journal
import Bytewright.Verification.Common.Varint

/-! # Journal entries on the wire -/

namespace Bytewright.Minidb

open Bytewright.Common Bytewright.Library

/-! ### Entries and their encodings -/

/-- A complete journal entry. -/
inductive Entry where
  | begin
  | insert (key : RecordKey) (bytes : Bytes)
  | update (key : RecordKey) (bytes : Bytes)
  | delete (key : RecordKey)
  | commit
  | rollback
  deriving DecidableEq, Repr

def keyBytes (key : RecordKey) : Bytes := leBytes 4 key.1.toNat ++ leBytes 2 key.2.toNat

/-- `bs` encodes the entry. The record length may be spelled by any varint its reader accepts. -/
inductive Encodes : Entry → Bytes → Prop
  | begin : Encodes .begin [JournalOp.kBegin.byte]
  | insert (key : RecordKey) {len : Bytes} {n : UInt64} {bytes : Bytes}
      (hlen : Reads readVarint len n) (hn : n.toNat = bytes.length) :
      Encodes (.insert key bytes) (JournalOp.kInsert.byte :: (keyBytes key ++ (len ++ bytes)))
  | update (key : RecordKey) {len : Bytes} {n : UInt64} {bytes : Bytes}
      (hlen : Reads readVarint len n) (hn : n.toNat = bytes.length) :
      Encodes (.update key bytes) (JournalOp.kUpdate.byte :: (keyBytes key ++ (len ++ bytes)))
  | delete (key : RecordKey) : Encodes (.delete key) (JournalOp.kDelete.byte :: keyBytes key)
  | commit : Encodes .commit [JournalOp.kCommit.byte]
  | rollback : Encodes .rollback [JournalOp.kRollback.byte]

/-- What ends a replay: the end of the journal, or an unknown op byte. -/
def Stops (tail : Bytes) : Prop := ∀ b ∈ tail.head?, JournalOp.ofByte? b = none

theorem stops_nil : Stops [] := fun b hb => by simp at hb

theorem stops_cons {b : UInt8} (h : JournalOp.ofByte? b = none) (rest : Bytes) : Stops (b :: rest) := by
  intro c hc
  rw [List.head?_cons, Option.mem_some_iff] at hc
  rw [← hc, h]

/-- The mutation an entry asks for. -/
def Entry.op? : Entry → Option StagedOp
  | .insert key bytes | .update key bytes => some { key, bytes, tombstone := false }
  | .delete key => some { key, tombstone := true }
  | .begin | .commit | .rollback => none

/-- What an entry does to the state of the replay. -/
def ReplayState.step (s : ReplayState) : Entry → ReplayState
  | .insert key bytes | .update key bytes => s.route { key, bytes, tombstone := false }
  | .delete key => s.route { key, tombstone := true }
  | .begin => s.beginTxn
  | .commit => s.commitTxn
  | .rollback => s.rollbackTxn

/-! ### The fields of an entry -/

theorem reads_readKey (key : RecordKey) : Reads readKey (keyBytes key) key := by
  unfold readKey keyBytes
  apply (reads_readU32le key.1).bind
  exact (reads_readU16le key.2).map (fun slot => (key.1, slot))

theorem exact_readKey : Exact readKey :=
  Exact.readU32le.bind fun page => Exact.readU16le.map (fun slot => (page, slot))

theorem readKey_ok {r s : ByteReader} {key : RecordKey} (h : readKey r = .ok key s) :
    r.rest = keyBytes key ++ s.rest := by
  rcases bind_eq_ok.mp h with ⟨page, r₁, hpage, h⟩
  rcases bind_eq_ok.mp h with ⟨slot, r₂, hslot, h⟩
  cases h
  rw [readU32le_ok hpage, readU16le_ok hslot, keyBytes, List.append_assoc]

theorem ofByte?_byte (op : JournalOp) : JournalOp.ofByte? op.byte = some op := by
  cases op <;> rfl

theorem byte_of_ofByte? {b : UInt8} {op : JournalOp} (h : JournalOp.ofByte? b = some op) :
    b = op.byte := by
  revert op
  obtain ⟨b⟩ := b
  revert b
  decide +kernel

/-- The length-prefixed record of an INSERT or UPDATE. -/
def readBody : Reader Bytes := do
  let recLen ← readVarint
  readBytes recLen.toNat

theorem exact_readBody : Exact readBody :=
  exact_readVarint.bind fun n => Exact.readRaw n.toNat

theorem reads_readBody {len : Bytes} {n : UInt64} {bytes : Bytes} (hlen : Reads readVarint len n)
    (hn : n.toNat = bytes.length) : Reads readBody (len ++ bytes) bytes := by
  apply hlen.bind
  rw [hn]
  exact reads_readRaw bytes

/-- The reader of an INSERT or UPDATE, without the length check that comes twice. -/
theorem replayEntry_set (s : ReplayState) {op : JournalOp} (hop : op = .kInsert ∨ op = .kUpdate) :
    replayEntry s op = do
      let key ← readKey
      let bytes ← readBody
      return s.route { key, bytes, tombstone := false } := by
  have hrequire : ∀ (n : Nat) (f : Bytes → Reader ReplayState),
      (do require n; let bytes ← readBytes n; f bytes) = (do let bytes ← readBytes n; f bytes) := by
    intro n f
    rw [← bind_assoc]
    exact congrArg (· >>= f) (require_bind_readRaw n)
  rcases hop with rfl | rfl <;> simp only [replayEntry, readBody, hrequire, bind_assoc]

/-! ### Reading an entry -/

/-- Behind its op byte, an encoded entry is read exactly and takes one step. -/
theorem reads_entry {e : Entry} {bs : Bytes} (h : Encodes e bs) (s : ReplayState) :
    ∃ op cs, bs = JournalOp.byte op :: cs ∧ Reads (replayEntry s op) cs (s.step e) := by
  cases h with
  | begin => exact ⟨.kBegin, [], rfl, Reads.pure _⟩
  | insert key hlen hn =>
      refine ⟨.kInsert, _, rfl, ?_⟩
      rw [replayEntry_set s (.inl rfl)]
      apply (reads_readKey key).bind
      exact (reads_readBody hlen hn).map (fun bytes => s.route { key, bytes, tombstone := false })
  | update key hlen hn =>
      refine ⟨.kUpdate, _, rfl, ?_⟩
      rw [replayEntry_set s (.inr rfl)]
      apply (reads_readKey key).bind
      exact (reads_readBody hlen hn).map (fun bytes => s.route { key, bytes, tombstone := false })
  | delete key =>
      refine ⟨.kDelete, _, rfl, ?_⟩
      exact (reads_readKey key).map (fun key => s.route { key, tombstone := true })
  | commit => exact ⟨.kCommit, [], rfl, Reads.pure _⟩
  | rollback => exact ⟨.kRollback, [], rfl, Reads.pure _⟩

/-- Cut short behind its op byte, it starves the reader. -/
theorem starves_entry {op : JournalOp} {cs : Bytes} {e : Entry} (s : ReplayState)
    (h : Reads (replayEntry s op) cs (s.step e)) : Starves (replayEntry s op) cs := by
  refine Exact.starves ?_ h
  cases op with
  | kBegin => exact Exact.pure _
  | kInsert =>
      rw [replayEntry_set s (.inl rfl)]
      exact exact_readKey.bind fun key => exact_readBody.map (fun bytes => s.route { key, bytes, tombstone := false })
  | kUpdate =>
      rw [replayEntry_set s (.inr rfl)]
      exact exact_readKey.bind fun key => exact_readBody.map (fun bytes => s.route { key, bytes, tombstone := false })
  | kDelete => exact exact_readKey.map (fun key => s.route { key, tombstone := true })
  | kCommit => exact Exact.pure _
  | kRollback => exact Exact.pure _

/-! ### Reading a journal -/

/-- The replay loop on complete entries: it takes one step for each, and stands behind them. -/
theorem replayLoop_entries {es : List Entry} {parts : List Bytes} (h : List.Forall₂ Encodes es parts)
    {fuel : Nat} (s : ReplayState) {r : ByteReader} {tail : Bytes} (hr : r.rest = parts.flatten ++ tail) :
    replayLoop (es.length + fuel) s r =
      replayLoop fuel (es.foldl ReplayState.step s) (r.advance parts.flatten.length) := by
  induction h generalizing s r with
  | nil => simp
  | @cons e bs es parts he hes ih =>
      rcases reads_entry he s with ⟨op, cs, rfl, hreads⟩
      rw [List.flatten_cons, List.cons_append, List.cons_append, List.append_assoc] at hr
      have heof : r.eof = false := by
        rw [← Bool.not_eq_true, r.eof_iff, hr]
        exact List.cons_ne_nil _ _
      have hop := reads_readU8 op.byte r _ hr
      have hbody := hreads (r.advance 1) (parts.flatten ++ tail) (by simp [hr])
      have hrest : ((r.advance 1).advance cs.length).rest = parts.flatten ++ tail := by
        rw [ByteReader.rest_advance, ByteReader.rest_advance, hr]
        exact List.drop_left
      rw [List.length_cons, Nat.add_right_comm, replayLoop, bind_of_ok (get_run r)]
      simp only [heof, Bool.false_eq_true, if_false]
      rw [bind_of_ok hop]
      simp only [ofByte?_byte]
      rw [List.length_singleton, bind_of_ok hbody, ih (s.step e) hrest]
      simp [Nat.add_assoc, Nat.add_comm 1]

theorem length_le_flatten {es : List Entry} {parts : List Bytes} (h : List.Forall₂ Encodes es parts) :
    es.length ≤ parts.flatten.length := by
  induction h with
  | nil => exact Nat.le_refl _
  | cons he _ ih =>
      rcases reads_entry he { committed := ∅ } with ⟨op, cs, rfl, -⟩
      simp only [List.flatten_cons, List.length_cons, List.length_append]
      omega

/-- The fuel of a replay covers the entries and one round more. -/
theorem fuel_split {es : List Entry} {parts : List Bytes} (h : List.Forall₂ Encodes es parts) (tail : Bytes) :
    (parts.flatten ++ tail).length + 1 =
      es.length + ((parts.flatten ++ tail).length - es.length + 1) := by
  have hlen := length_le_flatten h
  rw [List.length_append]
  omega

theorem replayLoop_stops (fuel : Nat) (s : ReplayState) {r : ByteReader} (h : Stops r.rest) :
    ∃ r', replayLoop (fuel + 1) s r = .ok s r' := by
  rw [replayLoop, bind_of_ok (get_run r)]
  rcases hrest : r.rest with _ | ⟨b, tail⟩
  · have heof : r.eof = true := r.eof_iff.mpr hrest
    exact ⟨r, by simp [heof]⟩
  · have heof : r.eof = false := by
      rw [← Bool.not_eq_true, r.eof_iff, hrest]
      exact List.cons_ne_nil _ _
    have hnone : JournalOp.ofByte? b = none := h b (by simp [hrest])
    simp only [heof, Bool.false_eq_true, if_false]
    rw [bind_of_ok (reads_readU8 b r tail hrest)]
    exact ⟨r.advance 1, by simp [hnone]⟩

/-- The replay of a journal is a run over its entries. -/
theorem replay_entries (seed : Store) {es : List Entry} {parts : List Bytes}
    (h : List.Forall₂ Encodes es parts) {tail : Bytes} (ht : Stops tail) :
    replay seed (parts.flatten ++ tail) =
      .ok (es.foldl ReplayState.step { committed := seed }).finish := by
  have hfuel := fuel_split h tail
  have hrest : (ByteReader.advance { data := parts.flatten ++ tail } parts.flatten.length).rest = tail := by
    simp
  rcases replayLoop_stops ((parts.flatten ++ tail).length - es.length)
    (es.foldl ReplayState.step { committed := seed }) (hrest.symm ▸ ht) with ⟨r', hr'⟩
  rw [replay, hfuel, replayLoop_entries h _ rfl, hr']

/-- A mutation entry read behind its op byte. -/
theorem encodes_of_replayEntry {s s' : ReplayState} {op : JournalOp} {r r' : ByteReader}
    (h : replayEntry s op r = .ok s' r') :
    ∃ e cs, Encodes e (op.byte :: cs) ∧ r.rest = cs ++ r'.rest := by
  have hset : ∀ r', (do
      let key ← readKey
      let bytes ← readBody
      return s.route { key, bytes, tombstone := false }) r = .ok s' r' →
      ∃ key len n bytes, Reads readVarint len n ∧ n.toNat = bytes.length ∧
        r.rest = (keyBytes key ++ (len ++ bytes)) ++ r'.rest := by
    intro r' h
    rcases bind_eq_ok.mp h with ⟨key, r₁, hkey, h⟩
    rcases bind_eq_ok.mp h with ⟨bytes, r₂, hbody, h⟩
    cases h
    rcases bind_eq_ok.mp hbody with ⟨n, r₃, hn, hbytes⟩
    rcases readKey_ok hkey with hkey
    rcases exact_readVarint _ _ _ hn with ⟨len, hlen, -, hreads, -⟩
    rcases readRaw_ok hbytes with ⟨hbytes, hcount⟩
    refine ⟨key, len, n, bytes, hreads, hcount.symm, ?_⟩
    rw [hkey, hlen, hbytes]
    simp
  cases op with
  | kBegin =>
      cases h
      exact ⟨.begin, [], .begin, rfl⟩
  | kInsert =>
      rw [replayEntry_set s (.inl rfl)] at h
      rcases hset r' h with ⟨key, len, n, bytes, hlen, hn, hr⟩
      exact ⟨.insert key bytes, _, .insert key hlen hn, hr⟩
  | kUpdate =>
      rw [replayEntry_set s (.inr rfl)] at h
      rcases hset r' h with ⟨key, len, n, bytes, hlen, hn, hr⟩
      exact ⟨.update key bytes, _, .update key hlen hn, hr⟩
  | kDelete =>
      rcases bind_eq_ok.mp h with ⟨key, r₁, hkey, h⟩
      cases h
      exact ⟨.delete key, _, .delete key, readKey_ok hkey⟩
  | kCommit =>
      cases h
      exact ⟨.commit, [], .commit, rfl⟩
  | kRollback =>
      cases h
      exact ⟨.rollback, [], .rollback, rfl⟩

/-- Conversely, a journal that is replayed to its end is made of complete entries. -/
theorem entries_of_replayLoop {fuel : Nat} {s s' : ReplayState} {r r' : ByteReader}
    (h : replayLoop fuel s r = .ok s' r') :
    ∃ es parts tail, List.Forall₂ Encodes es parts ∧ Stops tail ∧ r.rest = parts.flatten ++ tail := by
  induction fuel generalizing s r with
  | zero => cases h
  | succ fuel ih =>
      rw [replayLoop, bind_of_ok (get_run r)] at h
      cases heof : r.eof with
      | true =>
          have hrest := r.eof_iff.mp heof
          exact ⟨[], [], [], .nil, stops_nil, hrest⟩
      | false =>
          simp only [heof, Bool.false_eq_true, if_false] at h
          rcases bind_eq_ok.mp h with ⟨b, r₁, hb, h⟩
          rcases readU8_ok hb with ⟨hrest, -⟩
          cases hop : JournalOp.ofByte? b with
          | none =>
              exact ⟨[], [], r.rest, .nil, hrest ▸ stops_cons hop _, rfl⟩
          | some op =>
              simp only [hop] at h
              rcases bind_eq_ok.mp h with ⟨s₁, r₂, hentry, h⟩
              rcases encodes_of_replayEntry hentry with ⟨e, cs, he, hr₁⟩
              rcases ih h with ⟨es, parts, tail, hes, ht, hr₂⟩
              refine ⟨e :: es, (op.byte :: cs) :: parts, tail, .cons he hes, ht, ?_⟩
              rw [hrest, hr₁, hr₂, byte_of_ofByte? hop]
              simp

theorem entries_of_replay {seed : Store} {journal : Bytes} {s : ReplayState}
    (h : replay seed journal = .ok s) :
    ∃ es parts tail, List.Forall₂ Encodes es parts ∧ Stops tail ∧ journal = parts.flatten ++ tail := by
  rw [replay] at h
  split at h
  · next hloop => exact entries_of_replayLoop hloop
  · cases h

end Bytewright.Minidb
