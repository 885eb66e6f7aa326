import Bytewright.Library.SortedScan
import Bytewright.Model.Minidb.Cursor
import Bytewright.Verification.Minidb.Image

/-! # Scans over the records

The cursor over the records against a cursor over their list. -/

namespace Bytewright.Minidb

open Bytewright.Common Bytewright.Library

/-! ### Cursors over a list -/

inductive CursorOp where
  | next
  | seek (page : UInt32) (slot : UInt16)

/-- A call, with what it returns. -/
def Cursor.step (c : Cursor) : CursorOp → Bool × Cursor
  | .next => c.next
  | .seek page slot => c.seek page slot

/-- The entries from the current one on; before the first call there is none. -/
abbrev Scan := Option (List (RecordKey × Record))

/-- The entries that the next call leaves. -/
def Scan.left (entries : List (RecordKey × Record)) (s : Scan) : CursorOp → List (RecordKey × Record)
  | .next => s.elim entries List.tail
  | .seek page slot => entriesFrom entries (page, slot)

/-- The same call on a sorted list of entries. -/
def Scan.step (entries : List (RecordKey × Record)) (s : Scan) (op : CursorOp) : Bool × Scan :=
  (!(s.left entries op).isEmpty, some (s.left entries op))

/-- What a run of calls returns, and the state behind it. -/
def runOps {σ : Type} (step : σ → CursorOp → Bool × σ) : σ → List CursorOp → List Bool × σ
  | s, [] => ([], s)
  | s, op :: ops =>
    let run := runOps step (step s op).2 ops
    ((step s op).1 :: run.1, run.2)

/-- The entry that the cursor is on. -/
def Cursor.current (c : Cursor) : Option (RecordKey × Record) :=
  c.key?.bind fun key => c.record?.map (Prod.mk key)

/-- `while (c.next())`, with the entries that it comes by. -/
def Cursor.drain : (fuel : Nat) → Cursor → List (RecordKey × Record)
  | 0, _ => []
  | fuel + 1, c =>
    let (more, c) := c.next
    if more then c.current.toList ++ c.drain fuel else []

/-! ### One call -/

/-- The cursor stands where the scan does. -/
structure Stands (db : Database) (c : Cursor) (s : Scan) : Prop where
  borrows : c.db = db
  started : c.started = s.isSome
  it : c.it = (s.bind List.head?).map Prod.fst
  suffix : s.getD [] <:+ db.records.toList

variable {db : Database} {c : Cursor} {s : Scan}

theorem stands_fresh (db : Database) : Stands db { db } none :=
  ⟨rfl, rfl, rfl, List.nil_suffix⟩

namespace Stands

theorem left_suffix (h : Stands db c s) (op : CursorOp) :
    s.left db.records.toList op <:+ db.records.toList := by
  cases op with
  | next =>
      cases s with
      | none => exact List.suffix_rfl
      | some left => exact (List.tail_suffix left).trans h.suffix
  | seek page slot => exact entriesFrom_suffix Std.ExtTreeMap.ordered_keys_toList _

/-- A call moves to the first of the entries it leaves. -/
theorem step_it (h : Stands db c s) (op : CursorOp) : (c.step op).2.db = db ∧
    (c.step op).2.started = true ∧
    (c.step op).2.it = (s.left db.records.toList op).head?.map Prod.fst ∧
    (c.step op).1 = (c.step op).2.it.isSome := by
  obtain ⟨rfl, hstarted, hit, hsuffix⟩ := h
  cases op with
  | seek page slot =>
      refine ⟨rfl, rfl, ?_, rfl⟩
      rw [← List.head?_map]
      change lowerBound _ _ = _
      rw [Scan.left, head?_entriesFrom, Std.ExtTreeMap.map_fst_toList_eq_keys, lowerBound]
  | next =>
      cases s with
      | none =>
          have hnext : c.next = ((firstKey c.db.records).isSome,
              { c with it := firstKey c.db.records, started := true }) := by
            rw [Cursor.next, hstarted]
            rfl
          rw [Cursor.step, hnext]
          refine ⟨rfl, rfl, ?_, rfl⟩
          change firstKey c.db.records = _
          rw [firstKey, ← Std.ExtTreeMap.map_fst_toList_eq_keys, List.head?_map]
          rfl
      | some left =>
          cases left with
          | nil =>
              have hend : c.it = none := hit
              have hnext : c.next = (false, c) := by
                rw [Cursor.next, hstarted, hend]
                rfl
              rw [Cursor.step, hnext]
              exact ⟨rfl, hstarted, hend, by rw [hend]; rfl⟩
          | cons e rest =>
              have hkey : c.it = some e.1 := hit
              obtain ⟨front, hfront⟩ := hsuffix
              change front ++ e :: rest = c.db.records.toList at hfront
              have hsorted := Std.ExtTreeMap.ordered_keys_toList (t := c.db.records)
              rw [← hfront] at hsorted
              have hgreater : successor c.db.records e.1 = rest.head?.map Prod.fst := by
                rw [successor, ← Std.ExtTreeMap.map_fst_toList_eq_keys, ← hfront, find?_greater hsorted,
                  List.head?_map]
              have hnext : c.next = ((successor c.db.records e.1).isSome,
                  { c with it := successor c.db.records e.1 }) := by
                rw [Cursor.next, hstarted, hkey]
                rfl
              rw [Cursor.step, hnext]
              exact ⟨rfl, hstarted, hgreater, rfl⟩

theorem step (h : Stands db c s) (op : CursorOp) :
    (c.step op).1 = (s.step db.records.toList op).1 ∧
      Stands db (c.step op).2 (s.step db.records.toList op).2 := by
  obtain ⟨hdb, hstarted, hit, hreturned⟩ := h.step_it op
  refine ⟨?_, hdb, hstarted, hit, h.left_suffix op⟩
  rw [hreturned, hit, Scan.step]
  cases s.left db.records.toList op <;> rfl

/-- The entry that the cursor is on is the first that is left. -/
theorem current_eq (h : Stands db c s) : c.current = s.bind List.head? := by
  obtain ⟨rfl, hstarted, hit, hsuffix⟩ := h
  rw [Cursor.current, Cursor.record?, Cursor.key?, Cursor.valid, hstarted, hit]
  cases s with
  | none => rfl
  | some left =>
      cases left with
      | nil => rfl
      | cons e rest =>
          have hmem : e ∈ c.db.records.toList := hsuffix.subset (List.mem_cons_self ..)
          have hvalue := Std.ExtTreeMap.mem_toList_iff_getElem?_eq_some.mp hmem
          simp [hvalue]

theorem valid_eq (h : Stands db c s) : c.valid = (s.bind List.head?).isSome := by
  rw [Cursor.valid, h.started, h.it]
  cases s <;> simp

theorem field_eq (h : Stands db c s) (index : Nat) :
    c.field index = (s.bind List.head?).bind fun e => e.2.fields[index]? := by
  have hrecord : c.record? = c.current.map Prod.snd := by
    rw [Cursor.current, Cursor.record?]
    cases c.key? with
    | none => rfl
    | some key => cases c.db.records[key]? <;> simp
  rw [Cursor.field, hrecord, h.current_eq]
  cases s.bind List.head? <;> rfl

/-- The loop comes by all the entries that are left behind the current one. -/
theorem drain_eq (h : Stands db c s) {fuel : Nat}
    (hfuel : (s.left db.records.toList .next).length < fuel) :
    c.drain fuel = s.left db.records.toList .next := by
  induction fuel generalizing c s with
  | zero => exact absurd hfuel (Nat.not_lt_zero _)
  | succ fuel ih =>
      obtain ⟨hreturned, hstands⟩ := h.step .next
      have hentry := hstands.current_eq
      change c.next.1 = _ at hreturned
      change c.next.2.current = _ at hentry
      rw [Scan.step] at hreturned hentry hstands
      rw [Cursor.drain]
      dsimp only
      rw [hreturned, hentry]
      cases hleft : s.left db.records.toList .next with
      | nil => rfl
      | cons e rest =>
          rw [hleft] at hstands hfuel
          have hrest := ih hstands (Nat.lt_of_succ_lt_succ hfuel)
          change c.next.2.drain fuel = rest at hrest
          simp [hrest]

end Stands

/-! ### Runs -/

theorem Stands.run (h : Stands db c s) (ops : List CursorOp) :
    (runOps Cursor.step c ops).1 = (runOps (Scan.step db.records.toList) s ops).1 ∧
      Stands db (runOps Cursor.step c ops).2 (runOps (Scan.step db.records.toList) s ops).2 := by
  induction ops generalizing c s with
  | nil => exact ⟨rfl, h⟩
  | cons op ops ih =>
      obtain ⟨hreturned, hstands⟩ := h.step op
      obtain ⟨hrest, hend⟩ := ih hstands
      refine ⟨?_, hend⟩
      rw [runOps, runOps]
      dsimp only
      rw [hreturned, hrest]

/-- Whatever calls of `next` and `seek` come one after the other, a cursor returns what a cursor over the
sorted list of the records returns, is on the same entry, and has the same entries in front of it. -/
theorem runOps_cursor (db : Database) (ops : List CursorOp) :
    ∃ returned c s, runOps Cursor.step { db } ops = (returned, c) ∧
      runOps (Scan.step db.records.toList) none ops = (returned, s) ∧
      c.valid = (s.bind List.head?).isSome ∧ c.current = s.bind List.head? ∧
      (∀ index, c.field index = (s.bind List.head?).bind fun e => e.2.fields[index]?) ∧
      c.drain (db.records.size + 1) = s.left db.records.toList .next := by
  obtain ⟨hreturned, hstands⟩ := (stands_fresh db).run ops
  refine ⟨_, _, _, rfl, Prod.ext hreturned.symm rfl, hstands.valid_eq, hstands.current_eq, hstands.field_eq, ?_⟩
  · apply hstands.drain_eq
    have hle := (hstands.left_suffix .next).length_le
    rw [Std.ExtTreeMap.length_toList] at hle
    exact Nat.lt_succ_of_le hle

/-! ### A scan over a store that was written -/

/-- Opening a store that was written and going through it comes by exactly its rows, in the order of their
keys: those in its pages, as the transactions that its journal commits have changed them. -/
theorem openDb_image (spec : StoreSpec) (opts : Options) : ∃ db, openDb spec.image opts = .ok db ∧
    db.checksumOk = true ∧ db.pages.length = spec.pages.length ∧
    ((Cursor.drain (db.records.size + 1) { db }).Pairwise fun a b => compare a.1 b.1 = .lt) ∧
    ∀ key record, (key, record) ∈ Cursor.drain (db.records.size + 1) { db } ↔
      ∃ row, spec.rows key = some row ∧ record = row.record db.stringTable := by
  obtain ⟨db, hopen, hchecksum, hpages, hrecords⟩ := spec.openDb_rows opts
  have hdrain : Cursor.drain (db.records.size + 1) { db } = db.records.toList := by
    apply (stands_fresh db).drain_eq
    change db.records.toList.length < _
    rw [Std.ExtTreeMap.length_toList]
    exact Nat.lt_succ_self _
  refine ⟨db, hopen, hchecksum, hpages, ?_, fun key record => ?_⟩
  · rw [hdrain]
    exact Std.ExtTreeMap.ordered_keys_toList
  · rw [hdrain, Std.ExtTreeMap.mem_toList_iff_getElem?_eq_some, hrecords, Option.map_eq_some_iff]
    simp only [eq_comm]

/-- A row in a page, and a transaction that replaces it and adds another one. -/
def sampleStore : StoreSpec where
  pageSize := 96
  pages := [.data 0xFFFF [{ fields := [.int (-3), .null], sized := by decide +kernel }]]
  journal := some [.begin, .update (0, 0) { fields := [.bool true], sized := by decide +kernel },
    .insert (7, 1) { fields := [], sized := by decide +kernel }, .commit]
  sized := by decide
  fits := by
    intro page hpage
    rw [List.mem_singleton] at hpage
    subst hpage
    change Fits 96 _
    rw [Fits]
    decide +kernel
  small := by decide

example : ((fun db : Database => db.records.keys) <$> openDb sampleStore.image {}) = .ok [(0, 0), (7, 1)] := by
  decide +kernel

end Bytewright.Minidb
