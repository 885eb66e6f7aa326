import Bytewright.Verification.Minidb.Entries
import Mathlib.Data.List.Forall2

/-! # What a journal makes durable -/

namespace Bytewright.Minidb

open Bytewright.Common

/-! ### The reference semantics -/

/-- BEGIN, COMMIT and ROLLBACK delimit transactions. -/
def Entry.marker : Entry → Bool
  | .begin | .commit | .rollback => true
  | .insert .. | .update .. | .delete .. => false

/-- Behind these entries a transaction is open: the last marker is a BEGIN. -/
def inTransaction (before : List Entry) : Bool :=
  (before.filter Entry.marker).getLast? = some .begin

/-- The marker that decides about an open transaction. -/
def nextMarker (after : List Entry) : Option Entry := (after.filter Entry.marker).head?

/-- What becomes of a mutation. -/
inductive Fate where
  | durable
  | rolledBack
  | discarded
  deriving DecidableEq, Repr

/-- What the next marker decides about an open transaction. -/
def markerFate : Option Entry → Fate
  | some .commit => .durable
  | some .begin => .discarded
  | _ => .rolledBack

/-- A mutation takes effect outside any transaction, and inside one whose BEGIN is followed by a
COMMIT with no BEGIN or ROLLBACK between. Another BEGIN discards it, and a ROLLBACK or the end of
the journal rolls it back. -/
def fate (before after : List Entry) : Fate :=
  if inTransaction before then markerFate (nextMarker after) else .durable

/-- The mutations of `es` with this fate, in journal order; `before` is what comes before `es`. -/
def opsWithFate (f : Fate) (before : List Entry) : List Entry → List StagedOp
  | [] => []
  | e :: es =>
    (if fate before es = f then e.op?.toList else []) ++ opsWithFate f (before ++ [e]) es

/-- The mutations of `es` that never take effect, in journal order; `before` is what comes before
`es`. -/
def opsLost (before : List Entry) : List Entry → List StagedOp
  | [] => []
  | e :: es => (if fate before es = .durable then [] else e.op?.toList) ++ opsLost (before ++ [e]) es

/-- The mutations a journal makes durable. -/
def durable (es : List Entry) : List StagedOp := opsWithFate .durable [] es

/-- The mutations it does not. -/
def lost (es : List Entry) : List StagedOp := opsLost [] es

/-- All its mutations. -/
def mutations (es : List Entry) : List StagedOp := es.filterMap Entry.op?

/-! ### Markers -/

theorem inTransaction_snoc (before : List Entry) (e : Entry) :
    inTransaction (before ++ [e]) = if e.marker then decide (e = .begin) else inTransaction before := by
  unfold inTransaction
  rw [List.filter_append]
  cases hm : e.marker with
  | true => simp [hm]
  | false => simp [hm]

theorem nextMarker_cons (e : Entry) (after : List Entry) :
    nextMarker (e :: after) = if e.marker then some e else nextMarker after := by
  unfold nextMarker
  cases hm : e.marker with
  | true => rw [List.filter_cons_of_pos hm]; rfl
  | false => rw [List.filter_cons_of_neg (by simp [hm])]; rfl

theorem step_eq_route {e : Entry} {op : StagedOp} (h : e.op? = some op) (s : ReplayState) :
    s.step e = s.route op := by
  cases e <;> cases h <;> rfl

theorem marker_eq_false {e : Entry} {op : StagedOp} (h : e.op? = some op) : e.marker = false := by
  cases e <;> first | rfl | cases h

/-! ### One step of the replay against the reference -/

namespace ReplayState

theorem foldl_commitOp_committed (s : ReplayState) (ops : List StagedOp) :
    (ops.foldl commitOp s).committed = ops.foldl applyCommitted s.committed := by
  induction ops generalizing s with
  | nil => rfl
  | cons op ops ih => exact ih (s.commitOp op)

theorem foldl_commitOp_counts (s : ReplayState) (ops : List StagedOp) :
    (ops.foldl commitOp s).committedOps = s.committedOps + UInt32.ofNat ops.length ∧
      (ops.foldl commitOp s).rolledBackOps = s.rolledBackOps := by
  induction ops generalizing s with
  | nil => exact ⟨by simp, rfl⟩
  | cons op ops ih =>
      rcases ih (s.commitOp op) with ⟨hc, hr⟩
      refine ⟨hc.trans ?_, hr⟩
      change s.committedOps + 1 + UInt32.ofNat ops.length = _
      rw [List.length_cons, Nat.add_comm, UInt32.ofNat_add, ← UInt32.add_assoc]
      rfl

theorem inTxn_step {s : ReplayState} {before : List Entry} (h : s.inTxn = inTransaction before)
    (e : Entry) : (s.step e).inTxn = inTransaction (before ++ [e]) := by
  rw [inTransaction_snoc]
  cases hop : e.op? with
  | some op =>
      rw [step_eq_route hop, marker_eq_false hop, route]
      split
      · exact h
      · exact h
  | none =>
      cases e with
      | begin => rfl
      | commit =>
          simp only [step, commitTxn]
          split
          · rfl
          · next hs => rw [Bool.eq_false_iff.mpr hs]; rfl
      | rollback =>
          simp only [step, rollbackTxn]
          split
          · rfl
          · next hs => rw [Bool.eq_false_iff.mpr hs]; rfl
      | insert key bytes => cases hop
      | update key bytes => cases hop
      | delete key => cases hop

/-- The mutations a step decides about, with this fate. -/
def settled (s : ReplayState) (e : Entry) (f : Fate) : List StagedOp :=
  match e.op? with
  | some op => if s.inTxn = false ∧ f = .durable then [op] else []
  | none => if s.inTxn = true ∧ f = markerFate (some e) then s.staged else []

theorem step_committed (s : ReplayState) (e : Entry) :
    (s.step e).committed = (s.settled e .durable).foldl applyCommitted s.committed := by
  cases hop : e.op? with
  | some op =>
      simp only [step_eq_route hop, settled, hop, route]
      cases hin : s.inTxn <;> rfl
  | none =>
      simp only [settled, hop]
      cases e with
      | begin => simp [step, beginTxn, markerFate]
      | commit =>
          cases hin : s.inTxn with
          | false => simp [step, commitTxn, hin]
          | true => simpa [step, commitTxn, hin, markerFate] using foldl_commitOp_committed s s.staged
      | rollback => cases hin : s.inTxn <;> simp [step, rollbackTxn, hin, markerFate]
      | insert key bytes => cases hop
      | update key bytes => cases hop
      | delete key => cases hop

theorem step_counts (s : ReplayState) (e : Entry) :
    (s.step e).committedOps = s.committedOps + UInt32.ofNat (s.settled e .durable).length ∧
      (s.step e).rolledBackOps = s.rolledBackOps + UInt32.ofNat (s.settled e .rolledBack).length := by
  cases hop : e.op? with
  | some op =>
      simp only [step_eq_route hop, settled, hop, route]
      cases hin : s.inTxn <;> simp [commitOp]
  | none =>
      simp only [settled, hop]
      cases e with
      | begin => simp [step, beginTxn, markerFate]
      | commit =>
          rcases foldl_commitOp_counts s s.staged with ⟨hc, hr⟩
          cases hin : s.inTxn with
          | false => simp [step, commitTxn, hin]
          | true => simp [step, commitTxn, hin, markerFate, hc, hr]
      | rollback => cases hin : s.inTxn <;> simp [step, rollbackTxn, hin, markerFate]
      | insert key bytes => cases hop
      | update key bytes => cases hop
      | delete key => cases hop

/-- What is still to get this fate in a run over `after`: staged mutations first, then new ones. -/
def account (s : ReplayState) (f : Fate) (before after : List Entry) : List StagedOp :=
  (if inTransaction before = true ∧ f = markerFate (nextMarker after) then s.staged else []) ++
    opsWithFate f before after

theorem account_outside (s : ReplayState) (f : Fate) {before : List Entry}
    (h : inTransaction before = false) (after : List Entry) :
    s.account f before after = opsWithFate f before after := by
  simp [account, h]

/-- One step settles the head of the account and leaves the rest. -/
theorem account_step {s : ReplayState} {before : List Entry} (h : s.inTxn = inTransaction before)
    (f : Fate) (e : Entry) (es : List Entry) :
    s.account f before (e :: es) = s.settled e f ++ (s.step e).account f (before ++ [e]) es := by
  unfold account settled
  rw [opsWithFate, inTransaction_snoc, nextMarker_cons]
  cases hop : e.op? with
  | some op =>
      rw [marker_eq_false hop, step_eq_route hop, route, fate, h]
      cases hin : inTransaction before with
      | false => by_cases hf : f = .durable <;> simp [hf, eq_comm]
      | true => by_cases hf : f = markerFate (nextMarker es) <;> simp [hf, eq_comm]
  | none =>
      rw [h]
      cases e with
      | begin => cases hin : inTransaction before <;> simp [step, beginTxn, Entry.marker]
      | commit => cases hin : inTransaction before <;> simp [Entry.marker]
      | rollback => cases hin : inTransaction before <;> simp [Entry.marker]
      | insert key bytes => cases hop
      | update key bytes => cases hop
      | delete key => cases hop

/-! ### The whole run -/

/-- A run applies its durable mutations in order, and counts them and those rolled back. -/
theorem run_accounts {s : ReplayState} (before : List Entry) (h : s.inTxn = inTransaction before)
    (es : List Entry) :
    (es.foldl step s).finish.committed = (s.account .durable before es).foldl applyCommitted s.committed ∧
      (es.foldl step s).finish.committedOps =
        s.committedOps + UInt32.ofNat (s.account .durable before es).length ∧
      (es.foldl step s).finish.rolledBackOps =
        s.rolledBackOps + UInt32.ofNat (s.account .rolledBack before es).length := by
  induction es generalizing s before with
  | nil =>
      simp only [List.foldl_nil, finish, account, opsWithFate, nextMarker, markerFate, h]
      cases inTransaction before <;> simp
  | cons e es ih =>
      rcases ih (before ++ [e]) (inTxn_step h e) with ⟨hstore, hcommitted, hrolled⟩
      rcases step_counts s e with ⟨hc, hr⟩
      rw [List.foldl_cons, account_step h, account_step h]
      refine ⟨?_, ?_, ?_⟩
      · rw [hstore, step_committed, List.foldl_append]
      · rw [hcommitted, hc, List.length_append, UInt32.ofNat_add, UInt32.add_assoc]
      · rw [hrolled, hr, List.length_append, UInt32.ofNat_add, UInt32.add_assoc]

end ReplayState

/-- What is lost is rolled back or discarded. -/
theorem length_opsLost (before es : List Entry) :
    (opsLost before es).length =
      (opsWithFate .rolledBack before es).length + (opsWithFate .discarded before es).length := by
  induction es generalizing before with
  | nil => rfl
  | cons e es ih =>
      rw [opsLost, opsWithFate, opsWithFate, List.length_append, List.length_append, List.length_append,
        ih (before ++ [e])]
      cases fate before es <;> simp <;> omega

/-- Every mutation takes effect or is lost. -/
theorem length_durable_add_lost (es : List Entry) :
    (durable es).length + (lost es).length = (mutations es).length := by
  have hsplit : ∀ before es : List Entry, (opsWithFate .durable before es).length +
      (opsLost before es).length = (es.filterMap Entry.op?).length := by
    intro before es
    induction es generalizing before with
    | nil => rfl
    | cons e es ih =>
        have h := ih (before ++ [e])
        simp only [opsWithFate, opsLost, List.filterMap_cons]
        cases e.op? <;> cases fate before es <;> simp <;> omega
  exact hsplit [] es

/-- The committed store of a replayed journal is the seed with the durable mutations applied in
journal order, and the same holds of the journal cut behind any of its entries. -/
theorem replay_committed (seed : Store) {es : List Entry} {parts : List Bytes}
    (h : List.Forall₂ Encodes es parts) {tail : Bytes} (ht : Stops tail) :
    (∃ s, replay seed (parts.flatten ++ tail) = .ok s ∧
      s.committed = (durable es).foldl applyCommitted seed) ∧
    ∀ cut, ∃ s, replay seed (parts.take cut).flatten = .ok s ∧
      s.committed = (durable (es.take cut)).foldl applyCommitted seed := by
  have hrun : ∀ es : List Entry, (es.foldl ReplayState.step { committed := seed }).finish.committed =
      (durable es).foldl applyCommitted seed := fun es => by
    rw [(ReplayState.run_accounts [] rfl es).1, ReplayState.account_outside _ _ rfl]
    rfl
  refine ⟨⟨_, replay_entries seed h ht, hrun es⟩, fun cut => ?_⟩
  have hcut := replay_entries seed (List.forall₂_take cut h) stops_nil
  rw [List.append_nil] at hcut
  exact ⟨_, hcut, hrun (es.take cut)⟩

/-- A committed insert, then one whose transaction another BEGIN cuts off. -/
theorem replay_committed_dangling :
    let seed : Store := ∅
    let es : List Entry := [.begin, .insert (0, 1) [7], .commit, .begin, .delete (0, 1), .begin]
    let parts : List Bytes :=
      [[1], [2, 0, 0, 0, 0, 1, 0, 1, 7], [5], [1], [4, 0, 0, 0, 0, 1, 0], [1]]
    (∃ s, replay seed (parts.flatten ++ [9, 9]) = .ok s ∧
      s.committed = (durable es).foldl applyCommitted seed) ∧
    ∀ cut, ∃ s, replay seed (parts.take cut).flatten = .ok s ∧
      s.committed = (durable (es.take cut)).foldl applyCommitted seed := by
  have hlen : Reads readVarint [1] 1 := @reads_readVarint_byte 1 (by decide)
  exact replay_committed ∅
    (.cons .begin (.cons (.insert (0, 1) hlen rfl) (.cons .commit (.cons .begin
      (.cons (.delete (0, 1)) (.cons .begin .nil))))))
    (stops_cons (by decide) [9])

/-- Every mutation is counted once: as committed if it takes effect, and as rolled back if not. -/
structure Counts (s : ReplayState) (es : List Entry) : Prop where
  total : s.committedOps.toNat + s.rolledBackOps.toNat = (mutations es).length
  committed : s.committedOps.toNat = (durable es).length
  rolledBack : s.rolledBackOps.toNat = (lost es).length

/-- The counters account for every mutation exactly if no BEGIN discards one and neither counter
wraps around. -/
theorem replay_counts_iff {seed : Store} {journal : Bytes} {s : ReplayState}
    (h : replay seed journal = .ok s) :
    (∃ es parts tail, List.Forall₂ Encodes es parts ∧ Stops tail ∧ journal = parts.flatten ++ tail) ∧
    ∀ es parts tail, List.Forall₂ Encodes es parts → Stops tail → journal = parts.flatten ++ tail →
      (Counts s es ↔
        opsWithFate .discarded [] es = [] ∧ (opsWithFate .durable [] es).length < 2 ^ 32 ∧
          (opsWithFate .rolledBack [] es).length < 2 ^ 32) := by
  refine ⟨entries_of_replay h, fun es parts tail hes ht hjournal => ?_⟩
  rw [hjournal, replay_entries seed hes ht] at h
  rcases ReplayState.run_accounts (s := { committed := seed }) [] rfl es with ⟨-, hc, hr⟩
  rw [Except.ok.inj h, ReplayState.account_outside _ _ rfl, UInt32.zero_add] at hc hr
  have hcommitted : s.committedOps.toNat = (durable es).length % 2 ^ 32 := by
    rw [hc, UInt32.toNat_ofNat', durable]
  have hrolled : s.rolledBackOps.toNat = (opsWithFate .rolledBack [] es).length % 2 ^ 32 := by
    rw [hr, UInt32.toNat_ofNat']
  have hlost : (lost es).length = _ := length_opsLost [] es
  have htotal := length_durable_add_lost es
  rw [← List.length_eq_zero_iff, ← durable]
  constructor
  · rintro ⟨-, hdurable, hrest⟩
    omega
  · intro hholds
    constructor <;> omega

/-- BEGIN, INSERT, ROLLBACK, INSERT: of two mutations one is rolled back and one takes effect. -/
theorem replay_counts_iff_rolledBack :
    let es : List Entry := [.begin, .insert (0, 1) [7], .rollback, .insert (0, 2) [8]]
    let parts : List Bytes :=
      [[1], [2, 0, 0, 0, 0, 1, 0, 1, 7], [6], [2, 0, 0, 0, 0, 2, 0, 1, 8]]
    ∃ s, replay ∅ parts.flatten = .ok s ∧ Counts s es := by
  intro es parts
  have hlen : Reads readVarint [1] 1 := @reads_readVarint_byte 1 (by decide)
  have hes : List.Forall₂ Encodes es parts :=
    .cons .begin (.cons (.insert (0, 1) hlen rfl) (.cons .rollback (.cons (.insert (0, 2) hlen rfl) .nil)))
  have hreplay := replay_entries ∅ hes stops_nil
  rw [List.append_nil] at hreplay
  exact ⟨_, hreplay, ((replay_counts_iff hreplay).2 es parts [] hes stops_nil (by simp)).mpr (by decide)⟩

/-- BEGIN, INSERT, BEGIN: the staged mutation is dropped and counted nowhere. -/
theorem replay_nested_begin_uncounted :
    ¬ ∀ (seed : Store) (journal : Bytes) (s : ReplayState), replay seed journal = .ok s →
      ∀ es parts tail, List.Forall₂ Encodes es parts → Stops tail → journal = parts.flatten ++ tail →
        s.committedOps.toNat + s.rolledBackOps.toNat = (mutations es).length := by
  intro h
  have hlen : Reads readVarint [1] 1 := @reads_readVarint_byte 1 (by decide)
  let journal : Bytes := [1, 2, 0, 0, 0, 0, 1, 0, 1, 7, 1]
  have hcounts : (fun s : ReplayState => (s.committedOps, s.rolledBackOps)) <$> replay ∅ journal =
      .ok (0, 0) := by decide +kernel
  cases hs : replay ∅ journal with
  | error e => rw [hs] at hcounts; cases hcounts
  | ok s =>
      rw [hs] at hcounts
      rcases Prod.mk.inj (Except.ok.inj hcounts) with ⟨hc, hr⟩
      have hsum := h ∅ journal s hs [.begin, .insert (0, 1) [7], .begin]
        [[1], [2, 0, 0, 0, 0, 1, 0, 1, 7], [1]] []
        (.cons .begin (.cons (.insert (0, 1) hlen rfl) (.cons .begin .nil)))
        stops_nil rfl
      rw [hc, hr] at hsum
      exact absurd hsum (by decide)

end Bytewright.Minidb
