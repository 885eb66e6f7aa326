import Mathlib.Data.List.DropRight
import Bytewright.Verification.Streamcodec.Runs

/-! # What reassembly hands out, from the fragments received -/

namespace Bytewright.Streamcodec

open Bytewright.Common Bytewright.Library

/-! ### Filling the buffer -/

namespace PartialMessage

/-- What is written is `[b, e)`, where `e` is the end of the payload or that of the buffer. -/
theorem fill_eq {buffer payload : Bytes} {b e : Nat} (hbe : b ≤ e) (he : e ≤ b + payload.length)
    (hclip : e = b + payload.length ∨ buffer.length ≤ e) :
    ∃ grown : Bytes, fill buffer payload b e = grown.take b ++ payload.take (e - b) ++ grown.drop e ∧
      grown.length = max buffer.length e ∧ ∀ x < buffer.length, grown[x]? = buffer[x]? := by
  unfold fill
  generalize hgrown : (if e > buffer.length
    then buffer ++ List.replicate (e - buffer.length) 0 else buffer) = grown
  have hlen : grown.length = max buffer.length e := by
    rw [← hgrown]
    split <;> simp <;> omega
  have hold : ∀ x < buffer.length, grown[x]? = buffer[x]? := by
    intro x hx
    rw [← hgrown]
    split
    · exact List.getElem?_append_left hx
    · rfl
  refine ⟨grown, ?_, hlen, hold⟩
  dsimp only
  split
  · next hcond =>
    have hpos := List.length_pos_of_ne_nil hcond.1
    have hn : min payload.length (grown.length - b) = e - b := by omega
    rw [hn, Nat.add_sub_cancel' hbe]
  · next hcond =>
    -- nothing is written: the payload is empty, or lies behind the last offset
    have hempty : e - b = 0 := by
      by_cases hp : payload = []
      · rw [hp, List.length_nil] at he
        omega
      · have hge : grown.length ≤ b := Nat.le_of_not_lt fun hlt => hcond ⟨hp, hlt⟩
        omega
    obtain rfl : e = b := by omega
    rw [hempty, List.take_zero, List.append_nil, List.take_append_drop]

/-- The bytes of the payload land at their offset. -/
theorem getElem?_fill_inside {buffer payload : Bytes} {b e x : Nat} (hb : b ≤ x) (hx : x < e)
    (he : e ≤ b + payload.length) (hclip : e = b + payload.length ∨ buffer.length ≤ e) :
    (fill buffer payload b e)[x]? = payload[x - b]? := by
  obtain ⟨grown, hfill, hlen, -⟩ := fill_eq (by omega) he hclip
  have htake : (grown.take b).length = b := List.length_take_of_le (by omega)
  rw [hfill, List.append_assoc, List.getElem?_append_right (by omega), htake,
    List.getElem?_append_left (by rw [List.length_take]; omega), List.getElem?_take_of_lt (by omega)]

/-- The bytes around it stay. -/
theorem getElem?_fill_outside {buffer payload : Bytes} {b e x : Nat} (hx : x < buffer.length)
    (hout : x < b ∨ e ≤ x) (hbe : b ≤ e) (he : e ≤ b + payload.length)
    (hclip : e = b + payload.length ∨ buffer.length ≤ e) :
    (fill buffer payload b e)[x]? = buffer[x]? := by
  obtain ⟨grown, hfill, hlen, hold⟩ := fill_eq hbe he hclip
  have hpayload : (payload.take (e - b)).length = e - b := List.length_take_of_le (by omega)
  rw [hfill, ← hold x hx, List.append_assoc]
  obtain hout | hout := hout
  · rw [List.getElem?_append_left (by rw [List.length_take]; omega), List.getElem?_take_of_lt hout]
  · have htake : (grown.take b).length = b := List.length_take_of_le (by omega)
    rw [List.getElem?_append_right (by omega), List.getElem?_append_right (by omega), htake, hpayload,
      List.getElem?_drop]
    congr 1
    omega

end PartialMessage

/-! ### What the fragments of one message say -/

/-- The fragment carries the byte at this offset of its message. -/
def Frame.Covers (f : Frame) (x : Nat) : Prop :=
  PartialMessage.beginOf f ≤ x ∧ x < PartialMessage.endOf f

instance (f : Frame) (x : Nat) : Decidable (f.Covers x) := inferInstanceAs (Decidable (_ ∧ _))

/-- The fragments of one message, in order of arrival. -/
abbrev History := List Frame

namespace History

/-- The highest end offset. -/
def highest (h : History) : Nat := h.foldr (fun f n => max (PartialMessage.endOf f) n) 0

def seenFin (h : History) : Bool := h.any Frame.fin

def compressed (h : History) : Bool := h.any Frame.compressed

/-- The length of the message: the highest end offset up to the latest FIN. -/
def totalLen (h : History) : Nat := highest (h.rdropWhile fun f => !f.fin)

def Covers (h : History) (x : Nat) : Prop := ∃ f ∈ h, f.Covers x

/-- The most recent fragment that carries the byte at this offset. -/
def latest (h : History) (x : Nat) : Option Frame := h.reverse.find? fun f => f.Covers x

/-- The message has seen a FIN, and every byte of it is there. -/
def Done (h : History) : Prop := h.seenFin = true ∧ ∀ x < h.totalLen, h.Covers x

instance (h : History) (x : Nat) : Decidable (h.Covers x) :=
  inferInstanceAs (Decidable (∃ f ∈ h, f.Covers x))

instance (h : History) : Decidable h.Done := inferInstanceAs (Decidable (_ ∧ ∀ x < h.totalLen, h.Covers x))

theorem highest_append (h : History) (f : Frame) :
    highest (h ++ [f]) = max h.highest (PartialMessage.endOf f) := by
  induction h with
  | nil => exact Nat.max_comm ..
  | cons g h ih =>
      change max _ (highest (h ++ [f])) = max (max _ (highest h)) _
      rw [ih, Nat.max_assoc]

theorem seenFin_append (h : History) (f : Frame) : seenFin (h ++ [f]) = (h.seenFin || f.fin) := by
  simp [seenFin]

theorem compressed_append (h : History) (f : Frame) :
    compressed (h ++ [f]) = (h.compressed || f.compressed) := by
  simp [compressed]

theorem totalLen_append (h : History) (f : Frame) :
    totalLen (h ++ [f]) = if f.fin then max h.highest (PartialMessage.endOf f) else h.totalLen := by
  cases hf : f.fin with
  | true => rw [totalLen, List.rdropWhile_concat_neg _ _ _ (by simp [hf]), highest_append, if_pos rfl]
  | false => rw [totalLen, List.rdropWhile_concat_pos _ _ _ (by simp [hf]), if_neg (by simp), totalLen]

theorem covers_append (h : History) (f : Frame) (x : Nat) :
    Covers (h ++ [f]) x ↔ h.Covers x ∨ f.Covers x := by
  simp [Covers, or_and_right, exists_or]

theorem latest_append (h : History) (f : Frame) (x : Nat) :
    latest (h ++ [f]) x = if f.Covers x then some f else h.latest x := by
  by_cases hf : f.Covers x <;> simp [latest, hf]

theorem latest_isSome (h : History) (x : Nat) : (∃ f, h.latest x = some f) ↔ h.Covers x := by
  rw [← Option.isSome_iff_exists, latest, List.find?_isSome]
  simp [Covers]

end History

/-! ### The partial message they make -/

theorem PartialMessage.beginOf_le (f : Frame) : beginOf f ≤ endOf f := by
  have hfrag : beginOf f ≤ 0xFFFFFFFF := by
    unfold beginOf
    split
    · exact Nat.le_of_lt_succ f.fragOffset.toNat_lt
    · exact Nat.zero_le _
  unfold endOf
  omega

/-- The partial message once exactly these fragments have arrived. -/
structure Holds (h : History) (p : PartialMessage) : Prop where
  canonical : Canonical p.ranges
  covered : ∀ x, x ∈ Library.covered p.ranges ↔ h.Covers x
  highWater : p.highWater = h.highest
  length : p.buffer.length = h.highest
  inside : ∀ x, h.Covers x → x < h.highest
  bounded : h.highest ≤ 0xFFFFFFFF
  buffer : ∀ x f, h.latest x = some f → p.buffer[x]? = f.payload[x - PartialMessage.beginOf f]?
  fin : p.haveFin = h.seenFin
  totalLen : p.totalLen = h.totalLen
  compressed : p.compressed = h.compressed

namespace Holds

theorem fresh (streamId : UInt16) (msgId : UInt32) : Holds [] { streamId, msgId } where
  canonical := .nil
  covered x := by simp [covered_nil, History.Covers]
  highWater := rfl
  length := rfl
  inside x hx := by simp [History.Covers] at hx
  bounded := Nat.zero_le _
  buffer x f hf := by simp [History.latest] at hf
  fin := rfl
  totalLen := rfl
  compressed := rfl

variable {h : History} {p : PartialMessage}

/-- One more fragment arrives. -/
theorem place (hp : Holds h p) (f : Frame) : Holds (h ++ [f]) (p.place f) := by
  have hbegin := PartialMessage.beginOf_le f
  have hend : PartialMessage.endOf f ≤ PartialMessage.beginOf f + f.payload.length := Nat.min_le_left ..
  have hclip : PartialMessage.endOf f = PartialMessage.beginOf f + f.payload.length ∨
      p.buffer.length ≤ PartialMessage.endOf f := by
    have hb := hp.bounded
    rw [hp.length, PartialMessage.endOf]
    omega
  refine ⟨?_, fun x => ?_, ?_, ?_, fun x hx => ?_, ?_, fun x g hg => ?_, ?_, ?_, ?_⟩
  · rw [PartialMessage.place_ranges]
    exact hp.canonical.addSpan _ _
  · rw [PartialMessage.place_ranges, hp.canonical.covered_addSpan, Set.mem_union, hp.covered,
      History.covers_append, Set.mem_Ico]
    rfl
  · rw [PartialMessage.place_highWater, hp.highWater, History.highest_append]
  · rw [PartialMessage.place_buffer, PartialMessage.length_fill, hp.length, History.highest_append]
  · rw [History.highest_append]
    obtain hx | ⟨-, hx⟩ := (History.covers_append h f x).mp hx
    · exact (hp.inside x hx).trans_le (Nat.le_max_left ..)
    · exact hx.trans_le (Nat.le_max_right ..)
  · rw [History.highest_append]
    exact Nat.max_le.mpr ⟨hp.bounded, Nat.min_le_right ..⟩
  · rw [PartialMessage.place_buffer]
    rw [History.latest_append] at hg
    split at hg
    · next hf =>
      obtain rfl := Option.some.inj hg
      exact PartialMessage.getElem?_fill_inside hf.1 hf.2 hend hclip
    · next hf =>
      have hx : x < p.buffer.length := by
        rw [hp.length]
        exact hp.inside x ((History.latest_isSome h x).mp ⟨g, hg⟩)
      have hout : x < PartialMessage.beginOf f ∨ PartialMessage.endOf f ≤ x := by
        rw [Frame.Covers] at hf
        omega
      rw [PartialMessage.getElem?_fill_outside hx hout hbegin hend hclip]
      exact hp.buffer x g hg
  · rw [PartialMessage.place_haveFin, hp.fin, History.seenFin_append]
  · rw [PartialMessage.place_totalLen, hp.highWater, hp.totalLen, History.totalLen_append]
  · rw [PartialMessage.place_compressed, hp.compressed, History.compressed_append]

/-- `is_complete` asks for a FIN, and for one single run of bytes that reaches the end. -/
theorem isComplete_iff (hp : Holds h p) :
    p.isComplete = true ↔ h.seenFin = true ∧
      (h.totalLen = 0 ∨ ∃ e, h.totalLen ≤ e ∧ ∀ x, h.Covers x ↔ x < e) := by
  rw [PartialMessage.isComplete, hp.fin, hp.totalLen]
  cases hfin : h.seenFin with
  | false => simp
  | true =>
      by_cases hzero : h.totalLen = 0
      · simp [hzero]
      · simp only [Bool.not_true, Bool.false_eq_true, if_false, hzero, true_and, false_or]
        constructor
        · intro hc
          split at hc
          · next b e hranges =>
            obtain ⟨hb, he⟩ := Bool.and_eq_true_iff.mp hc
            have hb : b = 0 := of_decide_eq_true hb
            refine ⟨e, of_decide_eq_true he, fun x => ?_⟩
            rw [← hp.covered, hranges, covered_cons, covered_nil, Set.union_empty, Set.mem_Ico, hb]
            simp
          · cases hc
        · rintro ⟨e, hle, hcov⟩
          have hranges : p.ranges = [(0, e)] := by
            refine hp.canonical.eq_singleton (by omega) ?_
            ext x
            rw [hp.covered, hcov, Set.mem_Ico]
            simp
          rw [hranges]
          simp [hle]

theorem done_of_isComplete (hp : Holds h p) (hc : p.isComplete = true) : h.Done := by
  obtain ⟨hfin, hshape⟩ := hp.isComplete_iff.mp hc
  refine ⟨hfin, fun x hx => ?_⟩
  obtain hzero | ⟨e, hle, hcov⟩ := hshape
  · omega
  · exact (hcov x).mpr (hx.trans_le hle)

end Holds

/-! ### Runs of `accept_data` -/

namespace Partials

theorem current_update_self (v : Partials) (k : Key) (p : PartialMessage) :
    current (Function.update v k (some p)) k = p := by
  rw [current, Function.update_self, Option.getD_some]

theorem current_update_none (v : Partials) (k : Key) :
    current (Function.update v k none) k = { streamId := k.1, msgId := k.2 } := by
  rw [current, Function.update_self, Option.getD_none]

/-- The frames accepted one after the other, each with what its call hands out. -/
def trace (v : Partials) : List Frame → List (Frame × Option Message)
  | [] => []
  | f :: fs => (f, (v.accept f).1) :: (v.accept f).2.trace fs

theorem trace_map_fst (v : Partials) (fs : List Frame) : (v.trace fs).map Prod.fst = fs := by
  induction fs generalizing v with
  | nil => rfl
  | cons f fs ih => rw [trace, List.map_cons, ih]

end Partials

namespace Reassembler

/-- Accept the frames one after the other, and pair each with what its call hands out. -/
def acceptAll (r : Reassembler) : List Frame → Outcome (List (Frame × Option Message) × Reassembler)
  | [] => .ok ([], r)
  | f :: fs => do
    let (out, r) ← r.acceptData f
    let (trace, r) ← r.acceptAll fs
    return ((f, out) :: trace, r)

theorem acceptAll_refines {r : Reassembler} (h : r.Wellformed) (fs : List Frame) :
    ∃ r', r.acceptAll fs = .ok (r.partials.trace fs, r') ∧ r'.Wellformed := by
  induction fs generalizing r with
  | nil => exact ⟨r, rfl, h⟩
  | cons f fs ih =>
      obtain ⟨r₁, hr₁, h₁, hpartials⟩ := acceptData_refines h f
      obtain ⟨r₂, hr₂, h₂⟩ := ih h₁
      refine ⟨r₂, ?_, h₂⟩
      rw [acceptAll, hr₁]
      change (r₁.acceptAll fs >>= _) = _
      rw [hr₂, hpartials]
      rfl

end Reassembler

namespace History

/-- The fragments of the key's partial message after one more call: a message that is handed out
takes its fragments along. -/
def after (k : Key) (h : History) (c : Frame × Option Message) : History :=
  if c.1.key = k then (if c.2.isSome then [] else h ++ [c.1]) else h

theorem after_self (h : History) (f : Frame) (out : Option Message) :
    after f.key h (f, out) = if out.isSome then [] else h ++ [f] :=
  if_pos rfl

theorem after_of_ne {k : Key} (h : History) {f : Frame} (hk : f.key ≠ k) (out : Option Message) :
    after k h (f, out) = h :=
  if_neg hk

/-- The fragments of the key's partial message after these calls. -/
def ofKey (k : Key) (calls : List (Frame × Option Message)) : History := calls.foldl (after k) []

end History

namespace Partials

/-- Every key's partial message is what its fragments make. -/
def Tracks (v : Partials) (hist : Key → History) : Prop := ∀ k, Holds (hist k) (v.current k)

/-- The message a complete partial becomes. -/
def outcome (f : Frame) (p : PartialMessage) : Option Message :=
  if p.isComplete then
    some { streamId := f.streamId, msgId := f.msgId, compressed := p.compressed
           data := p.buffer.take p.totalLen }
  else none

theorem accept_fst (v : Partials) (f : Frame) :
    (v.accept f).1 = outcome f ((v.current f.key).place f) := by
  unfold accept outcome
  dsimp only
  split <;> rfl

theorem Tracks.accept {v : Partials} {hist : Key → History} (h : v.Tracks hist) (f : Frame) :
    (v.accept f).2.Tracks fun k => (hist k).after k (f, (v.accept f).1) := by
  intro k
  change Holds ((hist k).after k (f, (v.accept f).1)) _
  by_cases hk : f.key = k
  · subst hk
    rw [History.after_self]
    unfold Partials.accept
    dsimp only
    split
    · rw [if_pos (by simp), current_update_none]
      exact .fresh _ _
    · rw [if_neg (by simp), current_update_self]
      exact (h f.key).place f
  · have hkeep : (v.accept f).2.current k = v.current k := by
      rw [current, accept_of_ne (Ne.symm hk), current]
    rw [History.after_of_ne _ hk, hkeep]
    exact h k

/-- What each call of a run hands out is decided by the fragments its key has by then. -/
theorem Tracks.trace {v : Partials} {hist : Key → History} (h : v.Tracks hist) {fs : List Frame}
    {pre post : List (Frame × Option Message)} {f : Frame} {out : Option Message}
    (hsplit : v.trace fs = pre ++ (f, out) :: post) :
    ∃ p, Holds (pre.foldl (History.after f.key) (hist f.key) ++ [f]) p ∧ out = outcome f p := by
  induction fs generalizing v hist pre with
  | nil => cases pre <;> cases hsplit
  | cons g fs ih =>
      rw [Partials.trace] at hsplit
      cases pre with
      | nil =>
          obtain ⟨hhead, -⟩ := List.cons.inj hsplit
          obtain ⟨rfl, rfl⟩ := Prod.mk.inj hhead
          exact ⟨_, (h g.key).place g, accept_fst v g⟩
      | cons c pre =>
          obtain ⟨rfl, htail⟩ := List.cons.inj hsplit
          exact ih (h.accept g) htail

end Partials

/-! ### What is handed out, and when -/

/-- The message is what its fragments say: the bytes of the latest fragment that covers them, and no
byte that was not received. -/
structure History.Yields (h : History) (m : Message) : Prop where
  length : m.data.length = h.totalLen
  received : ∀ x < h.totalLen, h.Covers x
  byte : ∀ x < m.data.length, ∃ f b, h.latest x = some f ∧
    f.payload[x - PartialMessage.beginOf f]? = some b ∧ m.data[x]? = some b
  compressed : m.compressed = true ↔ ∃ f ∈ h, f.compressed = true

theorem Holds.yields {h : History} {p : PartialMessage} (hp : Holds h p) {f : Frame} {m : Message}
    (hout : Partials.outcome f p = some m) : m.key = f.key ∧ h.Yields m := by
  rw [Partials.outcome] at hout
  split at hout
  · next hc =>
    obtain rfl := Option.some.inj hout
    have hdone := hp.done_of_isComplete hc
    have hle : p.totalLen ≤ p.buffer.length := by
      rw [hp.length, hp.totalLen]
      by_contra hlt
      exact Nat.lt_irrefl _ (hp.inside h.highest (hdone.2 _ (by omega)))
    have hlen : (p.buffer.take p.totalLen).length = h.totalLen := by
      rw [List.length_take_of_le hle, hp.totalLen]
    refine ⟨rfl, hlen, hdone.2, fun x hx => ?_, ?_⟩
    · rw [hlen] at hx
      obtain ⟨g, hg⟩ := (History.latest_isSome h x).mpr (hdone.2 x hx)
      have hxlen : x < p.buffer.length := by
        rw [hp.length]
        exact hp.inside x (hdone.2 x hx)
      refine ⟨g, p.buffer[x], hg, ?_, ?_⟩
      · rw [← hp.buffer x g hg, List.getElem?_eq_getElem hxlen]
      · rw [List.getElem?_take_of_lt (by rwa [hp.totalLen]), List.getElem?_eq_getElem hxlen]
    · rw [hp.compressed, History.compressed, List.any_eq_true]
  · cases hout

/-- In every run without a RESET, a message handed out is what the fragments of its partial say. -/
theorem acceptAll_yields (fs : List Frame) :
    ∃ calls r, ({} : Reassembler).acceptAll fs = .ok (calls, r) ∧ calls.map Prod.fst = fs ∧
      ∀ pre f m post, calls = pre ++ (f, some m) :: post →
        m.key = f.key ∧ (History.ofKey f.key pre ++ [f]).Yields m := by
  obtain ⟨r, hr, -⟩ := Reassembler.acceptAll_refines .empty fs
  refine ⟨_, r, hr, Partials.trace_map_fst _ fs, fun pre f m post hsplit => ?_⟩
  have htracks : (({} : Reassembler).partials).Tracks fun _ => [] := fun k => .fresh k.1 k.2
  obtain ⟨p, hp, hout⟩ := htracks.trace hsplit
  exact hp.yields hout.symm

/-- Two fragments, the last bytes first. -/
def swappedPair : List Frame :=
  [{ flags := 0x03, msgId := 5, fragOffset := 1, payload := [8] },
    { flags := 0x06, msgId := 5, payload := [7, 9] }]

theorem acceptAll_yields_swapped :
    ∃ calls r m, ({} : Reassembler).acceptAll swappedPair = .ok (calls, r) ∧
      calls.map Prod.snd = [none, some m] ∧ m.data = [7, 9] ∧ History.Yields swappedPair m := by
  obtain ⟨calls, r, hrun, hframes, hyields⟩ := acceptAll_yields swappedPair
  have houts : (fun c : List (Frame × Option Message) × Reassembler => c.1.map Prod.snd) <$>
      ({} : Reassembler).acceptAll swappedPair =
        .ok [none, some { streamId := 0, msgId := 5, compressed := true, data := [7, 9] }] := by
    decide +kernel
  rw [hrun] at houts
  have hcalls := Except.ok.inj houts
  refine ⟨calls, r, _, hrun, hcalls, rfl, ?_⟩
  have hzip : calls = swappedPair.zip
      [none, some { streamId := 0, msgId := 5, compressed := true, data := [7, 9] }] := by
    rw [← hframes, ← hcalls]
    exact List.zip_of_prod rfl rfl
  exact (hyields [_] _ _ [] hzip).2

/-- All of the message is there behind a FIN, and so is a byte behind a hole: the bytes received are
no single run. -/
def History.Stranded (h : History) : Prop :=
  h.Done ∧ 0 < h.totalLen ∧ ∃ x y, x < y ∧ ¬ h.Covers x ∧ h.Covers y

theorem Holds.outcome_isSome_iff {h : History} {p : PartialMessage} (hp : Holds h p) (f : Frame) :
    ((Partials.outcome f p).isSome = true ↔ h.Done) ↔ ¬ h.Stranded := by
  have hsome : (Partials.outcome f p).isSome = true ↔ p.isComplete = true := by
    unfold Partials.outcome
    split <;> simp_all
  rw [hsome]
  constructor
  · rintro hiff ⟨hdone, hpos, x, y, hlt, hx, hy⟩
    obtain hzero | ⟨e, -, hcov⟩ := (hp.isComplete_iff.mp (hiff.mpr hdone)).2
    · omega
    · have hye := (hcov y).mp hy
      exact hx ((hcov x).mpr (hlt.trans hye))
  · intro hfree
    refine ⟨hp.done_of_isComplete, fun hdone => hp.isComplete_iff.mpr ⟨hdone.1, ?_⟩⟩
    by_cases hzero : h.totalLen = 0
    · exact .inl hzero
    · -- the bytes received reach up to the first one that is missing
      have hmissing : ∃ e, ¬ h.Covers e := ⟨h.highest, fun hc => Nat.lt_irrefl _ (hp.inside _ hc)⟩
      classical
      let e := Nat.find hmissing
      have he : ¬ h.Covers e := Nat.find_spec hmissing
      have hbelow : ∀ x < e, h.Covers x := fun x hx => not_not.mp (Nat.find_min hmissing hx)
      refine .inr ⟨e, ?_, fun x => ⟨fun hx => ?_, hbelow x⟩⟩
      · by_contra hlt
        exact he (hdone.2 e (by omega))
      · by_contra hge
        have hlt : e < x := by
          refine lt_of_le_of_ne (Nat.le_of_not_lt hge) ?_
          rintro rfl
          exact he hx
        exact hfree ⟨hdone, Nat.pos_of_ne_zero hzero, e, x, hlt, he, hx⟩

/-- In every run without a RESET, a call hands its message out exactly when the message is done, unless
its partial is stranded. -/
theorem acceptAll_done_iff (fs : List Frame) :
    ∃ calls r, ({} : Reassembler).acceptAll fs = .ok (calls, r) ∧ calls.map Prod.fst = fs ∧
      ∀ pre f out post, calls = pre ++ (f, out) :: post →
        ((out.isSome = true ↔ (History.ofKey f.key pre ++ [f]).Done) ↔
          ¬ (History.ofKey f.key pre ++ [f]).Stranded) := by
  obtain ⟨r, hr, -⟩ := Reassembler.acceptAll_refines .empty fs
  refine ⟨_, r, hr, Partials.trace_map_fst _ fs, fun pre f out post hsplit => ?_⟩
  have htracks : (({} : Reassembler).partials).Tracks fun _ => [] := fun k => .fresh k.1 k.2
  obtain ⟨p, hp, rfl⟩ := htracks.trace hsplit
  exact hp.outcome_isSome_iff f

/-- The end of a message of two bytes, a byte that lies behind a hole, and the message's first byte. -/
def strandedRun : List Frame :=
  [{ flags := 0x03, fragOffset := 1, payload := [2] }, { flags := 0x02, fragOffset := 3, payload := [4] },
    { flags := 0x02, payload := [1] }]

theorem acceptAll_strandedRun :
    (fun c : List (Frame × Option Message) × Reassembler => c.1) <$>
      ({} : Reassembler).acceptAll strandedRun = .ok (strandedRun.map fun f => (f, none)) := by
  decide +kernel

/-- Its first fragment does not complete the message, and its last one leaves it stranded. -/
theorem acceptAll_done_iff_strandedRun :
    ∃ calls r, ({} : Reassembler).acceptAll strandedRun = .ok (calls, r) ∧
      ¬ (History.ofKey (0, 0) [] ++ strandedRun.take 1).Stranded ∧
      (History.ofKey (0, 0) (calls.take 2) ++ strandedRun.drop 2).Stranded := by
  obtain ⟨calls, r, hrun, -, hcalls⟩ := acceptAll_done_iff strandedRun
  have hnone := acceptAll_strandedRun
  rw [hrun] at hnone
  obtain rfl : calls = strandedRun.map fun f => (f, none) := Except.ok.inj hnone
  refine ⟨_, r, hrun, (hcalls [] _ none _ rfl).mp (by decide), ?_⟩
  by_contra hfree
  have hout := ((hcalls [_, _] _ none [] rfl).mpr hfree).mpr (by decide)
  cases hout

/-- A message whose bytes are all there stays in flight. -/
theorem acceptAll_stranded :
    ¬ ∀ (fs : List Frame) (calls : List (Frame × Option Message)) (r : Reassembler),
      ({} : Reassembler).acceptAll fs = .ok (calls, r) → ∀ pre f out post, calls = pre ++ (f, out) :: post →
        (out.isSome = true ↔ (History.ofKey f.key pre ++ [f]).Done) := by
  intro h
  have hnone := acceptAll_strandedRun
  cases hrun : ({} : Reassembler).acceptAll strandedRun with
  | error e =>
      rw [hrun] at hnone
      cases hnone
  | ok c =>
      obtain ⟨calls, r⟩ := c
      rw [hrun] at hnone
      obtain rfl : calls = strandedRun.map fun f => (f, none) := Except.ok.inj hnone
      have hout := (h _ _ r hrun [_, _] _ none [] rfl).mpr (by decide)
      cases hout

end Bytewright.Streamcodec
