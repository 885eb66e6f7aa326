import Bytewright.Verification.Binpack.Trees
import Bytewright.Verification.Binpack.Validation
import Bytewright.Verification.Binpack.Wire

/-! # What a decoded record costs on the wire -/

namespace Bytewright.Binpack

open Bytewright.Common Bytewright.Library

/-! ### Every node is paid for -/

/-- These trees stand for at least this many bytes: three for each node, and those it holds. -/
def Paid (bytes : Nat) (recs : List Record) : Prop := 3 * nodeCount recs + contentBytes recs ≤ bytes

theorem Paid.append {m n : Nat} {recs recs' : List Record} (h : Paid m recs) (h' : Paid n recs') :
    Paid (m + n) (recs ++ recs') := by
  simp only [Paid, nodeCount, contentBytes, Record.nodesOf_append, List.length_append, List.map_append,
    List.sum_append] at h h' ⊢
  omega

theorem Paid.mono {m n : Nat} {recs : List Record} (h : Paid m recs) (hmn : m ≤ n) : Paid n recs :=
  h.trans hmn

/-- A node is paid for by its header, by the bytes it holds and by its children. -/
theorem Paid.node {n : Nat} {rec : Record} (h : Paid n rec.children) :
    Paid (3 + rec.contentLength + n) [rec] := by
  simp only [Paid, nodeCount, contentBytes, Record.nodesOf, Record.nodes_eq, List.append_nil,
    List.length_cons, List.map_cons, List.sum_cons] at h ⊢
  omega

theorem paid_pieces {P : Bytes → Record → Prop} (hP : ∀ bs rec, P bs rec → Paid bs.length [rec])
    {pieces : List Bytes} {recs : List Record} (h : List.Forall₂ P pieces recs) :
    Paid pieces.flatten.length recs := by
  induction h with
  | nil => simp [Paid, nodeCount, contentBytes, Record.nodesOf]
  | cons hhead _ ih =>
      rw [List.flatten_cons, List.length_append]
      exact (hP _ _ hhead).append ih

theorem length_pos_of_reads {bs : Bytes} {v : UInt64} (h : Reads readVarint bs v) : 0 < bs.length := by
  apply List.length_pos_iff.mpr
  rintro rfl
  have hrun := h { data := [] } [] rfl
  cases hrun

theorem paid_body {P : Bytes → Record → Prop} (hP : ∀ bs rec, P bs rec → Paid bs.length [rec])
    {group : Bool} {tag : RecordTag} {payload : Bytes} {rec : Record} (h : Body P group tag payload rec) :
    Paid (3 + payload.length) [rec] := by
  have hnil : Paid 0 [] := Nat.le_refl _
  cases h with
  | kInt | kUint | kFloat => exact (Paid.node hnil).mono (by simp [Record.contentLength])
  | kString | kBlob => exact (Paid.node hnil).mono (by simp [Record.contentLength])
  | kArray hcount hlength hall =>
      exact (Paid.node (paid_pieces hP hall)).mono (by simp [Record.contentLength]; omega)
  | kGroup hall => exact (Paid.node (paid_pieces hP hall)).mono (by simp [Record.contentLength])
  | kKeyval hlen hkey hvalue =>
      exact (Paid.node (hP _ _ hvalue)).mono (by simp [Record.contentLength]; omega)

theorem Frame.length_bytes (f : Frame) : 3 + f.payload.length ≤ f.bytes.length := by
  have hpos := length_pos_of_reads f.spelled
  simp only [Frame.bytes, List.length_append, List.length_singleton]
  omega

theorem Encodes.paid {room : Nat} {bs : Bytes} {rec : Record} (h : Encodes room bs rec) :
    Paid bs.length [rec] := by
  induction room generalizing bs rec with
  | zero => cases h
  | succ room ih =>
      rcases h with ⟨f, tag, rfl, -, hbody⟩
      exact (paid_body (fun _ _ => ih) hbody).mono f.length_bytes

theorem Encodes.length {room : Nat} {bs : Bytes} {rec : Record} (h : Encodes room bs rec) :
    3 ≤ bs.length := by
  cases room with
  | zero => cases h
  | succ room =>
      rcases h with ⟨f, tag, rfl, -⟩
      exact (Nat.le_add_right _ _).trans f.length_bytes

theorem paid_parseStream {maxDepth base depth : Nat} {r s : ByteReader} {recs : List Record}
    (h : parseStream maxDepth base depth r = .ok recs s) : Paid r.rest.length recs := by
  rcases bind_eq_ok.mp h with ⟨r', t, hget, hloop⟩
  cases hget
  rcases (takes_parseRecordIn _ _).streamLoop _ hloop with ⟨pieces, hrest, -, -, hall⟩
  rw [hrest]
  exact paid_pieces (fun _ _ => Encodes.paid) hall

/-! ### Loops end -/

/-- A record is never read off fewer than three bytes. -/
theorem lowers_parseRecordIn (room base : Nat) :
    Lowers ByteReader.remaining 3 (parseRecordIn room base) := by
  intro r rec s h
  rcases takes_parseRecordIn room base r rec s h with ⟨bs, hr, -, hencodes⟩
  have hlength := hencodes.length
  rw [s.remaining_eq, r.remaining_eq, hr, List.length_append]
  omega

section Loops

variable {α : Type} {item : Reader α} {k : Nat}

/-- A loop asked for more rounds than the bytes can pay for fails within those they can, whatever more
it is asked for. -/
theorem readTimes_starved (hitem : Lowers ByteReader.remaining k item) {count : Nat}
    {r : ByteReader} (h : r.remaining < k * count) :
    ∃ e s, ∀ more, readTimes item (count + more) r = .error e s := by
  induction count generalizing r with
  | zero => simp at h
  | succ count ih =>
      cases hrun : item r with
      | error e s =>
          refine ⟨e, s, fun more => ?_⟩
          rw [Nat.add_right_comm]
          exact bind_of_error hrun
      | ok a t =>
          have hlower := hitem r a t hrun
          rw [Nat.mul_succ] at h
          rcases ih (r := t) (by omega) with ⟨e, s, hrest⟩
          refine ⟨e, s, fun more => ?_⟩
          rw [Nat.add_right_comm]
          exact (bind_of_ok hrun).trans (bind_of_error (hrest more))

/-- A lie about the number of records costs one round more than the bytes can pay for. -/
theorem readTimes_min (hk : 0 < k) (hitem : Lowers ByteReader.remaining k item)
    (count : Nat) (r : ByteReader) :
    readTimes item count r = readTimes item (min count (r.remaining / k + 1)) r := by
  by_cases hcount : count ≤ r.remaining / k + 1
  · rw [Nat.min_eq_left hcount]
  · have hle : r.remaining / k + 1 ≤ count := by omega
    rcases Nat.exists_eq_add_of_le hle with ⟨more, hmore⟩
    rcases readTimes_starved hitem (Nat.lt_mul_div_succ r.remaining hk) with ⟨e, s, hstarved⟩
    rw [Nat.min_eq_right hle, hmore, hstarved more]
    exact (hstarved 0).symm

theorem onlyThrows_readTimes (hitem : OnlyThrows item) (count : Nat) :
    OnlyThrows (readTimes item count) := by
  induction count with
  | zero => exact .pure []
  | succ count ih => exact hitem.bind fun _ => ih.bind fun _ => .pure _

theorem streamLoop_thrown (hlower : Lowers ByteReader.remaining 1 item)
    (hitem : OnlyThrows item) {fuel : Nat} {r s : ByteReader} {e : Fault} (hfuel : r.remaining < fuel)
    (h : streamLoop item fuel r = .error e s) : ∃ err, e = .thrown err := by
  induction fuel generalizing r with
  | zero => simp at hfuel
  | succ fuel ih =>
      rw [streamLoop, bind_of_ok (get_run r), ite_run] at h
      split at h
      · cases h
      · rw [bind_run] at h
        split at h
        · next a t hrun =>
          have hrest := hlower _ _ _ hrun
          rw [bind_run] at h
          split at h
          · cases h
          · next e' u hloop =>
            cases h
            exact ih (by omega) hloop
        · next e' t hrun =>
          cases h
          exact hitem _ _ _ hrun

/-- The stream loop never uses up its rounds. -/
theorem onlyThrows_streamOf (hlower : Lowers ByteReader.remaining 1 item)
    (hitem : OnlyThrows item) : OnlyThrows (streamOf item) := by
  intro r e s h
  rw [streamOf, bind_of_ok (get_run r)] at h
  exact streamLoop_thrown hlower hitem (Nat.lt_succ_self _) h

end Loops

theorem onlyThrows_parsePayload {nested : Reader Record}
    (hlower : Lowers ByteReader.remaining 1 nested) (hnested : OnlyThrows nested)
    (base : Nat) (rec : Record) : OnlyThrows (parsePayload base nested rec) := by
  have hrest : ∀ f : Bytes → Reader Record, (∀ bs, OnlyThrows (f bs)) →
      OnlyThrows (do f (← readRaw (← get).remaining)) := fun f hf =>
    OnlyThrows.bind .get fun r => (OnlyThrows.readRaw _).bind hf
  unfold parsePayload
  cases rec.tag with
  | kInt => exact (onlyThrows_readVarint.bind fun _ => .pure _).bind fun _ => .pure _
  | kUint => exact onlyThrows_readVarint.bind fun _ => .pure _
  | kFloat => exact ((OnlyThrows.readRaw 8).bind fun _ => .pure _).bind fun _ => .pure _
  | kString => exact hrest _ fun _ => .pure _
  | kBlob => exact hrest _ fun _ => .pure _
  | kArray => exact onlyThrows_readVarint.bind fun _ => (onlyThrows_readTimes hnested _).bind fun _ => .pure _
  | kGroup => exact (onlyThrows_streamOf hlower hnested).bind fun _ => .pure _
  | kKeyval =>
      refine onlyThrows_readVarint.bind fun _ => (OnlyThrows.readRaw _).bind fun _ => ?_
      refine hnested.bind fun _ => OnlyThrows.bind .get fun _ => ?_
      exact .ite (.raise _ _ _) (.pure _)

theorem onlyThrows_parseRecordIn (room base : Nat) : OnlyThrows (parseRecordIn room base) := by
  induction room generalizing base with
  | zero => exact OnlyThrows.bind .get fun r => .raise _ _ _
  | succ room ih =>
      refine OnlyThrows.bind .get fun r => OnlyThrows.bind .readU8 fun tagByte => ?_
      refine OnlyThrows.bind .readU8 fun flags => ?_
      cases RecordTag.ofByte? tagByte with
      | none => exact .raise _ _ _
      | some tag =>
          refine onlyThrows_readVarint.bind fun length => OnlyThrows.bind .get fun r' => ?_
          refine (OnlyThrows.readRaw _).bind fun payload => .within ?_
          exact onlyThrows_parsePayload ((lowers_parseRecordIn room _).mono (by omega)) (ih _) _ _

theorem onlyThrows_parseStream (maxDepth base depth : Nat) :
    OnlyThrows (parseStream maxDepth base depth) :=
  onlyThrows_streamOf ((lowers_parseRecordIn _ base).mono (by omega)) (onlyThrows_parseRecordIn _ base)

/-! ### The container -/

/-- A check that throws unless it holds. -/
theorem onlyThrows_check {α : Type} {c : Prop} [Decidable c] {code : ErrorCode} {i : Nat} {w : String}
    {f : Unit → Reader α} (hf : OnlyThrows (f ())) :
    OnlyThrows (if c then raise code i w >>= f else f ()) :=
  .ite (OnlyThrows.bind (.raise code i w) fun _ => hf) hf

theorem onlyThrows_verifyCrc (computed stored : UInt32) (strict : Bool) (offset : Nat) (what : String) :
    OnlyThrows (verifyCrc computed stored strict offset what) :=
  .ite (.pure _) (onlyThrows_check (.pure _))

theorem onlyThrows_readU16le : OnlyThrows readU16le := OnlyThrows.bind (.readRaw 2) fun _ => .pure _

theorem onlyThrows_readU32le : OnlyThrows readU32le := OnlyThrows.bind (.readRaw 4) fun _ => .pure _

theorem onlyThrows_readHeader (strict : Bool) : OnlyThrows (readHeader strict) := by
  refine OnlyThrows.bind .get fun r => OnlyThrows.bind (.readRaw 4) fun magic => onlyThrows_check ?_
  refine onlyThrows_readU16le.bind fun version => onlyThrows_check ?_
  refine onlyThrows_readU16le.bind fun flags => onlyThrows_readU16le.bind fun sectionCount => ?_
  refine onlyThrows_readU16le.bind fun _ => onlyThrows_readU32le.bind fun headerCrcStored => ?_
  exact (onlyThrows_verifyCrc _ _ _ _ _).bind fun _ => .pure _

theorem onlyThrows_readEntry : OnlyThrows readEntry := by
  refine onlyThrows_readU16le.bind fun rawType => ?_
  cases SectionType.ofRaw? rawType with
  | none => exact OnlyThrows.bind .get fun _ => .raise _ _ _
  | some type =>
      refine onlyThrows_readU16le.bind fun id => onlyThrows_readU16le.bind fun flags => ?_
      refine onlyThrows_readU16le.bind fun _ => onlyThrows_readU32le.bind fun offset => ?_
      refine onlyThrows_readU32le.bind fun length => onlyThrows_readU32le.bind fun itemCount => ?_
      exact onlyThrows_readU32le.bind fun _ => .pure _

theorem onlyThrows_readTable (sectionCount : UInt16) : OnlyThrows (readTable sectionCount) :=
  OnlyThrows.bind .get fun _ => onlyThrows_check (onlyThrows_readTimes onlyThrows_readEntry _)

theorem onlyThrows_parseSection (opts : Options) (e : Entry) : OnlyThrows (parseSection opts e) := by
  refine OnlyThrows.bind .get fun r => onlyThrows_check ?_
  refine (onlyThrows_verifyCrc _ _ _ _ _).bind fun ok => ?_
  refine .ite (OnlyThrows.bind (.pure _) fun _ => .pure _) ?_
  exact (OnlyThrows.within (onlyThrows_parseStream _ _ _)).bind fun _ => .pure _

theorem onlyThrows_foldlM {α β : Type} {f : α → β → Reader α} (hf : ∀ a b, OnlyThrows (f a b)) (a : α)
    (bs : List β) : OnlyThrows (bs.foldlM f a) := by
  induction bs generalizing a with
  | nil => exact .pure a
  | cons b bs ih =>
      rw [List.foldlM_cons]
      exact (hf a b).bind fun _ => ih _

theorem onlyThrows_parseTrailer (c : Container) (strict : Bool) : OnlyThrows (parseTrailer c strict) := by
  refine .ite (OnlyThrows.bind .get fun r => onlyThrows_check ?_) (.pure _)
  exact (OnlyThrows.within onlyThrows_readU32le).bind fun _ => onlyThrows_verifyCrc _ _ _ _ _

theorem onlyThrows_parseContainer (opts : Options) : OnlyThrows (parseContainer opts) := by
  refine (onlyThrows_readHeader _).bind fun c => (onlyThrows_readTable _).bind fun entries => ?_
  have hround : ∀ c e, OnlyThrows (sectionRound opts c e) := fun c e =>
    (onlyThrows_parseSection opts e).bind fun _ => .pure _
  refine (onlyThrows_foldlM hround _ _).bind fun c => ?_
  exact (onlyThrows_parseTrailer _ _).bind fun _ => .pure _

theorem parse_thrown {data : Bytes} {opts : Options} {e : Fault} (h : parse data opts = .error e) :
    ∃ err, e = .thrown err := by
  rw [parse] at h
  split at h
  · cases h
  · next e' s hrun =>
    cases h
    exact onlyThrows_parseContainer opts _ _ _ hrun

theorem paid_parse {data : Bytes} {opts : Options} {c : Container} (h : parse data opts = .ok c) :
    ∀ s ∈ c.sections, Paid s.length.toNat s.records := by
  intro s hs
  rcases parse_records h s hs with hnil | ⟨base, body, u, hlength, hstream⟩
  · simp [hnil, Paid, nodeCount, contentBytes, Record.nodesOf]
  · exact (paid_parseStream hstream).mono hlength

/-- Whatever the file claims, a section's records never hold more than the section has bytes, nor the
records of a stream more than the stream. Parsing returns or throws an exception of the source, and a
counted loop makes at most one round more than there are headers in the bytes left. -/
theorem parse_accounts (data : Bytes) (opts : Options) :
    (∀ c, parse data opts = .ok c → ∀ s ∈ c.sections,
      3 * nodeCount s.records + contentBytes s.records ≤ s.length.toNat) ∧
    (∀ e, parse data opts = .error e → ∃ err, e = .thrown err) ∧
    ∀ (maxDepth base depth : Nat) (r : ByteReader),
      ((∃ recs s, parseStream maxDepth base depth r = .ok recs s ∧
          3 * nodeCount recs + contentBytes recs ≤ r.remaining) ∨
        ∃ err s, parseStream maxDepth base depth r = .error (.thrown err) s) ∧
      ∀ count, readTimes (parseRecord maxDepth base depth) count r =
        readTimes (parseRecord maxDepth base depth) (min count (r.remaining / 3 + 1)) r := by
  refine ⟨fun c h => paid_parse h, fun e h => parse_thrown h, fun maxDepth base depth r => ⟨?_, ?_⟩⟩
  · cases hrun : parseStream maxDepth base depth r with
    | ok recs s =>
        have hpaid := paid_parseStream hrun
        rw [← r.remaining_eq] at hpaid
        exact .inl ⟨recs, s, rfl, hpaid⟩
    | error e s =>
        rcases onlyThrows_parseStream _ _ _ _ _ _ hrun with ⟨err, rfl⟩
        exact .inr ⟨err, s, rfl⟩
  · exact fun count => readTimes_min (by decide) (lowers_parseRecordIn _ base) count r

/-- The file of two KEYVALs has four nodes and two bytes of keys in 18 bytes. -/
theorem parse_accounts_keyTwice :
    ∃ c, parse keyTwice {} = .ok c ∧ ∀ s ∈ c.sections,
      3 * nodeCount s.records + contentBytes s.records ≤ s.length.toNat := by
  have hreturns : (parse keyTwice {}).isOk = true := by decide +kernel
  cases hparse : parse keyTwice {} with
  | error e =>
      rw [hparse] at hreturns
      cases hreturns
  | ok c => exact ⟨c, rfl, (parse_accounts keyTwice {}).1 c hparse⟩

end Bytewright.Binpack
