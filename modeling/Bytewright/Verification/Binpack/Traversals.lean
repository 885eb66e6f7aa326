import Mathlib.Data.List.Nodup
import Bytewright.Model.Binpack.Query
import Bytewright.Verification.Binpack.Trees
import Bytewright.Verification.Binpack.Validation
import Bytewright.Verification.Binpack.Wire

/-! # Walking a container and querying it -/

namespace Bytewright.Binpack

open Bytewright.Common

/-! ### The callbacks of a walk -/

/-- The containers among records. -/
inductive Nest where
  | array
  | group
  | keyval
  deriving DecidableEq, Repr

def RecordTag.nest? : RecordTag → Option Nest
  | .kArray => some .array
  | .kGroup => some .group
  | .kKeyval => some .keyval
  | .kInt | .kUint | .kFloat | .kString | .kBlob => none

/-- One callback with its arguments. -/
inductive Callback where
  | enterSection (s : Section) (index : Nat)
  | leaveSection (s : Section) (index : Nat)
  | visitScalar (rec : RecordRef) (depth index : Nat)
  | enter (kind : Nest) (rec : RecordRef) (depth index : Nat)
  | leave (kind : Nest) (rec : RecordRef) (depth index : Nat)
  deriving Repr

namespace RecordVisitor

variable {σ : Type}

def call (visitor : RecordVisitor σ) (st : σ) : Callback → σ
  | .enterSection s index => visitor.enterSection s index st
  | .leaveSection s index => visitor.leaveSection s index st
  | .visitScalar rec depth index => visitor.visitScalar rec depth index st
  | .enter .array rec depth index => visitor.enterArray rec depth index st
  | .enter .group rec depth index => visitor.enterGroup rec depth index st
  | .enter .keyval rec depth index => visitor.enterKeyval rec depth index st
  | .leave .array rec depth index => visitor.leaveArray rec depth index st
  | .leave .group rec depth index => visitor.leaveGroup rec depth index st
  | .leave .keyval rec depth index => visitor.leaveKeyval rec depth index st

/-- The visitor that writes its callbacks down. -/
def recorder : RecordVisitor (List Callback) where
  enterSection s index trace := trace ++ [.enterSection s index]
  leaveSection s index trace := trace ++ [.leaveSection s index]
  visitScalar rec depth index trace := trace ++ [.visitScalar rec depth index]
  enterArray rec depth index trace := trace ++ [.enter .array rec depth index]
  leaveArray rec depth index trace := trace ++ [.leave .array rec depth index]
  enterGroup rec depth index trace := trace ++ [.enter .group rec depth index]
  leaveGroup rec depth index trace := trace ++ [.leave .group rec depth index]
  enterKeyval rec depth index trace := trace ++ [.enter .keyval rec depth index]
  leaveKeyval rec depth index trace := trace ++ [.leave .keyval rec depth index]

end RecordVisitor

def callbacks (c : Container) : List Callback := RecordVisitor.recorder.walk c []

mutual

/-- The callbacks for the record at `path`. -/
def traceRecord (path : List Nat) (depth index : Nat) : Record → List Callback
  | ⟨tag, group, i64, u64, f64, str, blob, children, key⟩ =>
    let ref : RecordRef := ⟨path, ⟨tag, group, i64, u64, f64, str, blob, children, key⟩⟩
    match tag.nest? with
    | none => [.visitScalar ref depth index]
    | some kind =>
      .enter kind ref depth index ::
        (traceRecords path (depth + 1) 0 children ++ [.leave kind ref depth index])

def traceRecords (path : List Nat) (depth i : Nat) : List Record → List Callback
  | [] => []
  | rec :: recs => traceRecord (path ++ [i]) depth i rec ++ traceRecords path depth (i + 1) recs

end

def traceSection (entry : Section × Nat) : List Callback :=
  .enterSection entry.1 entry.2 ::
    (traceRecords [entry.2] 0 0 entry.1.records ++ [.leaveSection entry.1 entry.2])

section Walk

variable {σ : Type} (visitor : RecordVisitor σ)

mutual

theorem walkRecord_eq (path : List Nat) (depth index : Nat) (st : σ) : ∀ rec : Record,
    visitor.walkRecord path depth index st rec =
      (traceRecord path depth index rec).foldl visitor.call st
  | ⟨tag, group, i64, u64, f64, str, blob, children, key⟩ => by
      have hchildren := fun st => walkRecords_eq path (depth + 1) 0 st children
      cases tag <;>
        simp [RecordVisitor.walkRecord, traceRecord, RecordTag.nest?, RecordVisitor.call, hchildren]

theorem walkRecords_eq (path : List Nat) (depth i : Nat) (st : σ) : ∀ recs : List Record,
    visitor.walkRecords path depth i st recs = (traceRecords path depth i recs).foldl visitor.call st
  | [] => rfl
  | rec :: recs => by
      rw [RecordVisitor.walkRecords, traceRecords, List.foldl_append, walkRecord_eq, walkRecords_eq]

end

theorem walk_eq_trace (c : Container) (st : σ) :
    visitor.walk c st = (c.sections.zipIdx.flatMap traceSection).foldl visitor.call st := by
  have hround : visitor.walkSection = fun st entry => (traceSection entry).foldl visitor.call st := by
    funext st entry
    simp [RecordVisitor.walkSection, traceSection, walkRecords_eq, RecordVisitor.call]
  rw [RecordVisitor.walk, hround, List.foldl_flatMap]

end Walk

theorem foldl_recorder (es trace : List Callback) :
    es.foldl RecordVisitor.recorder.call trace = trace ++ es := by
  induction es generalizing trace with
  | nil => simp
  | cons e es ih =>
      have hcall : RecordVisitor.recorder.call trace e = trace ++ [e] := by
        rcases e with _ | _ | _ | ⟨kind, _⟩ | ⟨kind, _⟩
        · rfl
        · rfl
        · rfl
        · cases kind <;> rfl
        · cases kind <;> rfl
      rw [List.foldl_cons, hcall, ih, List.append_assoc, List.singleton_append]

theorem callbacks_eq (c : Container) : callbacks c = c.sections.zipIdx.flatMap traceSection := by
  rw [callbacks, walk_eq_trace, foldl_recorder, List.nil_append]

/-! ### Brackets -/

/-- Callbacks at this depth, in which whatever is entered is left again, with the same record, depth and
index, after what lies one level deeper. -/
inductive Bracketed : (depth : Nat) → List Callback → Prop where
  | nil {depth : Nat} : Bracketed depth []
  | scalar {depth index : Nat} {rec : RecordRef} {es : List Callback} (h : Bracketed depth es) :
      Bracketed depth (.visitScalar rec depth index :: es)
  | nest {depth index : Nat} {kind : Nest} {rec : RecordRef} {inner es : List Callback}
      (hinner : Bracketed (depth + 1) inner) (h : Bracketed depth es) :
      Bracketed depth (.enter kind rec depth index :: (inner ++ .leave kind rec depth index :: es))

/-- The same of sections, whose records are at depth 0. -/
inductive SectionsBracketed : List Callback → Prop where
  | nil : SectionsBracketed []
  | section {s : Section} {index : Nat} {inner es : List Callback} (hinner : Bracketed 0 inner)
      (h : SectionsBracketed es) :
      SectionsBracketed (.enterSection s index :: (inner ++ .leaveSection s index :: es))

theorem Bracketed.append {depth : Nat} {es es' : List Callback} (h : Bracketed depth es)
    (h' : Bracketed depth es') : Bracketed depth (es ++ es') := by
  induction h with
  | nil => exact h'
  | scalar _ ih => exact .scalar (ih h')
  | nest hinner _ _ ih =>
      rw [List.cons_append, List.append_assoc]
      exact .nest hinner (ih h')

mutual

theorem bracketed_traceRecord (path : List Nat) (depth index : Nat) : ∀ rec : Record,
    Bracketed depth (traceRecord path depth index rec)
  | ⟨tag, group, i64, u64, f64, str, blob, children, key⟩ => by
      rw [traceRecord]
      cases tag.nest? with
      | none => exact .scalar .nil
      | some kind => exact .nest (bracketed_traceRecords path (depth + 1) 0 children) .nil

theorem bracketed_traceRecords (path : List Nat) (depth i : Nat) : ∀ recs : List Record,
    Bracketed depth (traceRecords path depth i recs)
  | [] => .nil
  | rec :: recs => by
      rw [traceRecords]
      exact (bracketed_traceRecord _ depth i rec).append (bracketed_traceRecords path depth (i + 1) recs)

end

theorem sectionsBracketed_trace (entries : List (Section × Nat)) :
    SectionsBracketed (entries.flatMap traceSection) := by
  induction entries with
  | nil => exact .nil
  | cons entry entries ih =>
      rw [List.flatMap_cons, traceSection, List.cons_append, List.append_assoc]
      exact .section (bracketed_traceRecords _ 0 0 _) ih

/-! ### The nodes of a tree, by where they lie -/

mutual

/-- The record at `path` and what lies below it, in pre-order. -/
def Record.refs (path : List Nat) : Record → List RecordRef
  | ⟨tag, group, i64, u64, f64, str, blob, children, key⟩ =>
    ⟨path, ⟨tag, group, i64, u64, f64, str, blob, children, key⟩⟩ :: refsBelow path 0 children

/-- The same of the records below `path`, from the index `i` on. -/
def refsBelow (path : List Nat) (i : Nat) : List Record → List RecordRef
  | [] => []
  | rec :: recs => rec.refs (path ++ [i]) ++ refsBelow path (i + 1) recs

end

theorem refs_eq (path : List Nat) (rec : Record) :
    rec.refs path = ⟨path, rec⟩ :: refsBelow path 0 rec.children := by
  cases rec
  rw [Record.refs]

/-- The record below this one that the indices lead down to. -/
def Record.descendant? (rec : Record) : List Nat → Option Record
  | [] => some rec
  | i :: path => (rec.children[i]?).bind fun child => child.descendant? path

/-- The record of a container at a path. -/
def Container.recordAt? (c : Container) : List Nat → Option Record
  | si :: i :: path =>
    (c.sections[si]?).bind fun s => (s.records[i]?).bind fun rec => rec.descendant? path
  | _ => none

mutual

theorem mem_refs (path : List Nat) (ref : RecordRef) : ∀ rec : Record, ref ∈ rec.refs path ↔
    ∃ rest, ref.path = path ++ rest ∧ rec.descendant? rest = some ref.record
  | ⟨tag, group, i64, u64, f64, str, blob, children, key⟩ => by
      rw [refs_eq, List.mem_cons, mem_refsBelow path 0 ref children]
      constructor
      · rintro (rfl | ⟨j, child, rest, hchild, hpath, hrecord⟩)
        · exact ⟨[], by simp, rfl⟩
        · exact ⟨j :: rest, by simpa using hpath, by simp [Record.descendant?, hchild, hrecord]⟩
      · rintro ⟨rest, hpath, hrecord⟩
        cases rest with
        | nil =>
            cases ref
            cases hrecord
            simp at hpath
            exact .inl (by rw [hpath])
        | cons j rest =>
            rw [Record.descendant?] at hrecord
            rcases Option.bind_eq_some_iff.mp hrecord with ⟨child, hchild, hrecord⟩
            exact .inr ⟨j, child, rest, hchild, by simpa using hpath, hrecord⟩

theorem mem_refsBelow (path : List Nat) (i : Nat) (ref : RecordRef) : ∀ recs : List Record,
    ref ∈ refsBelow path i recs ↔
      ∃ j rec rest, recs[j]? = some rec ∧ ref.path = path ++ (i + j) :: rest ∧
        rec.descendant? rest = some ref.record
  | [] => by simp [refsBelow]
  | rec :: recs => by
      rw [refsBelow, List.mem_append, mem_refs (path ++ [i]) ref rec, mem_refsBelow path (i + 1) ref recs]
      constructor
      · rintro (⟨rest, hpath, hrecord⟩ | ⟨j, rec', rest, hrec, hpath, hrecord⟩)
        · exact ⟨0, rec, rest, rfl, by simpa using hpath, hrecord⟩
        · exact ⟨j + 1, rec', rest, hrec, by rw [hpath, Nat.add_right_comm]; rfl, hrecord⟩
      · rintro ⟨j, rec', rest, hrec, hpath, hrecord⟩
        cases j with
        | zero =>
            cases hrec
            exact .inl ⟨rest, by simpa using hpath, hrecord⟩
        | succ j => exact .inr ⟨j, rec', rest, hrec, by rw [hpath, Nat.add_right_comm]; rfl, hrecord⟩

end

/-- What lies below a path lies deeper. -/
theorem length_lt_of_mem_refsBelow {path : List Nat} {i : Nat} {recs : List Record} {ref : RecordRef}
    (h : ref ∈ refsBelow path i recs) : path.length < ref.path.length := by
  rcases (mem_refsBelow path i ref recs).mp h with ⟨j, rec, rest, -, hpath, -⟩
  simp [hpath]

mutual

theorem nodup_refs (path : List Nat) : ∀ rec : Record, ((rec.refs path).map RecordRef.path).Nodup
  | ⟨tag, group, i64, u64, f64, str, blob, children, key⟩ => by
      rw [refs_eq, List.map_cons, List.nodup_cons]
      refine ⟨fun hmem => ?_, nodup_refsBelow path 0 children⟩
      rcases List.mem_map.mp hmem with ⟨ref, href, hpath⟩
      have hlt := length_lt_of_mem_refsBelow href
      rw [hpath] at hlt
      exact absurd hlt (Nat.lt_irrefl _)

theorem nodup_refsBelow (path : List Nat) (i : Nat) : ∀ recs : List Record,
    ((refsBelow path i recs).map RecordRef.path).Nodup
  | [] => by simp [refsBelow]
  | rec :: recs => by
      rw [refsBelow, List.map_append, List.nodup_append]
      refine ⟨nodup_refs _ rec, nodup_refsBelow path (i + 1) recs, ?_⟩
      -- the index below `path` tells the subtrees apart
      rintro place hfirst place' hlater hpath
      rcases List.mem_map.mp hfirst with ⟨ref, href, rfl⟩
      rcases List.mem_map.mp hlater with ⟨ref', href', rfl⟩
      rcases (mem_refs _ ref rec).mp href with ⟨rest, hplace, -⟩
      rcases (mem_refsBelow path (i + 1) ref' recs).mp href' with ⟨j, rec', rest', -, hplace', -⟩
      rw [hplace, hplace'] at hpath
      simp at hpath
      omega

end

/-! ### What is visited -/

/-- The record a callback announces, with its depth. Leaving one does not announce it again. -/
def Callback.visit? : Callback → Option (RecordRef × Nat)
  | .visitScalar rec depth _ => some (rec, depth)
  | .enter _ rec depth _ => some (rec, depth)
  | .leave .. | .enterSection .. | .leaveSection .. => none

def visits (c : Container) : List (RecordRef × Nat) := (callbacks c).filterMap Callback.visit?

/-- A tree in which only containers have children, as the parser builds it. -/
inductive Record.Shaped : Record → Prop where
  | node {rec : Record} (bare : rec.tag.nest? = none → rec.children = [])
      (below : ∀ child ∈ rec.children, child.Shaped) : rec.Shaped

mutual

theorem visits_traceRecord {path : List Nat} {depth : Nat} (hdepth : path.length = depth + 2) (index : Nat) :
    ∀ rec : Record, rec.Shaped → (traceRecord path depth index rec).filterMap Callback.visit? =
      (rec.refs path).map fun ref => (ref, ref.path.length - 2)
  | ⟨tag, group, i64, u64, f64, str, blob, children, key⟩, .node bare below => by
      have hself : path.length - 2 = depth := by omega
      rw [traceRecord, refs_eq]
      cases hnest : tag.nest? with
      | none =>
          have hleaf : children = [] := bare hnest
          simp [hleaf, refsBelow, Callback.visit?, hself]
      | some kind =>
          have hbelow := @visits_traceRecords path (depth + 1) hdepth 0 children below
          simp [Callback.visit?, hself, hbelow]

theorem visits_traceRecords {path : List Nat} {depth : Nat} (hdepth : path.length = depth + 1) (i : Nat) :
    ∀ recs : List Record, (∀ rec ∈ recs, rec.Shaped) →
      (traceRecords path depth i recs).filterMap Callback.visit? =
        (refsBelow path i recs).map fun ref => (ref, ref.path.length - 2)
  | [], _ => rfl
  | rec :: recs, hshaped => by
      rw [List.forall_mem_cons] at hshaped
      rw [traceRecords, refsBelow, List.filterMap_append, List.map_append,
        visits_traceRecord (by simp [hdepth]) i rec hshaped.1, visits_traceRecords hdepth (i + 1) recs hshaped.2]

end

/-- The records of a container, by where they lie. -/
def Container.refs (c : Container) : List RecordRef :=
  c.sections.zipIdx.flatMap fun entry => refsBelow [entry.2] 0 entry.1.records

theorem visits_eq {c : Container} (hshaped : ∀ s ∈ c.sections, ∀ rec ∈ s.records, rec.Shaped) :
    visits c = c.refs.map fun ref => (ref, ref.path.length - 2) := by
  have hentries : ∀ entry ∈ c.sections.zipIdx, (traceSection entry).filterMap Callback.visit? =
      (refsBelow [entry.2] 0 entry.1.records).map fun ref => (ref, ref.path.length - 2) := by
    intro entry hentry
    have hmem : entry.1 ∈ c.sections := (List.mem_zipIdx' hentry).2 ▸ List.getElem_mem _
    have hrecords := @visits_traceRecords [entry.2] 0 rfl 0 entry.1.records (hshaped _ hmem)
    simp [traceSection, List.filterMap_cons, Callback.visit?, hrecords]
  rw [visits, callbacks_eq, Container.refs, List.filterMap_flatMap, List.map_flatMap]
  exact List.flatMap_congr hentries

/-! ### What is collected -/

mutual

theorem collectRecord_recursive (tag : RecordTag) (path : List Nat) (out : List RecordRef) :
    ∀ rec : Record, collectRecord tag true path out rec =
      out ++ (rec.refs path).filter fun ref => ref.record.tag = tag
  | ⟨tag', group, i64, u64, f64, str, blob, children, key⟩ => by
      have hchildren := fun out => collectInto_recursive tag path 0 out children
      rw [collectRecord, refs_eq]
      cases children with
      | nil => by_cases htag : tag' = tag <;> simp [htag, refsBelow]
      | cons child children => by_cases htag : tag' = tag <;> simp [htag, hchildren]

theorem collectInto_recursive (tag : RecordTag) (path : List Nat) (i : Nat) (out : List RecordRef) :
    ∀ recs : List Record, collectInto tag true path i out recs =
      out ++ (refsBelow path i recs).filter fun ref => ref.record.tag = tag
  | [] => by simp [collectInto, refsBelow]
  | rec :: recs => by
      rw [collectInto, collectInto_recursive, collectRecord_recursive, refsBelow, List.filter_append,
        List.append_assoc]

end

theorem collectInto_shallow (tag : RecordTag) (path : List Nat) (i : Nat) (out : List RecordRef)
    (recs : List Record) : collectInto tag false path i out recs =
      out ++ (refsBelow path i recs).filter fun ref =>
        ref.path.length = path.length + 1 ∧ ref.record.tag = tag := by
  induction recs generalizing i out with
  | nil => simp [collectInto, refsBelow]
  | cons rec recs ih =>
      have hbelow : (refsBelow (path ++ [i]) 0 rec.children).filter (fun ref =>
          ref.path.length = path.length + 1 ∧ ref.record.tag = tag) = [] := by
        rw [List.filter_eq_nil_iff]
        intro ref href
        have hlt := length_lt_of_mem_refsBelow href
        simp at hlt ⊢
        omega
      have hround : collectRecord tag false (path ++ [i]) out rec =
          out ++ (rec.refs (path ++ [i])).filter fun ref =>
            ref.path.length = path.length + 1 ∧ ref.record.tag = tag := by
        rw [refs_eq, List.filter_cons, hbelow]
        cases rec
        simp [collectRecord]
        split <;> simp
      rw [collectInto, ih, hround, refsBelow, List.filter_append, List.append_assoc]

/-- A loop that adds a part of its own in each round adds the parts one after another. -/
theorem foldl_append_eq {α β : Type} {step : List β → α → List β} {part : α → List β}
    (h : ∀ out a, step out a = out ++ part a) (as : List α) (out : List β) :
    as.foldl step out = out ++ as.flatMap part := by
  induction as generalizing out with
  | nil => simp
  | cons a as ih => rw [List.foldl_cons, h, ih, List.flatMap_cons, List.append_assoc]

theorem collectRecords_recursive (c : Container) (tag : RecordTag) :
    collectRecords c tag true = c.refs.filter fun ref => ref.record.tag = tag := by
  rw [collectRecords, foldl_append_eq fun out entry => collectInto_recursive tag [entry.2] 0 out entry.1.records,
    Container.refs, List.filter_flatMap, List.nil_append]

theorem collectRecords_shallow (c : Container) (tag : RecordTag) :
    collectRecords c tag false = c.refs.filter fun ref => ref.path.length = 2 ∧ ref.record.tag = tag := by
  rw [collectRecords, foldl_append_eq fun out entry => collectInto_shallow tag [entry.2] 0 out entry.1.records,
    Container.refs, List.filter_flatMap, List.nil_append]
  rfl

/-! ### Every record of a container, once -/

theorem mem_container_refs (c : Container) (ref : RecordRef) :
    ref ∈ c.refs ↔ c.recordAt? ref.path = some ref.record := by
  rw [Container.refs, List.mem_flatMap]
  constructor
  · rintro ⟨⟨s, si⟩, hentry, href⟩
    have hs : c.sections[si]? = some s := List.mem_zipIdx_iff_getElem?.mp hentry
    rcases (mem_refsBelow [si] 0 ref s.records).mp href with ⟨i, rec, rest, hrec, hpath, hrecord⟩
    rw [hpath]
    simp [Container.recordAt?, hs, hrec, hrecord]
  · intro h
    rcases ref with ⟨path, record⟩
    rcases path with _ | ⟨si, _ | ⟨i, rest⟩⟩
    · cases h
    · cases h
    · rcases Option.bind_eq_some_iff.mp h with ⟨s, hs, h⟩
      rcases Option.bind_eq_some_iff.mp h with ⟨rec, hrec, h⟩
      refine ⟨(s, si), List.mem_zipIdx_iff_getElem?.mpr hs, ?_⟩
      exact (mem_refsBelow [si] 0 _ s.records).mpr ⟨i, rec, rest, hrec, by simp, h⟩

theorem nodup_container_refs (c : Container) : (c.refs.map RecordRef.path).Nodup := by
  have hindices : c.sections.zipIdx.Pairwise fun entry entry' => entry.2 ≠ entry'.2 := by
    rw [← List.pairwise_map, List.zipIdx_map_snd]
    exact List.nodup_range'
  rw [Container.refs, List.map_flatMap, List.nodup_flatMap]
  refine ⟨fun entry _ => nodup_refsBelow _ 0 _, hindices.imp fun hne => ?_⟩
  intro path h h'
  rcases List.mem_map.mp h with ⟨ref, href, rfl⟩
  rcases List.mem_map.mp h' with ⟨ref', href', hpath'⟩
  rcases (mem_refsBelow _ 0 ref _).mp href with ⟨j, rec, rest, -, hpath, -⟩
  rcases (mem_refsBelow _ 0 ref' _).mp href' with ⟨j', rec', rest', -, hplace', -⟩
  rw [hpath, hplace'] at hpath'
  simp at hpath'
  exact hne hpath'.1.symm

theorem two_le_of_recordAt? {c : Container} {path : List Nat} {rec : Record}
    (h : c.recordAt? path = some rec) : 2 ≤ path.length := by
  rcases path with _ | ⟨si, _ | ⟨i, rest⟩⟩
  · cases h
  · cases h
  · simp

/-! ### A parsed container -/

theorem shaped_pieces {P : Bytes → Record → Prop} (hP : ∀ bs rec, P bs rec → rec.Shaped)
    {pieces : List Bytes} {recs : List Record} (h : List.Forall₂ P pieces recs) :
    ∀ rec ∈ recs, rec.Shaped := by
  induction h with
  | nil => simp
  | cons hhead _ ih =>
      rw [List.forall_mem_cons]
      exact ⟨hP _ _ hhead, ih⟩

theorem shaped_body {P : Bytes → Record → Prop} (hP : ∀ bs rec, P bs rec → rec.Shaped) {group : Bool}
    {tag : RecordTag} {payload : Bytes} {rec : Record} (h : Body P group tag payload rec) :
    rec.Shaped := by
  cases h with
  | kInt | kUint | kFloat | kString | kBlob => exact .node (fun _ => rfl) (by simp)
  | kArray hcount hlength hall => exact .node (by simp [RecordTag.nest?]) (shaped_pieces hP hall)
  | kGroup hall => exact .node (by simp [RecordTag.nest?]) (shaped_pieces hP hall)
  | kKeyval hlen hkey hvalue => exact .node (by simp [RecordTag.nest?]) (by simpa using hP _ _ hvalue)

theorem Encodes.shaped {room : Nat} {bs : Bytes} {rec : Record} (h : Encodes room bs rec) :
    rec.Shaped := by
  induction room generalizing bs rec with
  | zero => cases h
  | succ room ih =>
      rcases h with ⟨f, tag, rfl, -, hbody⟩
      exact shaped_body (fun _ _ => ih) hbody

theorem parse_shaped {data : Bytes} {opts : Options} {c : Container} (h : parse data opts = .ok c) :
    ∀ s ∈ c.sections, ∀ rec ∈ s.records, rec.Shaped := by
  refine parse_forall (fun base r rec s hrec => ?_) h
  rcases takes_parseRecordIn _ base r rec s hrec with ⟨bs, -, -, hencodes⟩
  exact hencodes.shaped

/-- Of a container that `parse` returned, any visitor sees the same callbacks, properly nested. They
announce each record once, those of a tag in the order in which the query collects them; the query
that does not descend finds those announced at depth 0. -/
theorem walk_collects {data : Bytes} {opts : Options} {c : Container} (h : parse data opts = .ok c) :
    (∀ (σ : Type) (visitor : RecordVisitor σ) (st : σ),
      visitor.walk c st = (callbacks c).foldl visitor.call st) ∧
    SectionsBracketed (callbacks c) ∧
    ((visits c).map fun visit => visit.1.path).Nodup ∧
    (∀ ref, ref ∈ (visits c).map Prod.fst ↔ c.recordAt? ref.path = some ref.record) ∧
    ∀ tag,
      ((visits c).map Prod.fst).filter (fun ref => ref.record.tag = tag) = collectRecords c tag true ∧
      (((visits c).filter fun visit => visit.2 = 0).map Prod.fst).filter
        (fun ref => ref.record.tag = tag) = collectRecords c tag false := by
  have hvisits := visits_eq (parse_shaped h)
  have hrefs : (visits c).map Prod.fst = c.refs := by simp [hvisits, Function.comp_def]
  refine ⟨fun σ visitor st => ?_, ?_, ?_, fun ref => ?_, fun tag => ⟨?_, ?_⟩⟩
  · rw [callbacks_eq, walk_eq_trace]
  · rw [callbacks_eq]
    exact sectionsBracketed_trace _
  · have hpaths : (visits c).map (fun visit => visit.1.path) = c.refs.map RecordRef.path := by
      rw [← hrefs, List.map_map]
      rfl
    rw [hpaths]
    exact nodup_container_refs c
  · rw [hrefs, mem_container_refs]
  · rw [hrefs, collectRecords_recursive]
  · rw [collectRecords_shallow, hvisits]
    simp only [List.filter_map, List.map_map, List.filter_filter, Function.comp_def, List.map_id']
    refine List.filter_congr fun ref href => ?_
    have hdeep := two_le_of_recordAt? ((mem_container_refs c ref).mp href)
    have hdepth : ref.path.length - 2 = 0 ↔ ref.path.length = 2 := by omega
    simp [hdepth, and_comm]

/-- The walk over two KEYVALs, each with a UINT one level down. -/
theorem walk_collects_keyTwice :
    ∃ c, parse keyTwice {} = .ok c ∧ SectionsBracketed (callbacks c) ∧
      ((visits c).map Prod.fst).filter (fun ref => ref.record.tag = .kUint) =
        collectRecords c .kUint true := by
  have hreturns : (parse keyTwice {}).isOk = true := by decide +kernel
  cases hparse : parse keyTwice {} with
  | error e =>
      rw [hparse] at hreturns
      cases hreturns
  | ok c =>
      rcases walk_collects hparse with ⟨-, hbrackets, -, -, hcollects⟩
      exact ⟨c, rfl, hbrackets, (hcollects .kUint).1⟩

end Bytewright.Binpack
