import Mathlib.Data.List.Nodup
import Bytewright.Library.Decimal
import Bytewright.Verification.Binpack.Validation

/-! # What the validator finds -/

namespace Bytewright.Binpack

open Bytewright.Common Bytewright.Library

/-! ### Path components -/

theorem ascii_append (s t : String) : ascii (s ++ t) = ascii s ++ ascii t := by
  simp [ascii]

theorem ascii_digitChar : ∀ n < 10, UInt8.ofNat (Nat.digitChar n).toNat = digitByte n := by decide

theorem ascii_toString (n : Nat) : ascii (toString n) = decimal n := by
  rw [ascii, Nat.toString_eq_ofList_toDigits, String.toList_ofList]
  induction n using decimal.induct with
  | case1 n h => rw [Nat.toDigits_of_lt_base h, decimal_of_lt h, List.map_singleton, ascii_digitChar n h]
  | case2 n h ih =>
      have hge := Nat.not_lt.mp h
      rw [Nat.toDigits_of_base_le (by decide) hge, decimal_of_ge hge, List.map_append, ih,
        List.map_singleton, ascii_digitChar _ (Nat.mod_lt _ (by decide))]

theorem component_eq (kind : String) (i : Nat) :
    component kind i = ascii kind ++ ([91] ++ (decimal i ++ [93])) := by
  rw [component, ascii_append, ascii_append, ascii_append, ascii_toString, List.append_assoc,
    List.append_assoc]
  rfl

/-- What stands before the first `p`. -/
theorem append_cons_inj {α : Type} {p : α} {xs ys us vs : List α} (hxs : p ∉ xs) (hys : p ∉ ys)
    (h : xs ++ p :: us = ys ++ p :: vs) : xs = ys ∧ us = vs := by
  induction xs generalizing ys with
  | nil =>
      cases ys with
      | nil => exact ⟨rfl, (List.cons.inj h).2⟩
      | cons y ys => exact absurd (List.cons.inj h).1 fun heq => hys (heq ▸ List.mem_cons_self ..)
  | cons x xs ih =>
      rw [List.mem_cons, not_or] at hxs
      cases ys with
      | nil => exact absurd (List.cons.inj h).1.symm hxs.1
      | cons y ys =>
          rw [List.mem_cons, not_or] at hys
          rcases List.cons.inj h with ⟨rfl, htail⟩
          rcases ih hxs.2 hys.2 htail with ⟨rfl, rfl⟩
          exact ⟨rfl, rfl⟩

theorem bracket_notMem_decimal (i : Nat) : 93 ∉ decimal i := fun h =>
  absurd (isDigit_of_mem_decimal i 93 h).2 (by decide)

/-- The index of a component is told by its text. -/
theorem component_append_inj {kind : String} {i j : Nat} {us vs : Bytes}
    (h : component kind i ++ us = component kind j ++ vs) : i = j ∧ us = vs := by
  rw [component_eq, component_eq] at h
  simp only [List.append_assoc, List.append_cancel_left_eq] at h
  rcases append_cons_inj (bracket_notMem_decimal i) (bracket_notMem_decimal j) h with ⟨hdigits, hrest⟩
  exact ⟨decimal_injective hdigits, hrest⟩

theorem component_inj {kind : String} {i j : Nat} (h : component kind i = component kind j) : i = j :=
  (@component_append_inj kind i j [] [] (by rw [h])).1

/-! ### The places of records -/

/-- What the components below a container are called. -/
def RecordTag.below? : RecordTag → Option String
  | .kArray => some "array"
  | .kGroup => some "group"
  | .kKeyval => some "keyval"
  | .kInt | .kUint | .kFloat | .kString | .kBlob => none

/-- A record with the trail that leads to it and the number of records on the way. -/
structure Spot where
  depth : Nat
  trail : Bytes
  record : Record

/-- A record of section `si`, reached through containers. -/
inductive Located (c : Container) (si : Nat) : Spot → Prop where
  | top {s : Section} {i : Nat} {rec : Record} (hs : c.sections[si]? = some s)
      (hrec : s.records[i]? = some rec) :
      Located c si ⟨0, component "section" si ++ (ascii "/" ++ component "record" i), rec⟩
  | child {depth i : Nat} {trail : Bytes} {rec child : Record} {kind : String}
      (h : Located c si ⟨depth, trail, rec⟩) (hkind : rec.tag.below? = some kind)
      (hchild : rec.children[i]? = some child) :
      Located c si ⟨depth + 1, trail ++ (ascii "/" ++ component kind i), child⟩

mutual

/-- The spots of a tree, in pre-order. -/
def Record.spots (depth : Nat) (trail : Bytes) : Record → List Spot
  | ⟨tag, group, i64, u64, f64, str, blob, children, key⟩ =>
    ⟨depth, trail, ⟨tag, group, i64, u64, f64, str, blob, children, key⟩⟩ ::
      match tag.below? with
      | some kind => spotsBelow (depth + 1) trail kind 0 children
      | none => []

/-- The same of the records below `trail`, from the index `i` on. -/
def spotsBelow (depth : Nat) (trail : Bytes) (kind : String) (i : Nat) : List Record → List Spot
  | [] => []
  | rec :: recs =>
    rec.spots depth (trail ++ (ascii "/" ++ component kind i)) ++ spotsBelow depth trail kind (i + 1) recs

end

theorem mem_spotsBelow {depth : Nat} {trail : Bytes} {kind : String} {i : Nat} {recs : List Record}
    {spot : Spot} : spot ∈ spotsBelow depth trail kind i recs ↔ ∃ (j : Nat) (rec : Record),
      recs[j]? = some rec ∧ spot ∈ rec.spots depth (trail ++ (ascii "/" ++ component kind (i + j))) := by
  induction recs generalizing i with
  | nil => simp [spotsBelow]
  | cons rec recs ih =>
      rw [spotsBelow, List.mem_append, ih]
      constructor
      · rintro (h | ⟨j, rec', hrec, h⟩)
        · exact ⟨0, rec, rfl, h⟩
        · exact ⟨j + 1, rec', hrec, by rwa [Nat.add_right_comm] at h⟩
      · rintro ⟨j, rec', hrec, h⟩
        cases j with
        | zero =>
            cases hrec
            exact .inl h
        | succ j => exact .inr ⟨j, rec', hrec, by rwa [Nat.add_right_comm]⟩

theorem mem_spots {depth : Nat} {trail : Bytes} {rec : Record} {spot : Spot} :
    spot ∈ rec.spots depth trail ↔ spot = ⟨depth, trail, rec⟩ ∨
      ∃ kind, rec.tag.below? = some kind ∧ ∃ (j : Nat) (child : Record), rec.children[j]? = some child ∧
        spot ∈ child.spots (depth + 1) (trail ++ (ascii "/" ++ component kind j)) := by
  rcases rec with ⟨tag, group, i64, u64, f64, str, blob, children, key⟩
  rw [Record.spots, List.mem_cons]
  refine or_congr_right ?_
  cases htag : tag.below? with
  | none => simp
  | some kind => simp [mem_spotsBelow]

mutual

/-- Induction over a tree of records. -/
theorem Record.treeInduction {P : Record → Prop} (step : ∀ rec : Record, (∀ c ∈ rec.children, P c) → P rec) :
    ∀ rec, P rec
  | ⟨_, _, _, _, _, _, _, children, _⟩ => step _ (Record.forestInduction step children)

theorem Record.forestInduction {P : Record → Prop}
    (step : ∀ rec : Record, (∀ c ∈ rec.children, P c) → P rec) : ∀ recs : List Record, ∀ c ∈ recs, P c
  | [], _, h => absurd h List.not_mem_nil
  | rec :: recs, c, h => by
      cases h with
      | head => exact Record.treeInduction step rec
      | tail _ h => exact Record.forestInduction step recs c h

end

/-- The spots of a section. -/
def sectionSpots (s : Section) (si : Nat) : List Spot :=
  spotsBelow 0 (component "section" si) "record" 0 s.records

section Located

variable {c : Container} {si : Nat}

theorem located_of_mem_spots (rec : Record) : ∀ (depth : Nat) (trail : Bytes),
    Located c si ⟨depth, trail, rec⟩ → ∀ spot ∈ rec.spots depth trail, Located c si spot := by
  induction rec using Record.treeInduction with
  | step rec ih =>
    intro depth trail hrec spot hspot
    rcases mem_spots.mp hspot with rfl | ⟨kind, hkind, j, child, hchild, hspot⟩
    · exact hrec
    · exact ih child (List.mem_of_getElem? hchild) _ _ (hrec.child hkind hchild) spot hspot

/-- What is reached from a spot of a tree is one, too. -/
theorem spots_closed {depth i : Nat} {trail : Bytes} {rec' child : Record} {kind : String}
    (hkind : rec'.tag.below? = some kind) (hchild : rec'.children[i]? = some child) (rec : Record) :
    ∀ (depth' : Nat) (trail' : Bytes), ⟨depth, trail, rec'⟩ ∈ rec.spots depth' trail' →
      ⟨depth + 1, trail ++ (ascii "/" ++ component kind i), child⟩ ∈ rec.spots depth' trail' := by
  induction rec using Record.treeInduction with
  | step rec ih =>
    intro depth' trail' h
    rcases mem_spots.mp h with heq | ⟨kind', hkind', j, below, hbelow, h⟩
    · cases heq
      exact mem_spots.mpr (.inr ⟨kind, hkind, i, child, hchild, mem_spots.mpr (.inl rfl)⟩)
    · have hdeep := ih below (List.mem_of_getElem? hbelow) _ _ h
      exact mem_spots.mpr (.inr ⟨kind', hkind', j, below, hbelow, hdeep⟩)

theorem mem_sectionSpots {s : Section} {spot : Spot} (hs : c.sections[si]? = some s) :
    spot ∈ sectionSpots s si ↔ Located c si spot := by
  rw [sectionSpots]
  constructor
  · intro h
    rcases mem_spotsBelow.mp h with ⟨j, rec, hrec, hspot⟩
    rw [Nat.zero_add] at hspot
    exact located_of_mem_spots rec _ _ (.top hs hrec) spot hspot
  · intro h
    induction h with
    | @top s' i rec hs' hrec =>
        cases hs.symm.trans hs'
        exact mem_spotsBelow.mpr ⟨i, rec, hrec, by rw [Nat.zero_add]; exact mem_spots.mpr (.inl rfl)⟩
    | child _ hkind hchild ih =>
        rcases mem_spotsBelow.mp ih with ⟨j, rec, hrec, hspot⟩
        exact mem_spotsBelow.mpr ⟨j, rec, hrec, spots_closed hkind hchild rec _ _ hspot⟩

/-- The trail begins with the section. -/
theorem Located.section {spot : Spot} (h : Located c si spot) : ∃ s, c.sections[si]? = some s ∧
    ∃ rest, spot.trail = component "section" si ++ rest := by
  induction h with
  | top hs _ => exact ⟨_, hs, _, rfl⟩
  | @child depth i trail rec child kind _ _ _ ih =>
      rcases ih with ⟨s, hs, rest, htrail⟩
      have htrail : trail = component "section" si ++ rest := htrail
      exact ⟨s, hs, rest ++ (ascii "/" ++ component kind i), by rw [htrail, List.append_assoc]⟩

end Located

/-! ### A trail leads to one record -/

theorem trail_of_mem_spots (rec : Record) : ∀ (depth : Nat) (trail : Bytes), ∀ spot ∈ rec.spots depth trail,
    ∃ rest, spot.trail = trail ++ rest ∧ depth ≤ spot.depth := by
  induction rec using Record.treeInduction with
  | step rec ih =>
    intro depth trail spot hspot
    rcases mem_spots.mp hspot with rfl | ⟨kind, hkind, j, child, hchild, hspot⟩
    · exact ⟨[], (List.append_nil _).symm, Nat.le_refl _⟩
    · rcases ih child (List.mem_of_getElem? hchild) _ _ spot hspot with ⟨rest, htrail, hdepth⟩
      exact ⟨_, by rw [htrail, List.append_assoc], Nat.le_of_succ_le hdepth⟩

theorem nodup_spotsBelow {depth : Nat} {trail : Bytes} {kind : String} {recs : List Record}
    (h : ∀ rec ∈ recs, ∀ trail, ((rec.spots depth trail).map Spot.trail).Nodup) (i : Nat) :
    ((spotsBelow depth trail kind i recs).map Spot.trail).Nodup := by
  induction recs generalizing i with
  | nil => simp [spotsBelow]
  | cons rec recs ih =>
      rw [List.forall_mem_cons] at h
      rw [spotsBelow, List.map_append, List.nodup_append]
      refine ⟨h.1 _, ih h.2 _, ?_⟩
      -- the index in the trail tells the subtrees apart
      intro place hplace place' hplace' heq
      rcases List.mem_map.mp hplace with ⟨spot, hspot, rfl⟩
      rcases List.mem_map.mp hplace' with ⟨spot', hspot', rfl⟩
      rcases mem_spotsBelow.mp hspot' with ⟨j, rec', -, hspot'⟩
      rcases trail_of_mem_spots rec _ _ spot hspot with ⟨rest, htrail, -⟩
      rcases trail_of_mem_spots rec' _ _ spot' hspot' with ⟨rest', htrail', -⟩
      rw [htrail, htrail'] at heq
      simp only [List.append_assoc, List.append_cancel_left_eq] at heq
      have hindex := (component_append_inj heq).1
      omega

theorem nodup_spots (rec : Record) : ∀ (depth : Nat) (trail : Bytes),
    ((rec.spots depth trail).map Spot.trail).Nodup := by
  induction rec using Record.treeInduction with
  | step rec ih =>
    intro depth trail
    rcases rec with ⟨tag, group, i64, u64, f64, str, blob, children, key⟩
    rw [Record.spots]
    cases htag : tag.below? with
    | none => simp
    | some kind =>
        dsimp only
        rw [List.map_cons, List.nodup_cons]
        refine ⟨fun hmem => ?_, nodup_spotsBelow (fun child hchild => ih child hchild _) 0⟩
        rcases List.mem_map.mp hmem with ⟨spot, hspot, htrail⟩
        rcases mem_spotsBelow.mp hspot with ⟨j, child, -, hspot⟩
        rcases trail_of_mem_spots child _ _ spot hspot with ⟨rest, hlonger, -⟩
        have hlength := congrArg List.length (hlonger.symm.trans htrail)
        simp [ascii] at hlength

theorem nodup_sectionSpots (s : Section) (si : Nat) : ((sectionSpots s si).map Spot.trail).Nodup :=
  nodup_spotsBelow (fun rec _ trail => nodup_spots rec 0 trail) 0

theorem located_unique {c : Container} {si si' : Nat} {spot spot' : Spot} (h : Located c si spot)
    (h' : Located c si' spot') (htrail : spot.trail = spot'.trail) : si = si' ∧ spot = spot' := by
  rcases h.section with ⟨s, hs, rest, hsection⟩
  rcases h'.section with ⟨s', hs', rest', hsection'⟩
  have hindex : si = si' := by
    rw [hsection, hsection'] at htrail
    exact (component_append_inj htrail).1
  subst hindex
  have hmem := (mem_sectionSpots hs).mpr h
  have hmem' := (mem_sectionSpots hs).mpr h'
  exact ⟨rfl, List.inj_on_of_nodup_map (nodup_sectionSpots s si) hmem hmem' htrail⟩

/-! ### What is wrong with a record -/

/-- The finding at a spot of section `si`. -/
def Spot.issue (spot : Spot) (si : Nat) (severity : IssueSeverity) (kind : IssueKind) (detail : Bytes) :
    Issue :=
  { severity, kind, sectionIndex := si, path := spot.trail, detail }

/-- The findings about a record within the depth limit. Below the first record that exceeds it nothing
is reported. -/
inductive RecordFault (opts : ValidateOptions) (si : Nat) (spot : Spot) : Issue → Prop where
  | depthExceeded (h : spot.depth = opts.maxDepth + 1) :
      RecordFault opts si spot (spot.issue si .kError .kDepthExceeded
        (ascii ("nesting depth " ++ toString spot.depth ++ " exceeds limit " ++ toString opts.maxDepth)))
  | oversizedBlob (hdepth : spot.depth ≤ opts.maxDepth) (htag : spot.record.tag = .kBlob)
      (h : opts.maxBlobBytes < spot.record.blob.length) :
      RecordFault opts si spot (spot.issue si .kWarning .kOversizedBlob
        (ascii ("blob of " ++ toString spot.record.blob.length ++ " bytes exceeds limit " ++
          toString opts.maxBlobBytes)))
  | emptyArray (hdepth : spot.depth ≤ opts.maxDepth) (htag : spot.record.tag = .kArray)
      (h : spot.record.children = []) :
      RecordFault opts si spot (spot.issue si .kWarning .kEmptyArray (ascii "array has no elements"))
  | emptyGroup (hdepth : spot.depth ≤ opts.maxDepth) (htag : spot.record.tag = .kGroup)
      (h : spot.record.children = []) :
      RecordFault opts si spot (spot.issue si .kWarning .kEmptyGroup (ascii "group has no records"))
  | malformedKeyval (hdepth : spot.depth ≤ opts.maxDepth) (htag : spot.record.tag = .kKeyval)
      (h : spot.record.children.length ≠ 1) :
      RecordFault opts si spot (spot.issue si .kError .kMalformedKeyval
        (ascii ("keyval has " ++ toString spot.record.children.length ++ " children (expected 1)")))
  | emptyKey (hdepth : spot.depth ≤ opts.maxDepth) (htag : spot.record.tag = .kKeyval)
      (h : spot.record.key = []) :
      RecordFault opts si spot (spot.issue si .kWarning .kEmptyMetadataKey (ascii "keyval has an empty key"))

/-- The findings about a spot, as the validator lists them. -/
def Spot.issues (opts : ValidateOptions) (si : Nat) (spot : Spot) : List Issue :=
  if spot.depth > opts.maxDepth + 1 then []
  else if spot.depth > opts.maxDepth then
    [spot.issue si .kError .kDepthExceeded
      (ascii ("nesting depth " ++ toString spot.depth ++ " exceeds limit " ++ toString opts.maxDepth))]
  else
    match spot.record.tag with
    | .kBlob =>
      if spot.record.blob.length > opts.maxBlobBytes then
        [spot.issue si .kWarning .kOversizedBlob (ascii ("blob of " ++ toString spot.record.blob.length ++
          " bytes exceeds limit " ++ toString opts.maxBlobBytes))]
      else []
    | .kArray =>
      if spot.record.children.isEmpty then
        [spot.issue si .kWarning .kEmptyArray (ascii "array has no elements")]
      else []
    | .kGroup =>
      if spot.record.children.isEmpty then
        [spot.issue si .kWarning .kEmptyGroup (ascii "group has no records")]
      else []
    | .kKeyval =>
      (if spot.record.children.length ≠ 1 then
        [spot.issue si .kError .kMalformedKeyval
          (ascii ("keyval has " ++ toString spot.record.children.length ++ " children (expected 1)"))]
      else []) ++
      if spot.record.key.isEmpty then
        [spot.issue si .kWarning .kEmptyMetadataKey (ascii "keyval has an empty key")]
      else []
    | .kInt | .kUint | .kFloat | .kString => []

theorem mem_issues {opts : ValidateOptions} {si : Nat} {spot : Spot} {issue : Issue} :
    issue ∈ spot.issues opts si ↔ RecordFault opts si spot issue := by
  constructor
  · intro h
    rw [Spot.issues] at h
    split at h
    · cases h
    · next hdeep =>
      split at h
      · next hexceeds =>
        rw [List.mem_singleton.mp h]
        exact .depthExceeded (by omega)
      · next hwithin =>
        have hdepth := Nat.not_lt.mp hwithin
        cases htag : spot.record.tag <;> rw [htag] at h <;> grind [RecordFault]
  · intro h
    cases h <;> grind [Spot.issues]

theorem nodup_issues (opts : ValidateOptions) (si : Nat) (spot : Spot) : (spot.issues opts si).Nodup := by
  unfold Spot.issues
  grind [Spot.issue]

theorem path_of_mem_issues {opts : ValidateOptions} {si : Nat} {spot : Spot} {issue : Issue}
    (h : issue ∈ spot.issues opts si) : issue.path = spot.trail ∧ issue.sectionIndex = si ∧
      issue.kind ≠ .kItemCountMismatch ∧ issue.kind ≠ .kDuplicateMetadataKey := by
  cases mem_issues.mp h <;> simp [Spot.issue]

/-! ### The walk of the validator -/

theorem issues_of_deep {opts : ValidateOptions} {si : Nat} {spot : Spot}
    (h : opts.maxDepth + 1 < spot.depth) : spot.issues opts si = [] :=
  if_pos h

theorem flatMap_issues_deep {opts : ValidateOptions} {si depth : Nat} (h : opts.maxDepth + 1 < depth)
    (trail : Bytes) (kind : String) (i : Nat) (recs : List Record) :
    (spotsBelow depth trail kind i recs).flatMap (Spot.issues opts si) = [] := by
  rw [List.flatMap_eq_nil_iff]
  intro spot hspot
  rcases mem_spotsBelow.mp hspot with ⟨j, rec, -, hspot⟩
  rcases trail_of_mem_spots rec _ _ spot hspot with ⟨rest, -, hdepth⟩
  exact issues_of_deep (h.trans_le hdepth)

theorem validateRecords_issues {opts : ValidateOptions} {si depth : Nat} {recs : List Record}
    (h : ∀ rec ∈ recs, ∀ trail report, (validateRecord opts si depth trail report rec).issues =
      report.issues ++ (rec.spots depth trail).flatMap (Spot.issues opts si))
    (trail : Bytes) (kind : String) (i : Nat) (report : ValidationReport) :
    (validateRecords opts si depth trail kind i report recs).issues =
      report.issues ++ (spotsBelow depth trail kind i recs).flatMap (Spot.issues opts si) := by
  induction recs generalizing i report with
  | nil => simp [validateRecords, spotsBelow]
  | cons rec recs ih =>
      rw [List.forall_mem_cons] at h
      rw [validateRecords, ih h.2, List.append_assoc trail, h.1, spotsBelow, List.flatMap_append,
        List.append_assoc]

theorem issues_addIssue (report : ValidationReport) (severity : IssueSeverity) (kind : IssueKind)
    (si : Nat) (path detail : Bytes) : (addIssue report severity kind si path detail).issues =
      report.issues ++ [{ severity, kind, sectionIndex := si, path, detail }] := rfl

/-- The validator walks the spots of a tree and adds what is wrong with each. -/
theorem validateRecord_issues {opts : ValidateOptions} {si : Nat} (rec : Record) :
    ∀ (depth : Nat), depth ≤ opts.maxDepth + 1 → ∀ trail report,
      (validateRecord opts si depth trail report rec).issues =
        report.issues ++ (rec.spots depth trail).flatMap (Spot.issues opts si) := by
  induction rec using Record.treeInduction with
  | step rec ih =>
    intro depth hdepth trail report
    have hbelow : depth ≤ opts.maxDepth → ∀ kind report,
        (validateRecords opts si (depth + 1) trail kind 0 report rec.children).issues =
          report.issues ++
            (spotsBelow (depth + 1) trail kind 0 rec.children).flatMap (Spot.issues opts si) :=
      fun hle kind => validateRecords_issues (fun child hchild => ih child hchild _ (by omega)) trail kind 0
    rcases rec with ⟨tag, group, i64, u64, f64, str, blob, children, key⟩
    rw [validateRecord.eq_def, Record.spots, List.flatMap_cons]
    dsimp only at hbelow ⊢
    by_cases hexceeds : depth > opts.maxDepth
    · -- the records below are left alone
      have hdeep : ∀ kind,
          (spotsBelow (depth + 1) trail kind 0 children).flatMap (Spot.issues opts si) = [] :=
        fun kind => flatMap_issues_deep (Nat.succ_lt_succ hexceeds) trail kind 0 children
      rw [if_pos hexceeds, issues_addIssue, Spot.issues, if_neg (Nat.not_lt.mpr hdepth), if_pos hexceeds]
      cases tag.below? with
      | none => rfl
      | some kind => rw [hdeep]; rfl
    · have hdepth' : ¬ depth > opts.maxDepth + 1 := by omega
      have hbelow := hbelow (Nat.not_lt.mp hexceeds)
      rw [if_neg hexceeds, Spot.issues, if_neg hdepth', if_neg hexceeds]
      cases tag with
      | kInt | kUint | kFloat | kString => simp [RecordTag.below?]
      | kBlob =>
          simp only [RecordTag.below?]
          split <;> simp [issues_addIssue, Spot.issue]
      | kArray | kGroup =>
          simp only [hbelow, RecordTag.below?]
          split <;> simp [issues_addIssue, Spot.issue]
      | kKeyval =>
          simp only [hbelow, RecordTag.below?]
          split <;> split <;> simp [issues_addIssue, Spot.issue]

/-! ### The sections -/

/-- The finding about the declared count of a section. -/
def countIssue (s : Section) (si : Nat) : Issue :=
  { severity := .kError, kind := .kItemCountMismatch, sectionIndex := si, path := component "section" si
    detail := ascii ("declared item_count " ++ toString s.itemCount.toNat ++ " != actual record count " ++
      toString s.records.length) }

def sectionIssues (opts : ValidateOptions) (entry : Section × Nat) : List Issue :=
  (if opts.checkItemCount ∧ entry.1.type ≠ .kFree ∧ entry.1.itemCount.toNat ≠ entry.1.records.length then
    [countIssue entry.1 entry.2]
  else []) ++ (sectionSpots entry.1 entry.2).flatMap (Spot.issues opts entry.2)

theorem validateSection_issues (opts : ValidateOptions) (report : ValidationReport) (entry : Section × Nat) :
    (validateSection opts report entry).issues = report.issues ++ sectionIssues opts entry := by
  have hrecords := @validateRecords_issues opts entry.2 0 entry.1.records
    (fun rec _ => validateRecord_issues rec 0 (Nat.zero_le _)) (component "section" entry.2) "record" 0
  rw [validateSection, sectionIssues, hrecords]
  split
  · rw [issues_addIssue, List.append_assoc]
    rfl
  · rfl

theorem foldl_validateSection_issues (opts : ValidateOptions) (entries : List (Section × Nat))
    (report : ValidationReport) : (entries.foldl (validateSection opts) report).issues =
      report.issues ++ entries.flatMap (sectionIssues opts) := by
  induction entries generalizing report with
  | nil => simp
  | cons entry entries ih =>
      rw [List.foldl_cons, ih, validateSection_issues, List.flatMap_cons, List.append_assoc]

/-! ### The metadata keys -/

/-- The finding about the key at index `i`, first seen before. -/
def keyIssue (key : Bytes) (first i : Nat) : Issue :=
  { severity := .kError, kind := .kDuplicateMetadataKey, sectionIndex := 0, path := component "metadata" i
    detail := ascii "metadata key \"" ++ key ++ ascii ("\" first seen at index " ++ toString first) }

def keyIssues (keys : List Bytes) (entry : (Bytes × Record) × Nat) : List Issue :=
  if keys.idxOf entry.1.1 < entry.2 then [keyIssue entry.1.1 (keys.idxOf entry.1.1) entry.2] else []

/-- What the scan has seen are the keys in front, each with its first index. -/
structure Seen (seen : List (Bytes × Nat)) (front : List Bytes) : Prop where
  known : ∀ key ∈ front, seen.lookup key = some (front.idxOf key)
  fresh : ∀ key ∉ front, seen.lookup key = none

theorem Seen.again {seen : List (Bytes × Nat)} {front : List Bytes} (h : Seen seen front) {key : Bytes}
    (hkey : key ∈ front) : Seen seen (front ++ [key]) := by
  have hmem : ∀ k, k ∈ front ++ [key] → k ∈ front := by
    intro k hk
    rcases List.mem_append.mp hk with hk | hk
    · exact hk
    · exact List.mem_singleton.mp hk ▸ hkey
  constructor
  · intro k hk
    rw [h.known k (hmem k hk), List.idxOf_append_of_mem (hmem k hk)]
  · exact fun k hk => h.fresh k fun hfront => hk (List.mem_append_left _ hfront)

theorem Seen.first {seen : List (Bytes × Nat)} {front : List Bytes} (h : Seen seen front) {key : Bytes}
    (hkey : key ∉ front) : Seen (seen ++ [(key, front.length)]) (front ++ [key]) := by
  constructor
  · intro k hk
    rw [List.lookup_append]
    by_cases hfront : k ∈ front
    · rw [h.known k hfront, List.idxOf_append_of_mem hfront]
      rfl
    · have heq : k = key := List.mem_singleton.mp ((List.mem_append.mp hk).resolve_left hfront)
      rw [h.fresh k hfront, heq, List.idxOf_append_of_notMem hkey]
      simp
  · intro k hk
    rw [List.mem_append, not_or, List.mem_singleton] at hk
    rw [List.lookup_append, h.fresh k hk.1]
    simp [List.lookup_cons, beq_false_of_ne hk.2]

theorem foldl_validateKey_issues {front : List Bytes} {seen : List (Bytes × Nat)}
    (hseen : Seen seen front) (rest : List (Bytes × Record)) (report : ValidationReport) :
    ((rest.zipIdx front.length).foldl validateKey (seen, report)).2.issues =
      report.issues ++ (rest.zipIdx front.length).flatMap (keyIssues (front ++ rest.map Prod.fst)) := by
  induction rest generalizing front seen report with
  | nil => simp
  | cons entry rest ih =>
      rcases entry with ⟨key, value⟩
      have hlength : (front ++ [key]).length = front.length + 1 := List.length_append
      have hkeys : front ++ [key] ++ rest.map Prod.fst = front ++ key :: rest.map Prod.fst := by simp
      rw [List.zipIdx_cons, List.foldl_cons, List.flatMap_cons, List.map_cons, keyIssues]
      by_cases hkey : key ∈ front
      · have hfirst : (front ++ key :: rest.map Prod.fst).idxOf key = front.idxOf key :=
          List.idxOf_append_of_mem hkey
        have htail := ih (hseen.again hkey) (addIssue report .kError .kDuplicateMetadataKey 0
          (component "metadata" front.length)
          (ascii "metadata key \"" ++ key ++
            ascii ("\" first seen at index " ++ toString (front.idxOf key))))
        rw [hlength, hkeys, issues_addIssue, List.append_assoc report.issues] at htail
        simp only [validateKey, hseen.known key hkey]
        rw [htail, hfirst, if_pos (List.idxOf_lt_length_of_mem hkey)]
        rfl
      · have hfirst : (front ++ key :: rest.map Prod.fst).idxOf key = front.length := by
          rw [List.idxOf_append_of_notMem hkey, List.idxOf_cons_self, Nat.add_zero]
        have htail := ih (hseen.first hkey) report
        rw [hlength, hkeys] at htail
        simp only [validateKey, hseen.fresh key hkey]
        rw [htail, hfirst, if_neg (Nat.lt_irrefl _)]
        rfl

theorem validate_issues (c : Container) (opts : ValidateOptions) :
    (validate c opts).issues = c.sections.zipIdx.flatMap (sectionIssues opts) ++
      c.metadata.zipIdx.flatMap (keyIssues (c.metadata.map Prod.fst)) := by
  have hseen : Seen [] [] := ⟨by simp, by simp⟩
  have hkeys := foldl_validateKey_issues hseen c.metadata (c.sections.zipIdx.foldl (validateSection opts) {})
  rw [foldl_validateSection_issues] at hkeys
  exact hkeys

/-! ### The whole report -/

/-- What is wrong with a container. -/
inductive Finding (c : Container) (opts : ValidateOptions) : Issue → Prop where
  | itemCount {si : Nat} {s : Section} (hs : c.sections[si]? = some s) (hcheck : opts.checkItemCount = true)
      (hfree : s.type ≠ .kFree) (h : s.itemCount.toNat ≠ s.records.length) :
      Finding c opts (countIssue s si)
  | record {si : Nat} {spot : Spot} {issue : Issue} (hspot : Located c si spot)
      (hfault : RecordFault opts si spot issue) : Finding c opts issue
  | duplicateKey {i : Nat} {key : Bytes} {value : Record} (hkey : c.metadata[i]? = some (key, value))
      (hfirst : (c.metadata.map Prod.fst).idxOf key < i) :
      Finding c opts (keyIssue key ((c.metadata.map Prod.fst).idxOf key) i)

theorem mem_validate_issues {c : Container} {opts : ValidateOptions} {issue : Issue} :
    issue ∈ (validate c opts).issues ↔ Finding c opts issue := by
  rw [validate_issues, List.mem_append, List.mem_flatMap, List.mem_flatMap]
  constructor
  · rintro (⟨⟨s, si⟩, hs, h⟩ | ⟨⟨⟨key, value⟩, i⟩, hkey, h⟩)
    · have hs := List.mem_zipIdx_iff_getElem?.mp hs
      rcases List.mem_append.mp h with h | h
      · split at h
        · next hcount =>
          rw [List.mem_singleton.mp h]
          exact .itemCount hs hcount.1 hcount.2.1 hcount.2.2
        · cases h
      · rcases List.mem_flatMap.mp h with ⟨spot, hspot, h⟩
        exact .record ((mem_sectionSpots hs).mp hspot) (mem_issues.mp h)
    · have hkey := List.mem_zipIdx_iff_getElem?.mp hkey
      rw [keyIssues] at h
      split at h
      · next hfirst =>
        rw [List.mem_singleton.mp h]
        exact .duplicateKey hkey hfirst
      · cases h
  · intro h
    cases h with
    | @itemCount si s hs hcheck hfree h =>
        refine .inl ⟨(s, si), List.mem_zipIdx_iff_getElem?.mpr hs, List.mem_append_left _ ?_⟩
        rw [if_pos ⟨hcheck, hfree, h⟩]
        exact List.mem_singleton_self _
    | @record si spot _ hspot hfault =>
        rcases hspot.section with ⟨s, hs, -⟩
        refine .inl ⟨(s, si), List.mem_zipIdx_iff_getElem?.mpr hs, List.mem_append_right _ ?_⟩
        exact List.mem_flatMap.mpr ⟨spot, (mem_sectionSpots hs).mpr hspot, mem_issues.mpr hfault⟩
    | @duplicateKey i key value hkey hfirst =>
        refine .inr ⟨((key, value), i), List.mem_zipIdx_iff_getElem?.mpr hkey, ?_⟩
        rw [keyIssues, if_pos hfirst]
        exact List.mem_singleton_self _

/-! ### No finding comes twice -/

theorem mem_sectionIssues {opts : ValidateOptions} {entry : Section × Nat} {issue : Issue}
    (h : issue ∈ sectionIssues opts entry) :
    issue.sectionIndex = entry.2 ∧ issue.kind ≠ .kDuplicateMetadataKey := by
  rcases List.mem_append.mp h with h | h
  · split at h
    · rw [List.mem_singleton.mp h]
      simp [countIssue]
    · cases h
  · rcases List.mem_flatMap.mp h with ⟨spot, -, h⟩
    rcases path_of_mem_issues h with ⟨-, hindex, -, hkind⟩
    exact ⟨hindex, hkind⟩

theorem nodup_sectionIssues (opts : ValidateOptions) (entry : Section × Nat) :
    (sectionIssues opts entry).Nodup := by
  rw [sectionIssues, List.nodup_append]
  refine ⟨?_, ?_, ?_⟩
  · split <;> simp
  · have htrails := nodup_sectionSpots entry.1 entry.2
    rw [List.Nodup, List.pairwise_map] at htrails
    rw [List.nodup_flatMap]
    refine ⟨fun spot _ => nodup_issues opts entry.2 spot, htrails.imp ?_⟩
    intro spot spot' hne issue h h'
    exact hne ((path_of_mem_issues h).1.symm.trans (path_of_mem_issues h').1)
  · intro issue h issue' h' heq
    rcases List.mem_flatMap.mp h' with ⟨spot, -, h'⟩
    split at h
    · rw [List.mem_singleton.mp h] at heq
      exact (path_of_mem_issues h').2.2.1 (heq ▸ rfl)
    · cases h

theorem pairwise_index {α : Type} (xs : List α) :
    xs.zipIdx.Pairwise fun entry entry' => entry.2 ≠ entry'.2 := by
  rw [← List.pairwise_map, List.zipIdx_map_snd]
  exact List.nodup_range'

theorem mem_keyIssues {keys : List Bytes} {entry : (Bytes × Record) × Nat} {issue : Issue}
    (h : issue ∈ keyIssues keys entry) :
    issue.kind = .kDuplicateMetadataKey ∧ issue.path = component "metadata" entry.2 := by
  rw [keyIssues] at h
  split at h
  · rw [List.mem_singleton.mp h]
    exact ⟨rfl, rfl⟩
  · cases h

theorem nodup_validate_issues (c : Container) (opts : ValidateOptions) :
    (validate c opts).issues.Nodup := by
  rw [validate_issues, List.nodup_append, List.nodup_flatMap, List.nodup_flatMap]
  refine ⟨⟨fun entry _ => nodup_sectionIssues opts entry, ?_⟩, ⟨fun entry _ => ?_, ?_⟩, ?_⟩
  · refine (pairwise_index c.sections).imp ?_
    intro entry entry' hne issue h h'
    exact hne ((mem_sectionIssues h).1.symm.trans (mem_sectionIssues h').1)
  · rw [keyIssues]
    split <;> simp
  · refine (pairwise_index c.metadata).imp ?_
    intro entry entry' hne issue h h'
    exact hne (component_inj ((mem_keyIssues h).2.symm.trans (mem_keyIssues h').2))
  · intro issue h issue' h' heq
    rcases List.mem_flatMap.mp h with ⟨entry, -, h⟩
    rcases List.mem_flatMap.mp h' with ⟨entry', -, h'⟩
    exact (mem_sectionIssues h).2 (heq ▸ (mem_keyIssues h').1)

/-- The report of any container is what is wrong with it, nothing more and nothing twice, and the trail
of a finding about a record leads to that record alone. -/
theorem validate_findings (c : Container) (opts : ValidateOptions) :
    (∀ issue, issue ∈ (validate c opts).issues ↔ Finding c opts issue) ∧
    (validate c opts).issues.Nodup ∧
    ∀ si si' spot spot', Located c si spot → Located c si' spot' → spot.trail = spot'.trail →
      si = si' ∧ spot = spot' :=
  ⟨fun _ => mem_validate_issues, nodup_validate_issues c opts,
    fun _ _ _ _ h h' htrail => located_unique h h' htrail⟩

end Bytewright.Binpack
