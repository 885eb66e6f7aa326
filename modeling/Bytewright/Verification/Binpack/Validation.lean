import Bytewright.Model.Binpack.Validate
import Bytewright.Verification.Binpack.Checksums

/-! # The parser and the validator count levels alike -/

namespace Bytewright.Binpack

open Bytewright.Common

/-! ### What the parser builds -/

/-- A tree of at most `room` levels of records in which every KEYVAL has exactly one child. -/
inductive Record.Fits : (room : Nat) → Record → Prop where
  | node {room : Nat} {rec : Record} (unary : rec.tag = .kKeyval → rec.children.length = 1)
      (below : ∀ child ∈ rec.children, child.Fits room) : rec.Fits (room + 1)

theorem Record.Fits.mono {room room' : Nat} {rec : Record} (h : rec.Fits room) (hle : room ≤ room') :
    rec.Fits room' := by
  induction h generalizing room' with
  | @node room rec unary _ ih =>
      obtain ⟨room', rfl⟩ := Nat.exists_eq_add_of_le' (Nat.one_le_of_lt hle)
      exact .node unary fun child hchild => ih child hchild (by omega)

section Loops

variable {α : Type} {item : Reader α} {P : α → Prop} {as : List α} {r s : ByteReader}

theorem readTimes_forall (hitem : ∀ r a s, item r = .ok a s → P a) {count : Nat}
    (h : readTimes item count r = .ok as s) : ∀ a ∈ as, P a := by
  induction count generalizing r as with
  | zero =>
      cases h
      simp
  | succ count ih =>
      obtain ⟨a, t, hhead, h⟩ := bind_eq_ok.mp h
      obtain ⟨rest, u, hrest, h⟩ := bind_eq_ok.mp h
      cases h
      simp only [List.forall_mem_cons]
      exact ⟨hitem _ _ _ hhead, ih hrest⟩

theorem streamLoop_forall (hitem : ∀ r a s, item r = .ok a s → P a) {fuel : Nat}
    (h : streamLoop item fuel r = .ok as s) : ∀ a ∈ as, P a := by
  induction fuel generalizing r as with
  | zero => cases h
  | succ fuel ih =>
      obtain ⟨r', t, -, h⟩ := bind_eq_ok.mp h
      rw [ite_run] at h
      split at h
      · cases h
        simp
      · obtain ⟨a, u, hhead, h⟩ := bind_eq_ok.mp h
        obtain ⟨rest, v, hrest, h⟩ := bind_eq_ok.mp h
        cases h
        simp only [List.forall_mem_cons]
        exact ⟨hitem _ _ _ hhead, ih hrest⟩

theorem streamOf_forall (hitem : ∀ r a s, item r = .ok a s → P a)
    (h : streamOf item r = .ok as s) : ∀ a ∈ as, P a := by
  obtain ⟨r', t, -, h⟩ := bind_eq_ok.mp h
  exact streamLoop_forall hitem h

end Loops

/-- A record without children is a tree of one level, unless it is a KEYVAL. -/
theorem Record.Fits.leaf {room : Nat} {rec : Record} (htag : rec.tag ≠ .kKeyval)
    (hchildren : rec.children = []) : rec.Fits (room + 1) := by
  refine .node (fun h => absurd h htag) ?_
  simp [hchildren]

theorem fits_parsePayload {room base : Nat} {nested : Reader Record} {rec out : Record}
    {r s : ByteReader} (hnested : ∀ r c s, nested r = .ok c s → c.Fits room)
    (hleaf : rec.children = []) (h : parsePayload base nested rec r = .ok out s) :
    out.Fits (room + 1) := by
  obtain ⟨tag, group, i64, u64, f64, str, blob, children, key⟩ := rec
  cases hleaf
  cases tag with
  | kInt | kUint | kFloat =>
      obtain ⟨v, t, -, h⟩ := bind_eq_ok.mp h
      cases h
      exact .leaf (by simp) rfl
  | kString | kBlob =>
      obtain ⟨r', t, -, h⟩ := bind_eq_ok.mp h
      obtain ⟨v, u, -, h⟩ := bind_eq_ok.mp h
      cases h
      exact .leaf (by simp) rfl
  | kArray =>
      obtain ⟨count, t, -, h⟩ := bind_eq_ok.mp h
      obtain ⟨children, u, hchildren, h⟩ := bind_eq_ok.mp h
      cases h
      exact .node (by simp) (readTimes_forall hnested hchildren)
  | kGroup =>
      obtain ⟨children, u, hchildren, h⟩ := bind_eq_ok.mp h
      cases h
      exact .node (by simp) (streamOf_forall hnested hchildren)
  | kKeyval =>
      obtain ⟨keyLen, t, -, h⟩ := bind_eq_ok.mp h
      obtain ⟨key, u, -, h⟩ := bind_eq_ok.mp h
      obtain ⟨value, v, hvalue, h⟩ := bind_eq_ok.mp h
      obtain ⟨r', w, -, h⟩ := bind_eq_ok.mp h
      dsimp only at h
      rw [ite_run] at h
      split at h
      · cases h
      · cases h
        refine .node (fun _ => rfl) fun child hchild => ?_
        rw [List.mem_singleton.mp hchild]
        exact hnested _ _ _ hvalue

theorem fits_parseRecordIn {room base : Nat} {rec : Record} {r s : ByteReader}
    (h : parseRecordIn room base r = .ok rec s) : rec.Fits room := by
  induction room generalizing base rec r s with
  | zero =>
      obtain ⟨r', t, -, h⟩ := bind_eq_ok.mp h
      cases h
  | succ room ih =>
      obtain ⟨r₀, t₀, -, h⟩ := bind_eq_ok.mp h
      obtain ⟨tagByte, t₁, -, h⟩ := bind_eq_ok.mp h
      obtain ⟨flags, t₂, -, h⟩ := bind_eq_ok.mp h
      cases htag : RecordTag.ofByte? tagByte with
      | none =>
          rw [htag] at h
          cases h
      | some tag =>
          rw [htag] at h
          obtain ⟨length, t₃, -, h⟩ := bind_eq_ok.mp h
          obtain ⟨r₄, t₄, -, h⟩ := bind_eq_ok.mp h
          obtain ⟨payload, t₅, -, h⟩ := bind_eq_ok.mp h
          obtain ⟨-, u, hpayload⟩ := readWithin_ok h
          exact fits_parsePayload (fun _ _ _ hc => ih hc) rfl hpayload

/-- A section's records are a stream no longer than the section, or there are none. -/
theorem parseSection_records {opts : Options} {e : Entry} {r t : ByteReader} {s : Section}
    (h : parseSection opts e r = .ok s t) :
    s.records = [] ∨ ∃ base body u, body.length ≤ s.length.toNat ∧
      parseStream opts.maxDepth base 0 { data := body } = .ok s.records u := by
  rcases bind_eq_ok.mp h with ⟨r', r'', -, h⟩
  dsimp only at h
  rw [ite_run] at h
  split at h
  · cases h
  · rcases bind_eq_ok.mp h with ⟨ok, u, -, h⟩
    rw [ite_run] at h
    split at h
    · cases h
      exact .inl rfl
    · rcases bind_eq_ok.mp h with ⟨records, v, hbody, h⟩
      cases h
      rcases readWithin_ok hbody with ⟨-, w, hstream⟩
      exact .inr ⟨_, _, w, List.length_take_le .., hstream⟩

theorem parse_records {data : Bytes} {opts : Options} {c : Container} (h : parse data opts = .ok c) :
    ∀ s ∈ c.sections, s.records = [] ∨ ∃ base body u, body.length ≤ s.length.toNat ∧
      parseStream opts.maxDepth base 0 { data := body } = .ok s.records u := by
  rcases parse_ok h with ⟨c₀, entries, t, -, -, -, hsections, -⟩
  generalize c.sections = sections at hsections
  induction hsections with
  | nil => simp
  | cons hsection _ ih =>
      rw [List.forall_mem_cons]
      exact ⟨parseSection_records hsection, ih⟩

/-- What holds of every record that can be read holds of every record of a section. -/
theorem parse_forall {P : Record → Prop} {data : Bytes} {opts : Options} {c : Container}
    (hread : ∀ base r rec s, parseRecord opts.maxDepth base 0 r = .ok rec s → P rec)
    (h : parse data opts = .ok c) : ∀ s ∈ c.sections, ∀ rec ∈ s.records, P rec := by
  intro s hs
  rcases parse_records h s hs with hnil | ⟨base, body, u, -, hstream⟩
  · simp [hnil]
  · exact streamOf_forall (hread base) hstream

/-- What `parse` returns fits the depth it was given. -/
theorem parse_fits {data : Bytes} {opts : Options} {c : Container} (h : parse data opts = .ok c) :
    ∀ s ∈ c.sections, ∀ rec ∈ s.records, rec.Fits (opts.maxDepth + 1) :=
  parse_forall (fun _ _ _ _ hrec => fits_parseRecordIn hrec) h

/-! ### What a round of the validator reports -/

/-- A finding the parser leaves to the validator. -/
def Issue.Open (issue : Issue) : Prop :=
  issue.kind ≠ .kDepthExceeded ∧ issue.kind ≠ .kMalformedKeyval

/-- Such a finding that is a warning. -/
def Issue.Advisory (issue : Issue) : Prop := issue.severity = .kWarning ∧ issue.Open

/-- The later report has the findings of the earlier one, and then some for which `P` holds. -/
def Adds (P : Issue → Prop) (report report' : ValidationReport) : Prop :=
  ∃ added, report'.issues = report.issues ++ added ∧ ∀ issue ∈ added, P issue

namespace Adds

variable {P Q : Issue → Prop} {report report' report'' : ValidationReport}

theorem refl (report : ValidationReport) : Adds P report report := ⟨[], by simp, by simp⟩

theorem trans (h : Adds P report report') (h' : Adds P report' report'') : Adds P report report'' := by
  obtain ⟨added, heq, hadded⟩ := h
  obtain ⟨added', heq', hadded'⟩ := h'
  refine ⟨added ++ added', by rw [heq', heq, List.append_assoc], ?_⟩
  rw [List.forall_mem_append]
  exact ⟨hadded, hadded'⟩

theorem mono (hPQ : ∀ issue, P issue → Q issue) (h : Adds P report report') :
    Adds Q report report' := by
  obtain ⟨added, heq, hadded⟩ := h
  exact ⟨added, heq, fun issue hissue => hPQ issue (hadded issue hissue)⟩

theorem issue {severity : IssueSeverity} {kind : IssueKind} {sectionIndex : Nat} {path detail : Bytes}
    (h : P { severity, kind, sectionIndex, path, detail }) :
    Adds P report (addIssue report severity kind sectionIndex path detail) :=
  ⟨[_], rfl, by simpa using h⟩

theorem ite {c : Prop} [Decidable c] (h : c → Adds P report report') :
    Adds P report (if c then report' else report) := by
  split
  · next hc => exact h hc
  · exact refl report

/-- Warnings leave the verdict alone. -/
theorem ok_eq (h : Adds Issue.Advisory report report') : report'.ok = report.ok := by
  obtain ⟨added, heq, hadded⟩ := h
  have hall : added.all (fun issue => issue.severity ≠ .kError) = true := by
    rw [List.all_eq_true]
    intro issue hissue
    rw [(hadded issue hissue).1]
    rfl
  rw [ValidationReport.ok, heq, List.all_append, hall, Bool.and_true, ValidationReport.ok]

end Adds

theorem ok_addIssue_kError (report : ValidationReport) (kind : IssueKind) (sectionIndex : Nat)
    (path detail : Bytes) : (addIssue report .kError kind sectionIndex path detail).ok = false := by
  simp [addIssue, ValidationReport.ok]

theorem validateRecords_adds {opts : ValidateOptions} {P : Issue → Prop} {sectionIndex depth : Nat}
    {recs : List Record}
    (h : ∀ rec ∈ recs, ∀ path report,
      Adds P report (validateRecord opts sectionIndex depth path report rec))
    (path : Bytes) (kind : String) (i : Nat) (report : ValidationReport) :
    Adds P report (validateRecords opts sectionIndex depth path kind i report recs) := by
  induction recs generalizing i report with
  | nil => exact .refl report
  | cons rec recs ih =>
      rw [List.forall_mem_cons] at h
      rw [validateRecords]
      exact (h.1 _ _).trans (ih h.2 _ _)

/-- On a tree that fits the limit the validator has warnings only. -/
theorem validateRecord_adds {opts : ValidateOptions} {sectionIndex room : Nat} {rec : Record}
    (hfits : rec.Fits room) (depth : Nat) (hdepth : depth + room ≤ opts.maxDepth + 1) (path : Bytes)
    (report : ValidationReport) :
    Adds Issue.Advisory report (validateRecord opts sectionIndex depth path report rec) := by
  induction hfits generalizing depth path report with
  | @node room rec unary below ih =>
      have hbelow : ∀ kind report, Adds Issue.Advisory report
          (validateRecords opts sectionIndex (depth + 1) path kind 0 report rec.children) := by
        intro kind report
        refine validateRecords_adds (fun child hchild path report => ?_) path kind 0 report
        exact ih child hchild (depth + 1) (by omega) path report
      obtain ⟨tag, group, i64, u64, f64, str, blob, children, key⟩ := rec
      rw [validateRecord.eq_def]
      dsimp only
      rw [if_neg (by omega)]
      cases tag with
      | kInt | kUint | kFloat | kString => exact .refl report
      | kBlob => exact .ite fun _ => .issue (by simp [Issue.Advisory, Issue.Open])
      | kArray | kGroup =>
          refine Adds.trans (.ite fun _ => .issue ?_) (hbelow _ _)
          simp [Issue.Advisory, Issue.Open]
      | kKeyval =>
          have hone : children.length = 1 := unary rfl
          simp only [hone, ne_eq, not_true, if_false]
          refine Adds.trans (.ite fun _ => .issue ?_) (hbelow _ _)
          simp [Issue.Advisory, Issue.Open]

/-! ### The sections -/

/-- What the validator asks of a section. -/
def ValidateOptions.CountHolds (opts : ValidateOptions) (s : Section) : Prop :=
  opts.checkItemCount = true → s.type ≠ .kFree → s.itemCount.toNat = s.records.length

theorem validateSection_spec {opts : ValidateOptions} {s : Section}
    (hfits : ∀ rec ∈ s.records, rec.Fits (opts.maxDepth + 1)) (si : Nat) (report : ValidationReport) :
    Adds Issue.Open report (validateSection opts report (s, si)) ∧
      ((validateSection opts report (s, si)).ok = true ↔ report.ok = true ∧ opts.CountHolds s) := by
  have hrecords : ∀ report, Adds Issue.Advisory report
      (validateRecords opts si 0 (component "section" si) "record" 0 report s.records) := by
    intro report
    refine validateRecords_adds (fun rec hrec path report => ?_) _ _ _ report
    exact validateRecord_adds (hfits rec hrec) 0 (by omega) path report
  have hrecords' := fun report => (hrecords report).mono fun _ => And.right
  rw [validateSection]
  split
  · next h =>
    refine ⟨Adds.trans (.issue (by simp [Issue.Open])) (hrecords' _), ?_⟩
    rw [(hrecords _).ok_eq, ok_addIssue_kError, ValidateOptions.CountHolds]
    simp [h]
  · next h =>
    refine ⟨hrecords' report, ?_⟩
    rw [(hrecords _).ok_eq, ValidateOptions.CountHolds]
    grind

theorem foldl_validateSection_spec {opts : ValidateOptions} {entries : List (Section × Nat)}
    (hfits : ∀ entry ∈ entries, ∀ rec ∈ entry.1.records, rec.Fits (opts.maxDepth + 1))
    (report : ValidationReport) :
    Adds Issue.Open report (entries.foldl (validateSection opts) report) ∧
      ((entries.foldl (validateSection opts) report).ok = true ↔
        report.ok = true ∧ ∀ entry ∈ entries, opts.CountHolds entry.1) := by
  induction entries generalizing report with
  | nil => exact ⟨.refl report, by simp⟩
  | cons entry entries ih =>
      rw [List.forall_mem_cons] at hfits
      obtain ⟨hadds, hok⟩ := validateSection_spec hfits.1 entry.2 report
      obtain ⟨hadds', hok'⟩ := ih hfits.2 (validateSection opts report entry)
      rw [List.foldl_cons]
      refine ⟨hadds.trans hadds', ?_⟩
      rw [hok', hok, List.forall_mem_cons, and_assoc]

/-! ### The metadata keys -/

/-- The scan finds nothing exactly when the keys differ from each other and from those seen. -/
theorem foldl_validateKey_spec (entries : List ((Bytes × Record) × Nat)) (seen : List (Bytes × Nat))
    (report : ValidationReport) :
    Adds Issue.Open report (entries.foldl validateKey (seen, report)).2 ∧
      ((entries.foldl validateKey (seen, report)).2.ok = true ↔
        report.ok = true ∧ (entries.map (·.1.1)).Nodup ∧
          ∀ key ∈ entries.map (·.1.1), seen.lookup key = none) := by
  induction entries generalizing seen report with
  | nil => exact ⟨.refl report, by simp⟩
  | cons entry entries ih =>
      obtain ⟨⟨key, value⟩, i⟩ := entry
      rw [List.foldl_cons, List.map_cons, List.nodup_cons, List.forall_mem_cons]
      cases hseen : seen.lookup key with
      | some first =>
          simp only [validateKey, hseen]
          obtain ⟨hadds, hok⟩ := ih seen (addIssue report .kError .kDuplicateMetadataKey 0
            (component "metadata" i)
            (ascii "metadata key \"" ++ key ++ ascii ("\" first seen at index " ++ toString first)))
          refine ⟨Adds.trans (.issue (by simp [Issue.Open])) hadds, ?_⟩
          rw [hok, ok_addIssue_kError]
          simp
      | none =>
          simp only [validateKey, hseen]
          obtain ⟨hadds, hok⟩ := ih (seen ++ [(key, i)]) report
          refine ⟨hadds, ?_⟩
          have hlookup : ∀ k, (seen ++ [(key, i)]).lookup k = none ↔ seen.lookup k = none ∧ k ≠ key := by
            intro k
            rw [List.lookup_append, Option.or_eq_none_iff]
            by_cases hk : k = key
            · simp [hk]
            · simp [List.lookup_cons, beq_false_of_ne hk, hk]
          rw [hok]
          simp only [hlookup]
          grind

/-! ### The whole container -/

/-- Of a container that `parse` returned under a depth limit no looser than its own, the validator
finds neither the depth nor a KEYVAL at fault. It is ok exactly if the declared counts hold, where
they are checked, and no metadata key comes twice. -/
theorem validate_parsed {data : Bytes} {opts : Options} {c : Container} {vopts : ValidateOptions}
    (h : parse data opts = .ok c) (hdepth : opts.maxDepth ≤ vopts.maxDepth) :
    (∀ issue ∈ (validate c vopts).issues,
      issue.kind ≠ .kDepthExceeded ∧ issue.kind ≠ .kMalformedKeyval) ∧
    ((validate c vopts).ok = true ↔
      (vopts.checkItemCount = true →
        ∀ s ∈ c.sections, s.type ≠ .kFree → s.itemCount.toNat = s.records.length) ∧
      (c.metadata.map Prod.fst).Nodup) := by
  have hsections : ∀ P : Section → Prop,
      (∀ entry ∈ c.sections.zipIdx, P entry.1) ↔ ∀ s ∈ c.sections, P s := by
    intro P
    rw [← List.forall_mem_map, List.zipIdx_map_fst]
  have hfits : ∀ s ∈ c.sections, ∀ rec ∈ s.records, rec.Fits (vopts.maxDepth + 1) := by
    intro s hs rec hrec
    exact (parse_fits h s hs rec hrec).mono (by omega)
  obtain ⟨hadds, hok⟩ := foldl_validateSection_spec ((hsections _).mpr hfits) {}
  obtain ⟨hadds', hok'⟩ := foldl_validateKey_spec c.metadata.zipIdx []
    (c.sections.zipIdx.foldl (validateSection vopts) {})
  have hkeys : c.metadata.zipIdx.map (·.1.1) = c.metadata.map Prod.fst := by
    conv_rhs => rw [← List.zipIdx_map_fst 0 c.metadata]
    rw [List.map_map]
    rfl
  constructor
  · obtain ⟨added, heq, hadded⟩ := hadds.trans hadds'
    rw [validate, heq]
    exact hadded
  · have hcounts : (∀ s ∈ c.sections, vopts.CountHolds s) ↔ (vopts.checkItemCount = true →
        ∀ s ∈ c.sections, s.type ≠ .kFree → s.itemCount.toNat = s.records.length) :=
      ⟨fun hall hcheck s hs => hall s hs hcheck, fun hall s hs hcheck => hall hcheck s hs⟩
    have hempty : ({} : ValidationReport).ok = true := rfl
    rw [validate, hok', hok, hsections, hcounts, hkeys]
    simp [hempty]

/-- A file whose METADATA section has the key `k` twice. -/
def keyTwice : Bytes :=
  kMagic ++ [1, 0, 1, 0, 1, 0, 0, 0, 188, 174, 105, 63] ++
  [2, 0, 0, 0, 0, 0, 0, 0, 40, 0, 0, 0, 18, 0, 0, 0, 2, 0, 0, 0, 216, 201, 240, 32] ++
  [8, 0, 6, 1, 107, 2, 0, 1, 5] ++ [8, 0, 6, 1, 107, 2, 0, 1, 5]

theorem validate_parsed_keyTwice :
    ∃ c, parse keyTwice {} = .ok c ∧ (validate c {}).ok = false := by
  have hkeys : (parse keyTwice {}).toOption.map (fun c => c.metadata.map Prod.fst) =
      some [ascii "k", ascii "k"] := by decide +kernel
  cases hparse : parse keyTwice {} with
  | error e =>
      rw [hparse] at hkeys
      cases hkeys
  | ok c =>
      rw [hparse] at hkeys
      have hmetadata : c.metadata.map Prod.fst = [ascii "k", ascii "k"] := Option.some.inj hkeys
      refine ⟨c, rfl, Bool.eq_false_iff.mpr fun hok => ?_⟩
      have hdistinct := ((validate_parsed hparse (Nat.le_refl 32)).2.mp hok).2
      rw [hmetadata] at hdistinct
      exact (List.nodup_cons.mp hdistinct).1 (List.mem_singleton.mpr rfl)

end Bytewright.Binpack
