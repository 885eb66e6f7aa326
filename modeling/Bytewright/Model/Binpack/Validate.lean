import Bytewright.Model.Binpack.Model

/-! `validate`: what is structurally wrong with a container, as a report and not as an exception. -/

namespace Bytewright.Binpack

open Bytewright.Common

inductive IssueSeverity where
  | kWarning
  | kError
  deriving DecidableEq, Repr

inductive IssueKind where
  | kEmptyGroup
  | kEmptyArray
  | kDuplicateMetadataKey
  | kOversizedBlob
  | kItemCountMismatch
  | kMalformedKeyval
  | kDepthExceeded
  | kEmptyMetadataKey
  deriving DecidableEq, Repr

/-- One finding. `path` is the trail to the record. -/
structure Issue where
  severity : IssueSeverity := .kWarning
  kind : IssueKind := .kEmptyGroup
  sectionIndex : Nat := 0
  path : Bytes := []
  detail : Bytes := []
  deriving DecidableEq, Repr

structure ValidateOptions where
  maxBlobBytes : Nat := 1 <<< 20
  maxDepth : Nat := 32
  checkItemCount : Bool := true
  deriving DecidableEq, Repr

structure ValidationReport where
  issues : List Issue := []
  deriving DecidableEq, Repr

/-- Warnings alone leave a container ok. -/
def ValidationReport.ok (report : ValidationReport) : Bool :=
  report.issues.all fun issue => issue.severity ≠ .kError

/-- A path component such as `group[2]`. -/
def component (kind : String) (index : Nat) : Bytes :=
  ascii (kind ++ "[" ++ toString index ++ "]")

def addIssue (report : ValidationReport) (severity : IssueSeverity) (kind : IssueKind)
    (sectionIndex : Nat) (path detail : Bytes) : ValidationReport :=
  { report with issues := report.issues ++ [{ severity, kind, sectionIndex, path, detail }] }

mutual

/-- One record subtree. `path` already names the record. -/
def validateRecord (opts : ValidateOptions) (sectionIndex depth : Nat) (path : Bytes)
    (report : ValidationReport) : Record → ValidationReport
  | ⟨tag, _, _, _, _, _, blob, children, key⟩ =>
    if depth > opts.maxDepth then
      addIssue report .kError .kDepthExceeded sectionIndex path
        (ascii ("nesting depth " ++ toString depth ++ " exceeds limit " ++ toString opts.maxDepth))
    else
      match tag with
      | .kBlob =>
        if blob.length > opts.maxBlobBytes then
          addIssue report .kWarning .kOversizedBlob sectionIndex path
            (ascii ("blob of " ++ toString blob.length ++ " bytes exceeds limit " ++
              toString opts.maxBlobBytes))
        else report
      | .kArray =>
        let report :=
          if children.isEmpty then
            addIssue report .kWarning .kEmptyArray sectionIndex path (ascii "array has no elements")
          else report
        validateRecords opts sectionIndex (depth + 1) path "array" 0 report children
      | .kGroup =>
        let report :=
          if children.isEmpty then
            addIssue report .kWarning .kEmptyGroup sectionIndex path (ascii "group has no records")
          else report
        validateRecords opts sectionIndex (depth + 1) path "group" 0 report children
      | .kKeyval =>
        let report :=
          if children.length ≠ 1 then
            addIssue report .kError .kMalformedKeyval sectionIndex path
              (ascii ("keyval has " ++ toString children.length ++ " children (expected 1)"))
          else report
        let report :=
          if key.isEmpty then
            addIssue report .kWarning .kEmptyMetadataKey sectionIndex path
              (ascii "keyval has an empty key")
          else report
        validateRecords opts sectionIndex (depth + 1) path "keyval" 0 report children
      | .kInt | .kUint | .kFloat | .kString => report

/-- The loop over the records below `path`, from the index `i` on. -/
def validateRecords (opts : ValidateOptions) (sectionIndex depth : Nat) (path : Bytes) (kind : String)
    (i : Nat) (report : ValidationReport) : List Record → ValidationReport
  | [] => report
  | rec :: recs =>
    validateRecords opts sectionIndex depth path kind (i + 1)
      (validateRecord opts sectionIndex depth (path ++ ascii "/" ++ component kind i) report rec) recs

end

/-- One round of the section loop. FREE sections declare no records. -/
def validateSection (opts : ValidateOptions) (report : ValidationReport) (entry : Section × Nat) :
    ValidationReport :=
  let (s, si) := entry
  let base := component "section" si
  let report :=
    if opts.checkItemCount ∧ s.type ≠ .kFree ∧ s.itemCount.toNat ≠ s.records.length then
      addIssue report .kError .kItemCountMismatch si base
        (ascii ("declared item_count " ++ toString s.itemCount.toNat ++ " != actual record count " ++
          toString s.records.length))
    else report
  validateRecords opts si 0 base "record" 0 report s.records

/-- One round of the scan for duplicate keys: `seen` says where each key came first. -/
def validateKey (st : List (Bytes × Nat) × ValidationReport) (entry : (Bytes × Record) × Nat) :
    List (Bytes × Nat) × ValidationReport :=
  let (seen, report) := st
  let ((key, _), i) := entry
  match seen.lookup key with
  | some first =>
    (seen, addIssue report .kError .kDuplicateMetadataKey 0 (component "metadata" i)
      (ascii "metadata key \"" ++ key ++ ascii ("\" first seen at index " ++ toString first)))
  | none => (seen ++ [(key, i)], report)

def validate (c : Container) (opts : ValidateOptions) : ValidationReport :=
  let report := c.sections.zipIdx.foldl (validateSection opts) {}
  (c.metadata.zipIdx.foldl validateKey ([], report)).2

end Bytewright.Binpack
