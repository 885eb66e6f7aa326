import Mathlib.Data.List.Forall2
import Bytewright.Model.Cfgscript.Schema
import Bytewright.Verification.Cfgscript.Comparisons

/-! # Schemas

What a validation reports, and what is wrong with a document in exact arithmetic. -/

namespace Bytewright.Cfgscript

open Bytewright.Common

/-! ### Faults -/

/-- What a document has wrong by a rule. -/
inductive Fault (doc : Document) (rule : FieldRule) : ViolationKind → Prop
  | missing (hnone : query doc rule.path = none) (hrequired : rule.required = true) : Fault doc rule .kMissingRequired
  | mismatch {value : Value} (hvalue : query doc rule.path = some value)
      (htype : typeMatches value rule.type = false) : Fault doc rule .kTypeMismatch
  | below {value : Value} {n : Int} (hvalue : query doc rule.path = some value)
      (htype : typeMatches value rule.type = true) (hamount : value.amount = some n) (hmin : rule.hasMin = true)
      (hlt : n < rule.minValue.signedUnits) : Fault doc rule .kBelowMinimum
  | above {value : Value} {n : Int} (hvalue : query doc rule.path = some value)
      (htype : typeMatches value rule.type = true) (hamount : value.amount = some n) (hmax : rule.hasMax = true)
      (hlt : rule.maxValue.signedUnits < n) : Fault doc rule .kAboveMaximum
  | notAllowed {s : Bytes} (hvalue : query doc rule.path = some (.str s))
      (htype : typeMatches (.str s) rule.type = true) (hne : rule.allowed ≠ []) (hnot : s ∉ rule.allowed) :
      Fault doc rule .kNotAllowed

/-! ### One rule -/

variable {value : Value} {doc : Document} {rule : FieldRule}

theorem checkRange_append (rule : FieldRule) (value : Value) (out : List Violation) :
    checkRange rule value out = out ++ checkRange rule value [] := by
  simp only [checkRange]
  split_ifs <;> simp

theorem checkAllowed_append (rule : FieldRule) (value : Value) (out : List Violation) :
    checkAllowed rule value out = out ++ checkAllowed rule value [] := by
  cases value with
  | str s => rw [checkAllowed, checkAllowed]; split_ifs <;> simp
  | _ => simp [checkAllowed]

/-- What a rule reports goes behind what is already there. -/
theorem validateRule_append (doc : Document) (rule : FieldRule) (out : List Violation) :
    validateRule doc out rule = out ++ validateRule doc [] rule := by
  rw [validateRule, validateRule]
  cases query doc rule.path with
  | none => simp only []; split_ifs <;> simp
  | some value =>
      by_cases htype : typeMatches value rule.type = true
      · simp only [htype, if_true]
        rw [checkAllowed_append, checkRange_append, checkAllowed_append rule value (checkRange rule value []),
          List.append_assoc]
      · simp [htype]

/-- What a rule reports of a document: its faults, each once. -/
structure Reports (doc : Document) (rule : FieldRule) (out : List Violation) : Prop where
  path : ∀ v ∈ out, v.path = rule.path
  nodup : (out.map Violation.kind).Nodup
  fault : ∀ v ∈ out, Fault doc rule v.kind

/-- The bounds of a rule are numbers, and close enough to be told from the integer they are compared with. -/
def Compares (doc : Document) (rule : FieldRule) : Prop :=
  ∀ bound, (rule.hasMin = true ∧ bound = rule.minValue) ∨ (rule.hasMax = true ∧ bound = rule.maxValue) →
    bound.IsNumber ∧ ∀ value, query doc rule.path = some value → value.Exact ∨ bound.Moderate

section

variable (hvalue : query doc rule.path = some value) (htype : typeMatches value rule.type = true)
include hvalue htype

theorem fault_below (hnumber : value.isNumber = true)
    (hlt : (rule.hasMin && value.asDouble.lt rule.minValue) = true) : Fault doc rule .kBelowMinimum := by
  obtain ⟨hmin, hlt⟩ := Bool.and_eq_true_iff.mp hlt
  obtain ⟨n, hn⟩ := exists_amount hnumber (Double.isNumber_of_lt hlt).1
  exact .below hvalue htype hn hmin (lt_of_asDouble_lt hn hlt)

theorem fault_above (hnumber : value.isNumber = true)
    (hlt : (rule.hasMax && rule.maxValue.lt value.asDouble) = true) : Fault doc rule .kAboveMaximum := by
  obtain ⟨hmax, hlt⟩ := Bool.and_eq_true_iff.mp hlt
  obtain ⟨n, hn⟩ := exists_amount hnumber (Double.isNumber_of_lt hlt).2
  exact .above hvalue htype hn hmax (lt_of_lt_asDouble hn hlt)

theorem reports_checkRange : Reports doc rule (checkRange rule value []) := by
  have hbelow := fault_below hvalue htype
  have habove := fault_above hvalue htype
  rw [checkRange]
  by_cases hnumber : value.isNumber = true
  · rw [if_neg (by simp [hnumber])]
    specialize hbelow hnumber
    specialize habove hnumber
    dsimp only
    split_ifs with hmax hmin hmin
    · constructor <;> simp [hbelow hmin, habove hmax]
    · constructor <;> simp [habove hmax]
    · constructor <;> simp [hbelow hmin]
    · constructor <;> simp
  · rw [if_pos (by simpa using hnumber)]
    constructor <;> simp

theorem reports_checkAllowed : Reports doc rule (checkAllowed rule value []) := by
  cases value with
  | str s =>
      rw [checkAllowed]
      split_ifs with hallowed
      · constructor <;> simp
      · have hfault : Fault doc rule .kNotAllowed := by
          rw [Bool.or_eq_true, not_or] at hallowed
          exact .notAllowed hvalue htype (by simpa using hallowed.1) (by simpa using hallowed.2)
        constructor <;> simp [hfault]
  | _ => constructor <;> simp [checkAllowed]

end

theorem reports_validateRule (doc : Document) (rule : FieldRule) : Reports doc rule (validateRule doc [] rule) := by
  rw [validateRule]
  cases hvalue : query doc rule.path with
  | none =>
      dsimp only
      split_ifs with hrequired
      · have hfault := Fault.missing hvalue hrequired
        constructor <;> simp [hfault]
      · constructor <;> simp
  | some value =>
      dsimp only
      split_ifs with htype
      · -- strings have no range, and nothing else has a list of what is allowed
        cases value with
        | str s => exact reports_checkAllowed hvalue htype
        | _ => exact reports_checkRange hvalue htype
      · have hfault := Fault.mismatch hvalue (Bool.not_eq_true _ ▸ htype)
        constructor <;> simp [hfault]

theorem validateRule_value (hvalue : query doc rule.path = some value) (htype : typeMatches value rule.type = true) :
    validateRule doc [] rule = checkAllowed rule value (checkRange rule value []) := by
  rw [validateRule, hvalue]
  dsimp only
  rw [if_pos htype]

theorem mem_validateRule_of_range (hvalue : query doc rule.path = some value)
    (htype : typeMatches value rule.type = true) {v : Violation} (hv : v ∈ checkRange rule value []) :
    v ∈ validateRule doc [] rule := by
  rw [validateRule_value hvalue htype, checkAllowed_append]
  exact List.mem_append_left _ hv

/-- No fault is passed over, as far as the bounds can be told from the values. -/
theorem validateRule_complete (hcompares : Compares doc rule) {kind : ViolationKind} (hfault : Fault doc rule kind) :
    ∃ v ∈ validateRule doc [] rule, v.kind = kind := by
  cases hfault with
  | missing hnone hrequired => simp [validateRule, hnone, hrequired]
  | mismatch hvalue htype => simp [validateRule, hvalue, htype]
  | @below value n hvalue htype hamount hmin hlt =>
      obtain ⟨hbound, hexact⟩ := hcompares _ (.inl ⟨hmin, rfl⟩)
      have hnumber := (isNumber_of_amount hamount).1
      have hfound := (asDouble_lt_iff hamount hbound (hexact value hvalue)).mpr hlt
      have hrange : ∃ v ∈ checkRange rule value [], v.kind = .kBelowMinimum := by
        simp only [checkRange, hnumber, hmin, hfound]
        split_ifs <;> simp_all
      obtain ⟨v, hv, hkind⟩ := hrange
      exact ⟨v, mem_validateRule_of_range hvalue htype hv, hkind⟩
  | @above value n hvalue htype hamount hmax hlt =>
      obtain ⟨hbound, hexact⟩ := hcompares _ (.inr ⟨hmax, rfl⟩)
      have hnumber := (isNumber_of_amount hamount).1
      have hfound := (lt_asDouble_iff hamount hbound (hexact value hvalue)).mpr hlt
      have hrange : ∃ v ∈ checkRange rule value [], v.kind = .kAboveMaximum := by
        simp only [checkRange, hnumber, hmax, hfound]
        split_ifs <;> simp_all
      obtain ⟨v, hv, hkind⟩ := hrange
      exact ⟨v, mem_validateRule_of_range hvalue htype hv, hkind⟩
  | @notAllowed s hvalue htype hne hnot =>
      rw [validateRule_value hvalue htype, checkAllowed_append]
      simp [checkAllowed, hne, hnot]

/-! ### All rules -/

theorem validate_eq (doc : Document) (schema : Schema) :
    validate doc schema = schema.rules.flatMap (validateRule doc []) := by
  have hfold : ∀ (rules : List FieldRule) (out : List Violation),
      rules.foldl (validateRule doc) out = out ++ rules.flatMap (validateRule doc []) := by
    intro rules
    induction rules with
    | nil => simp
    | cons rule rules ih =>
        intro out
        rw [List.foldl_cons, ih, validateRule_append, List.flatMap_cons, List.append_assoc]
  exact hfold schema.rules []

/-- A validation reports, rule by rule, faults and nothing else, each under the path of its rule. It reports
every one of them if the bounds of the rule can be told from the values they are compared with. -/
theorem validate_reports (doc : Document) (schema : Schema) :
    (∃ reports, validate doc schema = reports.flatten ∧
      List.Forall₂ (fun rule out => Reports doc rule out ∧
        (Compares doc rule → ∀ kind, Fault doc rule kind → ∃ v ∈ out, v.kind = kind)) schema.rules reports) ∧
    ((∀ rule ∈ schema.rules, Compares doc rule) →
      (validate doc schema = [] ↔ ∀ rule ∈ schema.rules, ∀ kind, ¬ Fault doc rule kind)) := by
  rw [validate_eq]
  constructor
  · refine ⟨schema.rules.map (validateRule doc []), List.flatMap_def, ?_⟩
    rw [List.forall₂_map_right_iff, List.forall₂_same]
    exact fun rule _ => ⟨reports_validateRule doc rule, fun hcompares _ => validateRule_complete hcompares⟩
  · intro hcompares
    rw [List.flatMap_eq_nil_iff]
    constructor
    · intro hnil rule hrule kind hfault
      obtain ⟨v, hv, -⟩ := validateRule_complete (hcompares rule hrule) hfault
      rw [hnil rule hrule] at hv
      cases hv
    · intro hnone rule hrule
      rw [List.eq_nil_iff_forall_not_mem]
      exact fun v hv => hnone rule hrule v.kind ((reports_validateRule doc rule).fault v hv)

/-- A number between bounds, a string from a list, and one that may be absent. -/
def serverSchema : Schema :=
  let port := (({} : Schema).require (ascii "port") .kInt).range (Double.ofInt64 1) (Double.ofInt64 65535)
  let mode := (port.require (ascii "mode") .kStr).enumValues [ascii "strict", ascii "loose"]
  mode.optional (ascii "banner") .kStr

def serverDocument : Document where
  nodes := [.assignment [ascii "port"] (.int 8080), .assignment [ascii "mode"] (.str (ascii "strict"))]

/-- The list is empty, so nothing is wrong. -/
theorem validate_reports_server :
    ∀ rule ∈ serverSchema.rules, ∀ kind, ¬ Fault serverDocument rule kind := by
  have hcompares : ∀ rule ∈ serverSchema.rules, Compares serverDocument rule := by
    have hbounds : ∀ rule ∈ serverSchema.rules,
        (rule.hasMin = true → rule.minValue.IsNumber ∧ rule.minValue.Moderate) ∧
          (rule.hasMax = true → rule.maxValue.IsNumber ∧ rule.maxValue.Moderate) := by
      unfold Double.IsNumber Double.Moderate
      decide +kernel
    intro rule hrule bound hbound
    obtain ⟨hmin, hmax⟩ := hbounds rule hrule
    cases hbound with
    | inl h =>
        rw [h.2]
        exact (hmin h.1).imp_right fun hmoderate _ _ => .inr hmoderate
    | inr h =>
        rw [h.2]
        exact (hmax h.1).imp_right fun hmoderate _ _ => .inr hmoderate
  exact ((validate_reports serverDocument serverSchema).2 hcompares).mp (by decide +kernel)

/-- The integer above a bound of `2 ^ 53` passes it, since it is compared as a double. -/
example : validate { nodes := [.assignment [ascii "n"] (.int 9007199254740993)] }
    ((({} : Schema).require (ascii "n") .kInt).range (Double.ofInt64 0) (Double.ofInt64 9007199254740992)) =
      [] := by
  decide +kernel

end Bytewright.Cfgscript
