import Bytewright.Verification.Cfgscript.PathGrammar

/-! # The text of a path

The flattener writes a path as text, the query splits it into its steps again. -/

namespace Bytewright.Cfgscript

open Bytewright.Common Bytewright.Library

/-! ### Scanning a path -/

theorem isNameByte_of_identPart : ∀ c : UInt8, isIdentPart c = true → isNameByte c = true :=
  forall_byte (by decide +kernel)

/-! ### Steps -/

/-- A step behind others, as the flattener writes it. -/
def stepText : Step → Bytes
  | .name name => ascii "." ++ name
  | .index i => ascii "[" ++ decimal i.toNat ++ ascii "]"

/-- The steps name what an accepted source can name. -/
def Step.Proper : Step → Prop
  | .name word => IsName word
  | .index _ => True

/-- The segment that spells a step. -/
def Step.segment : Step → Segment
  | .name word => .name word
  | .index i => .index (decimal i.toNat)

theorem stepText_eq (step : Step) : stepText step = step.segment.text := by
  cases step <;>
    simp [stepText, Step.segment, Segment.text, Segment.isName, Segment.body, ascii, ch, Char.toUInt8]

theorem step_segment (step : Step) : step.segment.step = step := by
  cases step with
  | name name => rfl
  | index i =>
      rw [Step.segment, Segment.step, indexValue_eq, decimalValue_decimal, UInt64.ofNat_toNat]

theorem IsName.wellFormed {name : Bytes} (h : IsName name) : (Segment.name name).WellFormed := by
  rcases h.start with ⟨c, cs, rfl, -⟩
  exact ⟨List.cons_ne_nil c cs, fun c hc => isNameByte_of_identPart c (h.part c hc)⟩

theorem Step.Proper.wellFormed {step : Step} (h : step.Proper) : step.segment.WellFormed := by
  cases step with
  | name name => exact IsName.wellFormed h
  | index i => exact ⟨decimal_ne_nil _, isDigit_decimal _⟩

/-- The text of a path is split into its steps. -/
theorem tokenize_steps {name : Bytes} {steps : List Step} (hname : IsName name)
    (h : ∀ step ∈ steps, step.Proper) :
    tokenize (name ++ steps.flatMap stepText) = some (.name name :: steps) := by
  have hpath : IsPath (name ++ (steps.map Step.segment).flatMap Segment.text)
      (.name name :: steps.map Step.segment) :=
    .steps hname.wellFormed (by simpa using fun step hstep => (h step hstep).wellFormed)
  have htext : (steps.map Step.segment).flatMap Segment.text = steps.flatMap stepText := by
    rw [List.flatMap_map]
    exact List.flatMap_congr fun step _ => (stepText_eq step).symm
  have hsteps : (steps.map Step.segment).map Segment.step = steps := by
    rw [List.map_map]
    exact (List.map_congr_left fun step _ => step_segment step).trans (List.map_id steps)
  rw [htext] at hpath
  rw [tokenize_of_isPath hpath, List.map_cons, hsteps]
  rfl

end Bytewright.Cfgscript
