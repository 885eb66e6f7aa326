import Bytewright.Library.Mixing
import Bytewright.Model.Common.Hashing

/-! # Hash mixing -/

namespace Bytewright.Common

open Bytewright.Library

/-- The mixer as its steps, one after the other. -/
theorem mix64_steps (x : UInt64) :
    (mix64 x).toBitVec =
      xorShift 31 (xorShift 27 (xorShift 30 (x.toBitVec + 0x9E3779B97F4A7C15#64) *
        0xBF58476D1CE4E5B9#64) * 0x94D049BB133111EB#64) := rfl

theorem mix64_inj {x y : UInt64} (h : mix64 x = mix64 y) : x = y := by
  have hsteps := congrArg UInt64.toBitVec h
  rw [mix64_steps, mix64_steps] at hsteps
  have hsecond := mul_odd_injective (by decide) (xorShift_injective (by decide) hsteps)
  have hfirst := mul_odd_injective (by decide) (xorShift_injective (by decide) hsecond)
  have hsum := xorShift_injective (by decide) hfirst
  exact UInt64.toBitVec_inj.mp (add_injective _ hsum)

/-- The seed only moves and masks the mixed value. -/
theorem hashCombine_inj {seed x y : UInt64} (h : hashCombine seed x = hashCombine seed y) :
    x = y := by
  rw [hashCombine, hashCombine, UInt64.xor_right_inj, UInt64.add_left_inj, UInt64.add_left_inj,
    UInt64.add_left_inj] at h
  exact mix64_inj h

/-- Hash mixing loses nothing of a word, whatever it is combined with. -/
theorem hashing_injective :
    Function.Injective mix64 ∧ ∀ seed : UInt64, Function.Injective (hashCombine seed) :=
  ⟨fun _ _ h => mix64_inj h, fun _ _ _ h => hashCombine_inj h⟩

end Bytewright.Common
