import Bytewright.Model.Common.Status

/-! The strict UTF-8 helpers of `common/utf8.cpp`. -/

namespace Bytewright.Common.Utf8

def kMaxCodepoint : UInt32 := 0x10FFFF

/-- What the lead byte of a longer sequence says: its length, the first bits of the value, and the
least value that needs so many bytes. -/
def lead? (b0 : UInt8) : Option (Nat × UInt32 × UInt32) :=
  if b0 &&& 0xE0 = 0xC0 then some (2, (b0 &&& 0x1F).toUInt32, 0x80)
  else if b0 &&& 0xF0 = 0xE0 then some (3, (b0 &&& 0x0F).toUInt32, 0x800)
  else if b0 &&& 0xF8 = 0xF0 then some (4, (b0 &&& 0x07).toUInt32, 0x10000)
  else none

/-- The loop over the continuation bytes, which shifts their bits into `value`. -/
def continue? : Bytes → (value : UInt32) → Option UInt32
  | [], value => some value
  | b :: bs, value =>
    if b &&& 0xC0 ≠ 0x80 then none
    else continue? bs ((value <<< 6) ||| (b &&& 0x3F).toUInt32)

/-- The bytes consumed and the code point, or nothing where the source returns 0. -/
def decode : Bytes → Option (Nat × UInt32)
  | [] => none
  | b0 :: rest =>
    if b0 < 0x80 then some (1, b0.toUInt32)
    else match lead? b0 with
      | none => none
      | some (len, value, minValue) =>
        if rest.length + 1 < len then none
        else match continue? (rest.take (len - 1)) value with
          | none => none
          | some value =>
            if value < minValue then none
            else if value ≥ 0xD800 ∧ value ≤ 0xDFFF then none
            else if value > kMaxCodepoint then none
            else some (len, value)

/-- The loop that decodes a buffer from its start: whether it reaches the end, and what `step` has
made of the code points. Every round consumes a byte, so one round more than bytes is enough. -/
def decodeLoop {σ : Type} (step : σ → UInt32 → σ) : (fuel : Nat) → Bytes → σ → Outcome (Bool × σ)
  | 0, _, _ => throw .diverged
  | _ + 1, [], s => return (true, s)
  | fuel + 1, b :: bs, s =>
    match decode (b :: bs) with
    | none => return (false, s)
    | some (n, cp) => decodeLoop step fuel ((b :: bs).drop n) (step s cp)

def validate (data : Bytes) : Outcome Bool := do
  return (← decodeLoop (fun _ _ => ()) (data.length + 1) data ()).1

/-- Whether the buffer is valid, and `out` behind the call. -/
def countCodepoints (data : Bytes) (out : Nat) : Outcome (Bool × Nat) := do
  let (valid, nCp) ← decodeLoop (fun nCp _ => nCp + 1) (data.length + 1) data 0
  return if valid then (true, nCp) else (false, out)

/-- Append the encoding of `cp`, unless it is no scalar value. -/
def encode (cp : UInt32) (out : Bytes) : Bool × Bytes :=
  let low (shift : UInt32) : UInt8 := ((0x80 : UInt32) ||| ((cp >>> shift) &&& 0x3F)).toUInt8
  if (cp ≥ 0xD800 ∧ cp ≤ 0xDFFF) ∨ cp > kMaxCodepoint then (false, out)
  else if cp < 0x80 then (true, out ++ [cp.toUInt8])
  else if cp < 0x800 then (true, out ++ [((0xC0 : UInt32) ||| (cp >>> 6)).toUInt8, low 0])
  else if cp < 0x10000 then (true, out ++ [((0xE0 : UInt32) ||| (cp >>> 12)).toUInt8, low 6, low 0])
  else (true, out ++ [((0xF0 : UInt32) ||| (cp >>> 18)).toUInt8, low 12, low 6, low 0])

/-- Whether the string is valid, and `out` with the code points in front of the first error. -/
def toCodepoints (s : Bytes) (out : List UInt32) : Outcome (Bool × List UInt32) :=
  decodeLoop (fun out cp => out ++ [cp]) (s.length + 1) s out

-- a sign outside the basic plane
example : decode [0xF0, 0x9F, 0x98, 0x80] = some (4, 0x1F600) := by decide +kernel

end Bytewright.Common.Utf8
