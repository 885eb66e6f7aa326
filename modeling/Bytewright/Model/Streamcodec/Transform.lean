import Bytewright.Model.Common.Status

/-! The run-length transform. -/

namespace Bytewright.Streamcodec

open Bytewright.Common

inductive RleStatus where
  | kOk
  | kMalformed
  | kCapExceeded
  deriving DecidableEq, Repr

def kRleMaxTokenLen : Nat := 128

/-- The loop of `run_length`. -/
def runLengthLoop (input : Bytes) (i : Nat) (v : UInt8) : (fuel : Nat) → (n : Nat) → Outcome Nat
  | 0, _ => throw .diverged
  | fuel + 1, n =>
    if input[i + n]? = some v ∧ n < kRleMaxTokenLen then runLengthLoop input i v fuel (n + 1)
    else return n

/-- The length of the run of equal bytes at `i`, cut off at the longest token. -/
def runLength (input : Bytes) (i : Nat) : Outcome Nat := do
  let some v := input[i]? | throw .undefined
  runLengthLoop input i v (kRleMaxTokenLen + 1) 1

/-- A literal token for the `len` bytes from `start` on. -/
def emitLiteral (out input : Bytes) (start len : Nat) : Outcome Bytes :=
  -- in[start + k] is read for every k < len
  if start + len ≤ input.length then
    return out ++ UInt8.ofNat (len - 1) :: (input.drop start).take len
  else throw .undefined

/-- A run token: `count` copies of `value`. -/
def emitRun (out : Bytes) (value : UInt8) (count : Nat) : Bytes :=
  out ++ [0x80 ||| UInt8.ofNat (count - 1), value]

/-- The variables of `rle_compress`. -/
structure Compressor where
  i : Nat := 0
  litStart : Nat := 0
  litLen : Nat := 0
  out : Bytes := []

namespace Compressor

/-- The loop of `flush_literal`. -/
def flushLoop (input : Bytes) : (fuel : Nat) → Compressor → Outcome Compressor
  | 0, _ => throw .diverged
  | fuel + 1, c =>
    if c.litLen > 0 then do
      let take := if c.litLen < kRleMaxTokenLen then c.litLen else kRleMaxTokenLen
      let out ← emitLiteral c.out input c.litStart take
      flushLoop input fuel { c with out, litStart := c.litStart + take, litLen := c.litLen - take }
    else return c

def flushLiteral (c : Compressor) (input : Bytes) : Outcome Compressor :=
  c.flushLoop input (c.litLen + 1)

/-- One round of the loop of `rle_compress`. -/
def round (c : Compressor) (input : Bytes) : Outcome Compressor := do
  let run ← runLength input c.i
  if run ≥ 2 then
    let c ← c.flushLiteral input
    let some value := input[c.i]? | throw .undefined
    return { i := c.i + run, litStart := c.i + run, litLen := 0, out := emitRun c.out value run }
  else
    let c ←
      if c.litLen = kRleMaxTokenLen then
        (fun c => { c with litStart := c.i }) <$> c.flushLiteral input
      else pure c
    return { c with litLen := c.litLen + 1, i := c.i + 1 }

/-- The loop of `rle_compress`. -/
def loop (input : Bytes) : (fuel : Nat) → Compressor → Outcome Compressor
  | 0, _ => throw .diverged
  | fuel + 1, c =>
    if c.i < input.length then do
      let c ← c.round input
      loop input fuel c
    else return c

end Compressor

def rleCompress (input : Bytes) : Outcome Bytes := do
  let c ← Compressor.loop input (input.length + 1) {}
  let c ← c.flushLiteral input
  return c.out

/-- The loop of `rle_decompress`. -/
def decompressLoop (data : Bytes) (maxOutput : Nat) :
    (fuel : Nat) → (pos : Nat) → (out : Bytes) → Outcome (RleStatus × Bytes)
  | 0, _, _ => throw .diverged
  | fuel + 1, pos, out =>
    if pos < data.length then do
      let some control := data[pos]? | throw .undefined
      let pos := pos + 1
      let count := (control &&& 0x7F).toNat + 1
      if control &&& 0x80 ≠ 0 then
        if pos ≥ data.length then
          return (.kMalformed, out)
        if out.length + count > maxOutput then
          return (.kCapExceeded, out)
        let some value := data[pos]? | throw .undefined
        decompressLoop data maxOutput fuel (pos + 1) (out ++ List.replicate count value)
      else
        if pos + count > data.length then
          return (.kMalformed, out)
        if out.length + count > maxOutput then
          return (.kCapExceeded, out)
        let bytes := (data.drop pos).take count
        if bytes.length ≠ count then
          throw .undefined
        decompressLoop data maxOutput fuel (pos + count) (out ++ bytes)
    else return (.kOk, out)

/-- Decode `data` onto `out`, of which at most `maxOutput` bytes may come to be. -/
def rleDecompress (data : Bytes) (maxOutput : Nat) (out : Bytes) : Outcome (RleStatus × Bytes) :=
  decompressLoop data maxOutput (data.length + 1) 0 out

end Bytewright.Streamcodec
