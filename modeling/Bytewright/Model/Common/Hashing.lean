/-! The integer mixer of `common/hashing.cpp`. -/

namespace Bytewright.Common

/-- The splitmix64 finalizer. -/
def mix64 (x : UInt64) : UInt64 :=
  let x := x + 0x9E3779B97F4A7C15
  let x := (x ^^^ (x >>> 30)) * 0xBF58476D1CE4E5B9
  let x := (x ^^^ (x >>> 27)) * 0x94D049BB133111EB
  x ^^^ (x >>> 31)

/-- Two hashes in one, which depends on their order. -/
def hashCombine (seed value : UInt64) : UInt64 :=
  seed ^^^ (mix64 value + 0x9E3779B97F4A7C15 + (seed <<< (6 : UInt64)) + (seed >>> (2 : UInt64)))

example : mix64 0 = 0xE220A8397B1DCDAF := by decide +kernel

end Bytewright.Common
