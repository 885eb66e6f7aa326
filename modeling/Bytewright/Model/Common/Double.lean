import Bytewright.Library.Decimal
import Bytewright.Model.Common.Status

/-! `double`: an IEEE 754 binary64 number with round-to-nearest, ties-to-even arithmetic. -/

namespace Bytewright.Common

open Bytewright.Library

/-- A double, by its bit pattern. -/
structure Double where
  bits : UInt64 := 0
  deriving DecidableEq, Repr

/-- `a / b` to the nearest integer, a half to the even one. -/
def roundHalfEven (a b : Nat) : Nat :=
  let q := a / b
  let r := a % b
  if 2 * r < b then q else if 2 * r > b then q + 1 else q + q % 2

namespace Double

/-- The code of infinity: a larger one is a NaN, a smaller one finite. -/
def infCode : Nat := 0x7FF0000000000000

/-- One over the spacing of the subnormal doubles. -/
def unitsPerOne : Nat := 2 ^ 1074

def negative (x : Double) : Bool := x.bits >>> 63 ≠ 0

/-- The bits below the sign. They order the doubles by magnitude. -/
def code (x : Double) : Nat := (x.bits &&& 0x7FFFFFFFFFFFFFFF).toNat

def isNan (x : Double) : Bool := x.code > infCode
def isInf (x : Double) : Bool := x.code = infCode

def ofCode (negative : Bool) (code : Nat) : Double :=
  ⟨UInt64.ofNat code ||| (if negative then 0x8000000000000000 else 0)⟩

/-- The NaN that an invalid operation makes. -/
def nan : Double := ⟨0xFFF8000000000000⟩
def inf (negative : Bool) : Double := ofCode negative infCode

/-- The magnitude of a finite double, in units of `2 ^ -1074`. -/
def units (x : Double) : Nat :=
  let exponent := x.code / 2 ^ 52
  let fraction := x.code % 2 ^ 52
  if exponent = 0 then fraction else (2 ^ 52 + fraction) * 2 ^ (exponent - 1)

def signedUnits (x : Double) : Int := if x.negative then - (x.units : Int) else x.units

/-- The code of the double nearest to `num / den`; past the largest finite one it is infinity's. -/
def nearestCode (num den : Nat) : Nat :=
  let scaled := num * unitsPerOne
  let shift := Nat.log2 (scaled / den) - 52
  min infCode (shift * 2 ^ 52 + roundHalfEven scaled (den * 2 ^ shift))

def ofRatio (negative : Bool) (num den : Nat) : Double := ofCode negative (nearestCode num den)

def ofInt64 (i : Int64) : Double := ofRatio (i < 0) i.toInt.natAbs 1

def neg (x : Double) : Double := ⟨x.bits ^^^ 0x8000000000000000⟩

-- Of two NaNs, `addsd` and `mulsd` with exchanged operands return the second one.
def add (x y : Double) : Double :=
  if y.isNan then y
  else if x.isNan then x
  else if x.isInf then if y.isInf && x.negative != y.negative then nan else x
  else if y.isInf then y
  else
    let sum := x.signedUnits + y.signedUnits
    if sum = 0 then ofCode (x.negative && y.negative) 0
    else ofRatio (sum < 0) sum.natAbs unitsPerOne

def sub (x y : Double) : Double :=
  if x.isNan then x
  else if y.isNan then y
  else add x y.neg

def mul (x y : Double) : Double :=
  let negative := x.negative != y.negative
  if y.isNan then y
  else if x.isNan then x
  else if x.isInf || y.isInf then if x.code = 0 || y.code = 0 then nan else inf negative
  else ofRatio negative (x.units * y.units) (unitsPerOne * unitsPerOne)

def div (x y : Double) : Double :=
  let negative := x.negative != y.negative
  if x.isNan then x
  else if y.isNan then y
  else if x.isInf then if y.isInf then nan else inf negative
  else if y.isInf then ofCode negative 0
  else if y.code = 0 then if x.code = 0 then nan else inf negative
  else ofRatio negative x.units y.units

/-- The position of a double that is not a NaN among all of them; both zeros are at 0. -/
def rank (x : Double) : Int := if x.negative then - (x.code : Int) else x.code

def lt (x y : Double) : Bool := !x.isNan && !y.isNan && x.rank < y.rank
def eq (x y : Double) : Bool := !x.isNan && !y.isNan && x.rank = y.rank

/-- `std::to_string`: the fixed notation with six decimals. -/
def toBytes (x : Double) : Bytes :=
  let sign := if x.negative then ascii "-" else []
  if x.isNan then sign ++ ascii "nan"
  else if x.isInf then sign ++ ascii "inf"
  else
    let micros := roundHalfEven (x.units * 10 ^ 6) unitsPerOne
    let decimals := decimal (micros % 10 ^ 6)
    sign ++ decimal (micros / 10 ^ 6) ++ ascii "." ++
      (List.replicate (6 - decimals.length) (digitByte 0) ++ decimals)

/-- `std::stod` of the numeral `mantissa * 10 ^ exponent`. It is out of range if the nearest double
is infinite, or if the value is not exact and, rounded to 53 bits, still below the normal doubles. -/
def ofDecimal? (mantissa : Nat) (exponent : Int) : Option Double :=
  let num := mantissa * 10 ^ exponent.toNat
  let den := 10 ^ (-exponent).toNat
  let code := nearestCode num den
  if code = infCode then none
  else if roundHalfEven (2 * (num * unitsPerOne)) den < 2 ^ 53 ∧ num * unitsPerOne % den ≠ 0 then none
  else some (ofCode false code)

end Double

-- 0.1 + 0.2, and its text
example : (Double.add ⟨0x3FB999999999999A⟩ ⟨0x3FC999999999999A⟩).bits = 0x3FD3333333333334 := by
  decide +kernel
example : Double.toBytes ⟨0x3FD3333333333334⟩ = ascii "0.300000" := by decide +kernel

-- 2.2250738585072012e-308 is nearest to the least normal double, but still tiny at its own precision.
example : Double.ofDecimal? 22250738585072012 (-324) = none := by decide +kernel
example : Double.ofDecimal? 22250738585072014 (-324) = some ⟨0x0010000000000000⟩ := by decide +kernel

end Bytewright.Common
