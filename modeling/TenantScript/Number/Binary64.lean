/-!
Floating-point numbers of 64 bits, given by their bits: one sign bit, eleven exponent bits and
fifty-two fraction bits. A finite number is its significand times a power of two, and everything
here is computed on these two integers, without rounding on the way.
-/

namespace TenantScript

/-- A binary floating-point number of 64 bits. -/
structure Binary64 where
  bits : UInt64
  deriving DecidableEq

namespace Binary64

instance : Inhabited Binary64 := ⟨⟨0⟩⟩

/-- Whether the sign bit is set. -/
def isNegative (x : Binary64) : Bool := 1 <<< 63 ≤ x.bits.toNat

/-- The exponent bits as a number. -/
def biasedExponent (x : Binary64) : Nat := x.bits.toNat >>> 52 % 2048

/-- The fraction bits as a number. -/
def fraction (x : Binary64) : Nat := x.bits.toNat % 1 <<< 52

/-- Whether the number is neither infinite nor not a number. -/
def isFinite (x : Binary64) : Bool := x.biasedExponent != 2047

/-- Whether the bits stand for no number. -/
def isNaN (x : Binary64) : Bool := x.biasedExponent == 2047 && x.fraction != 0

/-- Whether the number is zero, of either sign. -/
def isZero (x : Binary64) : Bool := x.biasedExponent == 0 && x.fraction == 0

/-- The significand: the fraction, below a leading one unless the exponent bits are all zero. -/
def significand (x : Binary64) : Nat :=
  if x.biasedExponent = 0 then x.fraction else 1 <<< 52 + x.fraction

/-- The power of two by which the significand is multiplied. -/
def scale (x : Binary64) : Int := (max x.biasedExponent 1 : Nat) - 1075

/-- Equality of numbers: a number that is not one equals nothing, and the two zeros are equal. -/
def ieeeEq (x y : Binary64) : Bool :=
  !x.isNaN && !y.isNaN && (x == y || x.isZero && y.isZero)

/-- Equality of values: equal as numbers, or with the same bits. -/
def same (x y : Binary64) : Bool := x == y || x.ieeeEq y

/-- The whole part of the magnitude. -/
def wholeMagnitude (x : Binary64) : Nat :=
  if 0 ≤ x.scale then x.significand <<< x.scale.toNat
  else x.significand >>> (-x.scale).toNat

/-- A finite number cut to an integer, toward zero, and to the nearest 64-bit integer if it lies
beyond them. -/
def truncate (x : Binary64) : Int :=
  if x.isNegative then max (-(x.wholeMagnitude : Int)) Int64.minValue.toInt
  else min (x.wholeMagnitude : Int) Int64.maxValue.toInt

/-- `n` divided by `2 ^ s` and rounded to the nearest integer, of two equally near to the even
one. -/
def shiftRounded (n s : Nat) : Nat :=
  let low := n >>> s
  let rest := 2 * (n % 1 <<< s)
  if rest > 1 <<< s || rest == 1 <<< s && low % 2 == 1 then low + 1 else low

/-- The bits of the number nearest to `n`, without its sign. A significand that rounds up to a
power of two carries into the exponent bits, which is what it should do. -/
def magnitudeBits (n : Nat) : Nat :=
  if n = 0 then 0
  else
    let top := n.log2
    let significand := if top ≤ 52 then n <<< (52 - top) else shiftRounded n (top - 52)
    (top + 1022) <<< 52 + significand

/-- The number nearest to a 64-bit integer, of two equally near the one with the even
significand. -/
def ofInt (n : Int) : Binary64 :=
  ⟨UInt64.ofNat ((if n < 0 then 1 <<< 63 else 0) + magnitudeBits n.natAbs)⟩

end Binary64

end TenantScript
