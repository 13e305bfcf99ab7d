import TenantScript.Number.Binary64

/-!
The decimal text of a floating-point number: the fewest digits that read back as the same number,
of those the nearest, and of two equally near the larger. The text is positional however large or
small the number is, and a whole number has no decimal point.
-/

namespace TenantScript.Binary64

/-- Which multiples of a power of ten lie in the range of reals that round to a number. The range
is given in quarter units: a unit is worth `unit` and the power of ten `grid`. -/
structure Rounding where
  /-- The number, in quarter units. -/
  centre : Nat
  /-- The distance to the lower end. -/
  below : Nat
  /-- The distance to the upper end. -/
  above : Nat
  /-- Whether the two ends round to the number. -/
  closed : Bool
  unit : Nat
  grid : Nat

namespace Rounding

/-- Whether the multiple `c` of the grid lies in the range. -/
def holds (r : Rounding) (c : Nat) : Bool :=
  let low := (r.centre - r.below) * r.unit
  let high := (r.centre + r.above) * r.unit
  let point := c * r.grid
  if r.closed then low ≤ point && point ≤ high else low < point && point < high

/-- The largest multiple that is not above the number. -/
def floor (r : Rounding) : Nat := r.centre * r.unit / r.grid

/-- Whether the multiple above the number is at least as near as the one below it. -/
def upIsNear (r : Rounding) : Bool :=
  (r.floor + 1) * r.grid - r.centre * r.unit ≤ r.centre * r.unit - r.floor * r.grid

/-- The multiple in the range that is nearest to the number, if there is one: it is one of the two
neighbours of the number. -/
def nearest? (r : Rounding) : Option Nat :=
  let down := r.floor
  let up := r.floor + 1
  match r.holds down, r.holds up with
  | true, true => some (if r.upIsNear then up else down)
  | true, false => some down
  | false, true => some up
  | false, false => none

end Rounding

/-- The range of reals that round to `x`, on the grid of multiples of `10 ^ k`. The lower end of a
power of two is nearer, because the numbers below it are closer together. -/
def rounding (x : Binary64) (k : Int) : Rounding where
  centre := 4 * x.significand
  below := if x.significand = 1 <<< 52 then 1 else 2
  above := 2
  closed := x.significand % 2 == 0
  unit := Nat.pow 10 (-k).toNat <<< (x.scale - 2).toNat
  grid := Nat.pow 10 k.toNat <<< (2 - x.scale).toNat

/-- The first grid of `10 ^ k`, `10 ^ (k - 1)`, … that has a point in the range of `x`, with the
point. -/
def firstHit (x : Binary64) : Nat → Int → Nat × Int
  | 0, k => ((x.rounding k).floor, k)
  | fuel + 1, k =>
    match (x.rounding k).nearest? with
    | some c => (c, k)
    | none => firstHit x fuel (k - 1)

/-- An exponent `k` with `10 ^ k` above `x`, by at most two powers of ten. -/
def decimalBound (x : Binary64) : Int :=
  (x.significand.log2 + x.scale + 1) * 30103 / 100000 + 1

/-- The shortest decimal that reads back as a finite `x` other than zero: digits and a power of
ten. Seventeen digits tell any two numbers apart, so the search ends within twenty grids. -/
def shortest (x : Binary64) : Nat × Int := firstHit x 20 x.decimalBound

/-- The text of `c * 10 ^ k`. -/
def positional (c : Nat) (k : Int) : String :=
  let digits := Nat.toDigits 10 c
  if 0 ≤ k then String.ofList (digits ++ List.replicate k.toNat '0')
  else
    let places := (-k).toNat
    let padded := List.replicate (places + 1 - digits.length) '0' ++ digits
    let whole := padded.length - places
    String.ofList (padded.take whole ++ '.' :: padded.drop whole)

/-- The text of a number. -/
def text (x : Binary64) : String :=
  if x.isNaN then "NaN"
  else
    let magnitude :=
      if !x.isFinite then "inf"
      else if x.isZero then "0"
      else positional x.shortest.1 x.shortest.2
    if x.isNegative then "-" ++ magnitude else magnitude

end TenantScript.Binary64
