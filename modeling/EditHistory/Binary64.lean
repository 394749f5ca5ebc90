/-
Finite binary64 floats, exactly.

A magnitude is a whole number of least units, `2 ^ -1074`: a mantissa shifted left.
Every operation is computed on whole numbers and rounded once, to the nearest
magnitude and, of two equally near, to the one with the even mantissa.  Nothing
here asks a machine to add or to multiply, so every value can be computed in a
proof as well.
-/

namespace EditHistory

/-- The magnitude of a finite binary64 float. -/
structure Magnitude where
  /-- Less than twice the leading bit, and no less than it unless the shift is zero. -/
  mantissa : Nat
  /-- At most 2045. -/
  shift : Nat
deriving DecidableEq, Repr

/-- The quotient rounded to the nearest whole number, a half to the even one. -/
def roundDiv (num den : Nat) : Nat :=
  let quotient := num / den
  let twice := 2 * (num % den)
  if twice < den then quotient
  else if twice = den then quotient + quotient % 2
  else quotient + 1

namespace Magnitude

/-- The leading bit of a mantissa, the fifty-third, which the bits of a float leave out. -/
def leadingBit : Nat := 1 <<< 52

/-- The magnitude in least units. -/
def units (x : Magnitude) : Nat := x.mantissa <<< x.shift

/-- How many least units make one. -/
def one : Nat := 1 <<< 1074

/-- The magnitude nearest to `num / den` least units, unless that is out of range. -/
def nearest? (num den : Nat) : Option Magnitude :=
  let shift := (num / den).log2 - 52
  let mantissa := roundDiv num (den <<< shift)
  let x : Magnitude :=
    if mantissa = 2 * leadingBit then { mantissa := leadingBit, shift := shift + 1 }
    else { mantissa, shift }
  if x.shift ≤ 2045 then some x else none

/-- The magnitude nearest to a whole number. -/
def ofNat? (n : Nat) : Option Magnitude := nearest? (n * one) 1

/-- The magnitude nearest to a power of ten. -/
def tenTo? (power : Nat) : Option Magnitude := ofNat? (Nat.pow 10 power)

/-- The product, rounded. -/
def mul? (x y : Magnitude) : Option Magnitude := nearest? (x.units * y.units) one

/-- The quotient, rounded. -/
def div? (x y : Magnitude) : Option Magnitude := nearest? (x.units * one) y.units

/-- The bits of the float with the given sign: the sign, eleven bits of exponent, the mantissa
without its leading bit. -/
def bits (negative : Bool) (x : Magnitude) : UInt64 :=
  let exponent := if x.mantissa < leadingBit then 0 else x.shift + 1
  let sign := if negative then 2048 else 0
  .ofNat ((sign + exponent) * leadingBit + x.mantissa % leadingBit)

/-- The sign and the magnitude of a finite float. -/
def ofBits (bits : UInt64) : Bool × Magnitude :=
  let word := bits.toNat
  let exponent := word / leadingBit % 2048
  let rest := word % leadingBit
  (2048 ≤ word / leadingBit,
    if exponent = 0 then { mantissa := rest, shift := 0 }
    else { mantissa := leadingBit + rest, shift := exponent - 1 })

/-! ### Shortest decimals

A decimal `digits * 10 ^ exponent` reads back as a magnitude if it is nearer to it
than to either neighbour, or half way and the mantissa is even.  Everything is
counted in quarters of a least unit, since below a power of two the half way point
lies a quarter of a step away.
-/

/-- The ends of the interval of numbers that round to the magnitude, in quarters of a least unit. -/
def halfways (x : Magnitude) : Nat × Nat :=
  let step := 1 <<< x.shift
  let below := if x.mantissa = leadingBit ∧ 0 < x.shift then step else 2 * step
  (4 * x.units - below, 4 * x.units + 2 * step)

/-- The point nearest to the magnitude on the grid of multiples of `10 ^ exponent`, counted in
steps of the grid, if it reads back; of two equally near the even one. -/
def onGrid? (x : Magnitude) (exponent : Int) : Option Nat :=
  let scale := Nat.pow 10 (-exponent).toNat
  let step := 4 * one * Nat.pow 10 exponent.toNat
  let value := 4 * x.units * scale
  let (low, high) := x.halfways
  let readsBack (point : Nat) : Bool :=
    let place := point * step
    if x.mantissa % 2 = 0 then low * scale ≤ place && place ≤ high * scale
    else low * scale < place && place < high * scale
  let nearest := roundDiv value step
  let floor := value / step
  let other := if nearest = floor then floor + 1 else floor
  if readsBack nearest then some nearest
  else if readsBack other then some other
  else none

/-- The exponents of the grids that matter, coarsest first. -/
def gridExponents : List Int := (List.range 640).map fun i => 309 - Int.ofNat i

/-- The digits and the exponent of the decimal with fewest digits that reads back, of those the
nearest. -/
def shortest (x : Magnitude) : Nat × Int :=
  (gridExponents.findSome? fun e => (x.onGrid? e).map (·, e)).getD (0, 0)

end Magnitude

end EditHistory
