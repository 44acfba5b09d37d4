import Influence.Decimal.Binary

/-! # Decimals read in floating-point arithmetic

`scaled?` reads a decimal in two steps.

* `takeDigits` collects the digits in a significand of at most 64 bits.  Digits before the point
  for which there is no room count as zeros, those after it are ignored.
* `scale?` rounds the significand to a floating-point value, and multiplies or divides it by a power
  of ten.

A significand below 2^53 and a power up to 10^22 are exact, so that only the last operation rounds
and the result is the value nearest to the decimal, as `nearest?` finds it.  Otherwise the two may
differ in their last bits. -/

namespace Influence.Decimal

/-- A significand with digits appended one by one, up to the first that takes it beyond 64 bits, and
how many digits are left. -/
def takeDigits (significand : Nat) : List Nat → Nat × Nat
  | [] => (significand, 0)
  | d :: rest =>
    let next := significand * 10 + d
    if next < Nat.pow 2 64 then takeDigits next rest else (significand, rest.length + 1)

/-- The greatest exponent of a power of ten that is a finite value. -/
def maxPower : Nat := 308

/-- The value nearest to a power of ten. -/
def tenTo (exponent : Nat) : Float := (nearest? false 1 exponent).getD (1.0 / 0.0)

/-- A value, zero or at least one and below 2^64, times a power of ten.  There is no result beyond
the largest value.  A power below the smallest value is divided by in two steps, and after two
steps of the greatest power nothing is left. -/
def scale? (x : Float) (exponent : Int) : Option Float :=
  if x == 0.0 then some x
  else if maxPower < exponent then none
  else if 0 ≤ exponent then
    let y := x * tenTo exponent.toNat
    if y.isFinite then some y else none
  else if -maxPower ≤ exponent then some (x / tenTo (-exponent).toNat)
  else if -2 * maxPower ≤ exponent then
    some (x / tenTo maxPower / tenTo (-exponent - maxPower).toNat)
  else some 0.0

/-- The value of a decimal with the given digits before and after the point, a sign and an exponent,
unless it is beyond the largest value. -/
def scaled? (negative : Bool) (whole fraction : List Nat) (exponent : Int) : Option Float :=
  let (significand, raised) := takeDigits 0 whole
  let (significand, ignored) := takeDigits significand fraction
  let places : Int := fraction.length - ignored
  let magnitude := scale? significand.toUInt64.toFloat (exponent + raised - places)
  magnitude.map fun x => if negative then -x else x

example : scaled? true [2] [5] 1 = nearest? true 25 0 := by decide +kernel
example : (nearest? false 659 271).map Float.toBits = some 0x78c85d0d168f12f4 := by decide +kernel
example : (scaled? false [6, 5, 9] [] 271).map Float.toBits = some 0x78c85d0d168f12f3 := by
  decide +kernel

end Influence.Decimal
