/-! # Binary and decimal values

A finite floating-point value is a whole number times a power of two, `m * 2 ^ q`.  `Binary.ofFloat`
finds these two numbers, and `nearest?` goes the other way: it finds the bits of the value nearest
to a fraction.

`roundEven` is the rounding of both: a quotient goes to the nearer whole number, and a quotient
halfway between two of them goes to the even one. -/

namespace Influence.Decimal

/-- The whole number nearest to a quotient, the even one of two that are equally near. -/
def roundEven (num den : Nat) : Nat :=
  let rest := 2 * (num % den)
  if rest < den then num / den
  else if den < rest then num / den + 1
  else num / den + num / den % 2

/-- A floating-point value taken apart.  A finite one is `mantissa * 2 ^ exponent` with a sign. -/
inductive Binary where
  | notANumber
  | infinite (negative : Bool)
  | finite (negative : Bool) (mantissa : Nat) (exponent : Int)
deriving DecidableEq, Repr

namespace Binary

/-- Takes the bits of a value apart. -/
def ofBits (bits : Nat) : Binary :=
  let negative := Nat.pow 2 63 ≤ bits
  let exponent : Nat := bits / Nat.pow 2 52 % Nat.pow 2 11
  let fraction : Nat := bits % Nat.pow 2 52
  if exponent = 2047 then
    if fraction = 0 then infinite negative else notANumber
  else if exponent = 0 then finite negative fraction (-1074)
  else finite negative (fraction + Nat.pow 2 52) ((exponent : Int) - 1075)

/-- Takes a value apart. -/
def ofFloat (x : Float) : Binary := ofBits x.toBits.toNat

end Binary

/-- A power of a base with a whole exponent, as a numerator and a denominator. -/
def power (base : Nat) (exponent : Int) : Nat × Nat :=
  (base.pow exponent.toNat, base.pow (-exponent).toNat)

/-- The exponent of the floating-point values around a positive fraction. -/
def exponentOf (num den : Nat) : Int :=
  let guess : Int := num.log2 - den.log2 - 52
  let (up, down) := power 2 (guess + 52)
  max (if num * down < den * up then guess - 1 else guess) (-1074)

/-- The bits of the value nearest to a fraction, ties to the even mantissa.  There are none if the
fraction is beyond the largest value. -/
def nearestBits? (num den : Nat) : Option Nat :=
  if num = 0 then some 0
  else
    let exponent := exponentOf num den
    let (up, down) := power 2 exponent
    let bits := (exponent + 1074).toNat * Nat.pow 2 52 + roundEven (num * down) (den * up)
    if bits < 2047 * Nat.pow 2 52 then some bits else none

/-- The value nearest to `significand * 10 ^ exponent` with a sign, unless that is beyond the
largest value.  Magnitudes far outside the range of values are recognised by their exponents. -/
def nearest? (negative : Bool) (significand : Nat) (exponent : Int) : Option Float :=
  let sign := if negative then Nat.pow 2 63 else 0
  let magnitude : Int := exponent + significand.log2 / 3
  let bits :=
    if significand = 0 ∨ magnitude < -400 then some 0
    else if 400 < exponent then none
    else
      let (up, down) := power 10 exponent
      nearestBits? (significand * up) down
  bits.map fun b => Float.ofBits (UInt64.ofNat (sign + b))

example : nearestBits? 1 10 = some 0x3fb999999999999a := by decide +kernel
example : nearestBits? 9007199254740993 1 = some 0x4340000000000000 := by decide +kernel

end Influence.Decimal
