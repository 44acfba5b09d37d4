import Influence.Decimal.Binary

/-! # Decimals as digits

`ofDigits` is the number that some digits stand for, and `nearestDigits?` finds the floating-point
value nearest to a decimal that is given by its digits before and after the point.

The digits that count reach from the first one that is not zero to the end of the whole part, or to
the last one after the point that is not zero.  Of these, `clip` keeps `maxDigits` and puts a single
one in place of all others.  No floating-point value, and no middle between two neighbours, has more
significant digits, so the others can only say whether a decimal lies above such a middle.  A whole
part with more digits is taken to lie above it, even if the others are zeros. -/

namespace Influence.Decimal

/-- The number that a list of decimal digits stands for. -/
def ofDigits (digits : List Nat) : Nat := digits.foldl (fun value d => value * 10 + d) 0

/-- The number of leading digits that are read exactly. -/
def maxDigits : Nat := 768

/-- The leading digits, and a one if there are more of them. -/
def clip (digits : List Nat) : List Nat :=
  if maxDigits < digits.length then digits.take maxDigits ++ [1] else digits

/-- The digits without the zeros at their end. -/
def dropLastZeros (digits : List Nat) : List Nat := (digits.reverse.dropWhile (· == 0)).reverse

/-- The value nearest to a decimal with the given digits before and after the point, a sign and an
exponent, unless it is beyond the largest value. -/
def nearestDigits? (negative : Bool) (whole fraction : List Nat) (exponent : Int) : Option Float :=
  let fraction := dropLastZeros fraction
  let digits := (whole ++ fraction).dropWhile (· == 0)
  let kept := clip digits
  let raised : Int := digits.length - kept.length
  nearest? negative (ofDigits kept) (exponent - fraction.length + raised)

/-- The middle between two values goes to the even one if its digits can be counted. -/
example : nearestDigits? false ([9, 0, 0, 7, 1, 9, 9, 2, 5, 4, 7, 4, 0, 9, 9, 3] ++
    List.replicate 752 0) [] (-752) = nearest? false 9007199254740992 0 := by decide +kernel
example : nearestDigits? false ([9, 0, 0, 7, 1, 9, 9, 2, 5, 4, 7, 4, 0, 9, 9, 3] ++
    List.replicate 753 0) [] (-753) = nearest? false 9007199254740994 0 := by decide +kernel

end Influence.Decimal
