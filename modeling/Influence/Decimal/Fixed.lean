import Influence.Decimal.Binary

/-! # Decimals with a fixed number of places

`fixed` writes a value with a given number of places after the point.  The exact value is rounded,
and a value halfway between two decimals goes to the one with an even last digit.  The sign is kept
even if all digits are zero. -/

namespace Influence.Decimal

/-- The digits of a number, filled up with zeros in front to a given length. -/
def padded (width n : Nat) : String :=
  let digits := toString n
  "".pushn '0' (width - digits.length) ++ digits

/-- The sign of a negative value. -/
def signText (negative : Bool) : String := if negative then "-" else ""

/-- A nonnegative fraction with the given number of places. -/
def fixedFraction (places num den : Nat) : String :=
  let scaled := roundEven (num * Nat.pow 10 places) den
  let whole := toString (scaled / Nat.pow 10 places)
  if places = 0 then whole else whole ++ "." ++ padded places (scaled % Nat.pow 10 places)

/-- A value with the given number of places. -/
def fixed (places : Nat) (x : Float) : String :=
  match Binary.ofFloat x with
  | .notANumber => "NaN"
  | .infinite negative => signText negative ++ "inf"
  | .finite negative mantissa exponent =>
    let (up, down) := power 2 exponent
    signText negative ++ fixedFraction places (mantissa * up) down

end Influence.Decimal
