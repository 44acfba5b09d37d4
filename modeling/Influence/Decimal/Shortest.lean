import Influence.Decimal.Fixed

/-! # Shortest decimals

`shortest` finds the decimal with the fewest digits that reads back as a given value, and among
those the nearest to it.

* A decimal reads back as a value if it lies in the interval of numbers that round to it
  (`Interval`).  The ends belong to the interval if the mantissa is even.
* With `n` digits, the only candidates are the two neighbours of the value on the grid of decimals
  with `n` digits (`onGrid?`).  The first grid with a hit wins; 17 digits always suffice.

`Style` fixes what is left open: where positional notation ends, how an exponent is written, and
which of two equally near decimals is taken. -/

namespace Influence.Decimal

/-- A decimal `digits * 10 ^ exponent`. -/
structure Scientific where
  digits : Nat
  exponent : Int
deriving DecidableEq, Repr

/-- The positive numbers that round to a value, multiplied by a common scale. -/
structure Interval where
  lower : Nat
  value : Nat
  upper : Nat
  closed : Bool
deriving DecidableEq, Repr

namespace Interval

/-- The interval of the value `mantissa * 2 ^ exponent`, multiplied by four and by a power of two
that makes all its numbers whole.  Below a power of two the neighbour is only half as far. -/
def of (mantissa : Nat) (exponent : Int) : Interval :=
  let scale := (power 2 exponent).1
  let below := if mantissa = Nat.pow 2 52 ∧ exponent ≠ -1074 then 1 else 2
  ⟨(4 * mantissa - below) * scale, 4 * mantissa * scale, (4 * mantissa + 2) * scale,
    mantissa % 2 == 0⟩

/-- Whether the interval contains a number. -/
def contains (i : Interval) (x : Nat) : Bool :=
  if i.closed then i.lower ≤ x && x ≤ i.upper else i.lower < x && x < i.upper

/-- The interval with all its numbers multiplied by a factor. -/
def scaled (i : Interval) (factor : Nat) : Interval :=
  { i with lower := i.lower * factor, value := i.value * factor, upper := i.upper * factor }

end Interval

/-- Which of two equally near decimals is taken. -/
inductive Tie where
  | even
  | up
deriving DecidableEq, Repr

/-- The multiple of `step` in the interval that is nearest to its value, divided by `step`. -/
def onGrid? (tie : Tie) (i : Interval) (step : Nat) : Option Nat :=
  let below := i.value / step
  let above := if i.value % step = 0 then below else below + 1
  match i.contains (below * step), i.contains (above * step) with
  | false, false => none
  | true, false => some below
  | false, true => some above
  | true, true =>
    let toBelow := i.value - below * step
    let toAbove := above * step - i.value
    if toBelow < toAbove then some below
    else if toAbove < toBelow then some above
    else if tie = .even ∧ below % 2 = 0 then some below
    else some above

/-- The decimal with up to `n` zeros at the end of its digits moved to the exponent. -/
def Scientific.strip : Nat → Scientific → Scientific
  | 0, s => s
  | n + 1, s =>
    if s.digits ≠ 0 ∧ s.digits % 10 = 0 then strip n ⟨s.digits / 10, s.exponent + 1⟩ else s

/-- The place of the leading digit of `mantissa * 2 ^ exponent`: the largest `e` with
`10 ^ e ≤ mantissa * 2 ^ exponent`. -/
def leadingPlace (mantissa : Nat) (exponent : Int) : Int :=
  let (up, down) := power 2 exponent
  let whole := mantissa * up / down
  if 0 < whole then (toString whole).length - 1
  else
    let places := (down.log2 / 3) + 1
    (toString (mantissa * up * Nat.pow 10 places / down)).length - 1 - places

/-- Tries the grids with `n` digits and more, up to `fuel` of them. -/
def shortestFrom (tie : Tie) (mantissa : Nat) (exponent place : Int) : Nat → Nat → Scientific
  | 0, _ => ⟨0, 0⟩
  | fuel + 1, n =>
    let k := place - n + 1
    let (up, down) := power 10 k
    let step := up * 4 * (power 2 exponent).2
    match onGrid? tie ((Interval.of mantissa exponent).scaled down) step with
    | some digits => (Scientific.mk digits k).strip 17
    | none => shortestFrom tie mantissa exponent place fuel (n + 1)

/-- The shortest decimal of a positive value `mantissa * 2 ^ exponent`. -/
def shortest (tie : Tie) (mantissa : Nat) (exponent : Int) : Scientific :=
  shortestFrom tie mantissa exponent (leadingPlace mantissa exponent) 17 1

/-- How the shortest decimal of a value is written. -/
structure Style where
  /-- The least number of places before the point for positional notation.  Zeros between the point
  and the first digit count as negative places. -/
  first : Int
  /-- The greatest number of places before the point for positional notation. -/
  last : Int
  /-- Whether a positive exponent has a plus sign. -/
  plus : Bool
  /-- Which of two equally near decimals is taken. -/
  tie : Tie
  /-- The text of NaN. -/
  notANumber : String
  /-- The text of the infinite values. -/
  infinite : Bool → String

/-- A positive decimal in positional notation if the style allows it, or else with an exponent. -/
def Style.write (style : Style) (s : Scientific) : String :=
  let digits := toString s.digits
  let point : Int := digits.length + s.exponent
  if style.first ≤ point ∧ point ≤ style.last then
    if 0 ≤ s.exponent then digits.pushn '0' s.exponent.toNat ++ ".0"
    else if 0 < point then
      String.ofList (digits.toList.take point.toNat) ++ "."
        ++ String.ofList (digits.toList.drop point.toNat)
    else "0.".pushn '0' (-point).toNat ++ digits
  else
    let exponent := point - 1
    let mark := (if style.plus ∧ 0 ≤ exponent then "e+" else "e") ++ toString exponent
    match digits.toList with
    | d :: rest@(_ :: _) => String.ofList [d] ++ "." ++ String.ofList rest ++ mark
    | _ => digits ++ mark

/-- A value as its shortest decimal. -/
def Style.text (style : Style) (x : Float) : String :=
  match Binary.ofFloat x with
  | .notANumber => style.notANumber
  | .infinite negative => style.infinite negative
  | .finite negative mantissa exponent =>
    signText negative ++
      if mantissa = 0 then "0.0" else style.write (shortest style.tie mantissa exponent)

example : shortest .even 0x1999999999999a (-56) = ⟨1, -1⟩ := by decide +kernel

end Influence.Decimal
