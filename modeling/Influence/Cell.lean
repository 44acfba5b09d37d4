/-! # Cell arithmetic

Tables hold cells of an arbitrary type.  The class `Cell` lists everything the library asks of
that type, and nothing in the library looks at a cell in any other way.

* **Floating point** (`Float`) is the type the program runs on.
* **Exact fractions** (`Rat`) carry the same tables without rounding.

No law is assumed.  The order in which cells are added and multiplied is therefore part of every
definition that adds or multiplies them. -/

namespace Influence

/-- The values of a floating-point type that are not numbers. -/
inductive NonFinite where
  | notANumber
  | positiveInfinity
  | negativeInfinity
deriving DecidableEq, Repr

/-- The text of a value that is not a number, as messages show it. -/
def NonFinite.text : NonFinite → String
  | notANumber => "NaN"
  | positiveInfinity => "inf"
  | negativeInfinity => "-inf"

/-- The arithmetic of table cells: constants, addition, multiplication, division, the conversion
of a count, equality, the strict order, and the test for values that are not numbers. -/
class Cell (α : Type) extends Zero α, One α, Add α, Mul α, Div α, NatCast α, BEq α where
  /-- The strict order of cells. -/
  less : α → α → Bool
  /-- Which of the values that are not numbers the cell is, if it is one. -/
  nonFinite? : α → Option NonFinite

/-- Classifies a floating-point value that is not a number. -/
def NonFinite.ofFloat? (x : Float) : Option NonFinite :=
  if x.isNaN then some notANumber
  else if x.isInf then some (if x < 0.0 then negativeInfinity else positiveInfinity)
  else none

instance : Cell Float where
  zero := 0.0
  one := 1.0
  natCast := Float.ofNat
  less x y := decide (x < y)
  nonFinite? := NonFinite.ofFloat?

instance : Cell Rat where
  zero := 0
  one := 1
  less x y := decide (x < y)
  nonFinite? _ := none

namespace Cell

variable {α : Type} [Cell α]

/-- The larger of two cells.  A cell that differs from itself loses against any other. -/
def larger (x y : α) : α :=
  if less x y then y else if x == x then x else y

/-- The largest of some cells, taken from left to right. -/
def largest? : List α → Option α
  | [] => none
  | x :: xs => some (xs.foldl larger x)

/-- The sum of some cells, added from left to right beginning with the first. -/
def total : List α → α
  | [] => 0
  | x :: xs => xs.foldl (· + ·) x

/-- The cell divided into one, and zero for a cell equal to zero. -/
def reciprocal (x : α) : α :=
  if x == 0 then 0 else 1 / x

/-- Some cells scaled to sum to one.  Cells that sum to zero stay as they are. -/
def normalize (xs : List α) : List α :=
  let whole := total xs
  if whole == 0 then xs else xs.map (· / whole)

@[simp] theorem total_nil : total ([] : List α) = 0 := rfl

@[simp] theorem total_cons (x : α) (xs : List α) : total (x :: xs) = xs.foldl (· + ·) x := rfl

@[simp] theorem length_normalize (xs : List α) : (normalize xs).length = xs.length := by
  simp only [normalize]
  split <;> simp

@[simp] theorem nonFinite?_rat (x : Rat) : nonFinite? x = none := rfl

@[simp] theorem less_rat (x y : Rat) : less x y = decide (x < y) := rfl

end Cell

end Influence
