import Influence.Registry
import Influence.Table.Algebra

/-! # Factors

A `Factor` is a table with a creation number.  Factors are made by a registry (`Factor.make`), which
hands out the numbers in order, so a number never stands for two factors of one registry.

The operations on factors are those of `Table.Algebra` together with the checks that those leave
out.  Each of them makes the factors that it needs on the way through the same registry: `scale`
makes a factor for the weight, and `normalizeFor` and `rule` make one for the reordered table, also
when no rule is found in it. -/

namespace Influence

/-- A table with a creation number. -/
structure Factor (α : Type) where
  id : Nat
  table : Table α
deriving DecidableEq, Repr

namespace Factor

variable {α : Type}

/-- The axes of a factor. -/
def axes (f : Factor α) : Axes := f.table.axes

/-- The cells of a factor. -/
def cells (f : Factor α) : Array α := f.table.cells

/-- Whether a variable is an axis of a factor. -/
def mentions (f : Factor α) (v : Variable) : Bool := f.table.mentions v

/-- The factor with the next creation number. -/
def make (t : Table α) : StateM Registry (Factor α) := fun r =>
  (⟨r.nextFactor, t⟩, { r with nextFactor := r.nextFactor + 1 })

/-- Makes the factor of a table that is still to be filled. -/
def fill [Build] [Cell α] (p : Filling α) : RegistryM (Factor α) := do
  p.check
  make p.table

/-- Fails unless a list of so many cells can be allocated. -/
def requireRoom [Build] (cells : Nat) : RegistryM Unit :=
  if Build.holds cells then pure () else throw .tableTooLarge

/-- Makes a factor over given axes from given cells, or with zeros in all cells. -/
def create [Build] [Cell α] (axes : Axes) (cells : Option (Array α)) : RegistryM (Factor α) := do
  if let some v := Axes.firstRepeat? [] axes then throw (.repeatedAxis v)
  match cells with
  | none =>
    requireRoom axes.size
    make (.zeros axes)
  | some cells =>
    if cells.size ≠ axes.size then throw (.sizeMismatch axes.size cells.size)
    make ⟨axes, cells⟩

/-- Makes a factor over given axes with ones in all cells. -/
def ones [Build] [Cell α] (axes : Axes) : RegistryM (Factor α) := do
  requireRoom axes.size
  create axes (some (Table.ones axes).cells)

/-- Makes a factor without axes. -/
def scalar (x : α) : StateM Registry (Factor α) := make (.scalar x)

/-! ### Cells by their coordinates -/

/-- The first coordinate that is not an outcome of its axis. -/
def outOfRange? : Axes → List Nat → Option (Nat × Variable)
  | v :: axes, c :: cs => if v.arity ≤ c then some (c, v) else outOfRange? axes cs
  | _, _ => none

/-- The index of the cell at given coordinates. -/
def index [Build] (f : Factor α) (coords : List Nat) : Except Error Nat :=
  if coords.length ≠ f.axes.length then .error (.coordinateCount coords.length f.axes.length)
  else match outOfRange? f.axes coords with
    | some (c, v) => .error (.coordinateRange c v)
    | none => .ok (Build.word (Layout.offset f.axes.distances coords))

/-- The coordinates of the cell with a given index. -/
def outcomes (f : Factor α) (i : Nat) : Except Error (List Nat) :=
  if f.cells.size ≤ i then .error (.indexRange i f.cells.size)
  else .ok (Layout.coords f.axes.arities i)

/-- The cell at given coordinates. -/
def cellAt [Build] [Cell α] (f : Factor α) (coords : List Nat) : Except Error α := do
  let i ← f.index coords
  if Build.strict && f.cells.size ≤ i then throw .readOutside
  return f.table.read i

/-! ### Algebra -/

/-- Fails unless a variable is an axis of the factor. -/
def requireAxis (f : Factor α) (v : Variable) : RegistryM Unit :=
  if f.mentions v then pure () else throw (.notAnAxis v f.id)

section

variable [Build] [Cell α]

/-- Takes a factor at one outcome of a variable. -/
def restrict (f : Factor α) (v : Variable) (outcome : Nat) : RegistryM (Factor α) := do
  f.requireAxis v
  if v.arity ≤ outcome then throw (.observationRange outcome v)
  fill (f.table.restriction v outcome)

/-- Sums a factor over the outcomes of a variable. -/
def sumOut (f : Factor α) (v : Variable) : RegistryM (Factor α) := do
  f.requireAxis v
  fill (f.table.summation v)

/-- The fold of some factors.  The fold of a single factor is a copy of it. -/
def foldAll (op : Fold) (fs : List (Factor α)) : RegistryM (Factor α) :=
  match fs with
  | [f] => make f.table
  | fs => fill (Table.joining op (fs.map (·.table)))

/-- The product of some factors. -/
def product (fs : List (Factor α)) : RegistryM (Factor α) := foldAll .product fs

/-- The sum of some factors. -/
def sum (fs : List (Factor α)) : RegistryM (Factor α) := foldAll .sum fs

/-- The factor with every cell multiplied by a weight. -/
def scale (f : Factor α) (weight : α) : RegistryM (Factor α) := do
  let w ← scalar weight
  product [f, w]

/-- The distribution of one variable alone. -/
def marginal (f : Factor α) (v : Variable) : RegistryM (Factor α) := do
  f.requireAxis v
  requireRoom v.arity
  make (f.table.marginal v)

end

section

variable [Cell α]

/-- The factor scaled to sum to one. -/
def normalize (f : Factor α) : StateM Registry (Factor α) := make f.table.normalize

/-- The factor of the reciprocals. -/
def invert (f : Factor α) : StateM Registry (Factor α) := make f.table.invert

end

/-- Whether some axes list the axes of a factor, each once. -/
def isOrder (f : Factor α) (order : Axes) : Bool :=
  order.length == f.axes.length && order.all f.mentions && (Axes.firstRepeat? [] order).isNone

section

variable [Build] [Cell α]

/-- The factor with its axes in a given order. -/
def rearrange (f : Factor α) (order : Axes) : RegistryM (Factor α) := do
  if !f.isOrder order then throw (.notPermutation order.ids f.axes.ids)
  if order.ids == f.axes.ids then make f.table
  else fill (f.table.reordering order)

/-- The factor with the axis of a variable moved to the last place. -/
def moveLast (f : Factor α) (v : Variable) : RegistryM (Factor α) := do
  f.requireAxis v
  f.rearrange (f.axes.without v ++ [v])

/-- The distribution of a variable for each state of the other axes. -/
def normalizeFor (f : Factor α) (v : Variable) : RegistryM (Factor α) := do
  let _ ← f.moveLast v
  make (f.table.normalizeFor v)

/-- The best rule for a decision in each state of the other axes. -/
def rule (f : Factor α) (decision : Variable) : RegistryM (Factor α) := do
  let _ ← f.moveLast decision
  match f.table.rule decision with
  | .error state => throw (.noCandidate decision state)
  | .ok t => make t

end

@[simp] theorem axes_mk (id : Nat) (t : Table α) : (Factor.mk id t).axes = t.axes := rfl

@[simp] theorem cells_mk (id : Nat) (t : Table α) : (Factor.mk id t).cells = t.cells := rfl

@[simp] theorem mentions_mk (id : Nat) (t : Table α) (v : Variable) :
    (Factor.mk id t).mentions v = t.mentions v := rfl

@[simp] theorem make_run (t : Table α) (r : Registry) :
    (make t).run r = (⟨r.nextFactor, t⟩, { r with nextFactor := r.nextFactor + 1 }) := rfl

end Factor

end Influence
