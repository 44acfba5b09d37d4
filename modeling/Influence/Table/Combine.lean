import Influence.Cell
import Influence.Error
import Influence.Table.Basic

/-! # Combining tables

Every operation on tables fills an output table cell by cell.  Each output cell folds one cell of
every source, namely the cell at the output coordinates projected onto the axes of the source.

* A `Projection` holds the cells of a source with one stride for each output axis, zero where the
  source lacks the axis, and the distance by which all its reads are displaced.
* `cellAt` reads the sources directly at given coordinates.
* `fillRange` walks an `Odometer` over a range of output cells.  The odometer keeps one running
  offset for each source and only adds and subtracts strides.
* `combine` fills the whole output.
* A `Filling` is a table that is still to be filled.  `Filling.check` says whether there is room for
  its cells and whether all reads are inside the sources.

Offsets are kept as numbers here.  Their words are taken where a cell is read. -/

namespace Influence

/-- How the source cells of an output cell are folded. -/
inductive Fold where
  | product
  | sum
deriving DecidableEq, Repr

namespace Fold

variable {α : Type} [Cell α]

/-- The value at which a fold starts. -/
def start : Fold → α
  | product => 1
  | sum => 0

/-- One step of a fold. -/
def apply : Fold → α → α → α
  | product, acc, x => acc * x
  | sum, acc, x => acc + x

/-- The fold of some cells from left to right. -/
def fold (op : Fold) (xs : List α) : α := xs.foldl op.apply op.start

@[simp] theorem fold_nil (op : Fold) : op.fold ([] : List α) = op.start := rfl

end Fold

/-- A source table seen from the axes of an output table. -/
structure Projection (α : Type) where
  /-- The cells of the source. -/
  cells : Array α
  /-- The distance in the source for one step along each output axis. -/
  strides : List Nat
  /-- The distance added to every read. -/
  base : Nat
deriving DecidableEq, Repr

namespace Projection

variable {α : Type}

/-- A table seen from some axes, with the axes that are not among them held at outcome 0. -/
def ofTable (out : Axes) (t : Table α) : Projection α :=
  ⟨t.cells, out.map fun v => t.axes.strideOf v, 0⟩

/-- The projection whose reads are all displaced by a further distance. -/
def displaced (p : Projection α) (distance : Nat) : Projection α :=
  { p with base := p.base + distance }

/-- The cell at a given distance. -/
def read [Build] [Zero α] (p : Projection α) (offset : Nat) : α :=
  p.cells.getD (Build.word offset) 0

/-- Whether there is a cell at a given distance. -/
def covers [Build] (p : Projection α) (offset : Nat) : Bool := Build.word offset < p.cells.size

/-- The distance of the cell that belongs to some output coordinates. -/
def offset (p : Projection α) (coords : List Nat) : Nat := p.base + Layout.offset p.strides coords

@[simp] theorem ofTable_cells (out : Axes) (t : Table α) : (ofTable out t).cells = t.cells := rfl

@[simp] theorem ofTable_base (out : Axes) (t : Table α) : (ofTable out t).base = 0 := rfl

@[simp] theorem length_strides_ofTable (out : Axes) (t : Table α) :
    (ofTable out t).strides.length = out.length := by simp [ofTable]

end Projection

/-- The output cell at some coordinates, read directly from the sources. -/
def cellAt {α : Type} [Build] [Cell α] (op : Fold) (sources : List (Projection α))
    (coords : List Nat) : α :=
  op.fold (sources.map fun p => p.read (p.offset coords))

/-- One wheel of an odometer, which stands for one output axis. -/
structure Wheel where
  /-- The number of outcomes of the axis. -/
  arity : Nat
  /-- The distance for one step along the axis, for each source. -/
  strides : List Nat
deriving DecidableEq, Repr

/-- The coordinates of an output cell with the offset of each source there. -/
structure Odometer where
  coords : List Nat
  offsets : List Nat
deriving DecidableEq, Repr

namespace Odometer

/-- Turns the last wheel by one outcome.  A wheel that has passed its last outcome goes back to
outcome 0 and turns the wheel before it; the flag says that even the first wheel went back. -/
def turn : List Wheel → List Nat → List Nat → List Nat × List Nat × Bool
  | w :: ws, c :: cs, offsets =>
    match turn ws cs offsets with
    | (cs, offsets, false) => (c :: cs, offsets, false)
    | (cs, offsets, true) =>
      let moved := List.zipWith (· + ·) offsets w.strides
      if c + 1 < w.arity then ((c + 1) :: cs, moved, false)
      else (0 :: cs, List.zipWith (fun o s => o - s * w.arity) moved w.strides, true)
  | _, coords, offsets => (coords, offsets, true)

/-- The odometer at the next output cell. -/
def next (wheels : List Wheel) (o : Odometer) : Odometer :=
  let (coords, offsets, _) := turn wheels o.coords o.offsets
  ⟨coords, offsets⟩

/-- The odometer at given coordinates. -/
def standingAt {α : Type} (sources : List (Projection α)) (coords : List Nat) : Odometer :=
  ⟨coords, sources.map fun p => p.offset coords⟩

/-- The wheels for some output axes and sources. -/
def wheels {α : Type} (out : Axes) (sources : List (Projection α)) : List Wheel :=
  out.zipIdx.map fun (v, i) => ⟨v.arity, sources.map fun p => p.strides.getD i 0⟩

end Odometer

section

variable {α : Type} [Build]

/-- Whether the sources have all cells that the next `n` output cells are folded from. -/
def readsInside (sources : List (Projection α)) (wheels : List Wheel) : Nat → Odometer → Bool
  | 0, _ => true
  | n + 1, o =>
    (List.zipWith Projection.covers sources o.offsets).all id
      && readsInside sources wheels n (o.next wheels)

variable [Cell α]

/-- Appends `n` output cells to `filled`, beginning where the odometer stands. -/
def fillFrom (op : Fold) (sources : List (Projection α)) (wheels : List Wheel) :
    Nat → Odometer → Array α → Array α
  | 0, _, filled => filled
  | n + 1, o, filled =>
    let cell := op.fold (List.zipWith Projection.read sources o.offsets)
    fillFrom op sources wheels n (o.next wheels) (filled.push cell)

/-- The `n` output cells from index `start` on. -/
def fillRange (op : Fold) (out : Axes) (sources : List (Projection α)) (start n : Nat) : Array α :=
  fillFrom op sources (Odometer.wheels out sources) n
    (Odometer.standingAt sources (Layout.coords out.arities start)) (Array.emptyWithCapacity n)

/-- All output cells. -/
def combine (op : Fold) (out : Axes) (sources : List (Projection α)) : Array α :=
  fillRange op out sources 0 out.size

theorem size_fillFrom (op : Fold) (sources : List (Projection α)) (wheels : List Wheel) (n : Nat)
    (o : Odometer) (filled : Array α) :
    (fillFrom op sources wheels n o filled).size = filled.size + n := by
  induction n generalizing o filled with
  | zero => rfl
  | succ n ih => simp [fillFrom, ih]; omega

@[simp] theorem size_combine (op : Fold) (out : Axes) (sources : List (Projection α)) :
    (combine op out sources).size = out.size := by
  simp [combine, fillRange, size_fillFrom]

end

/-- A table that is still to be filled. -/
structure Filling (α : Type) where
  op : Fold
  axes : Axes
  sources : List (Projection α)
deriving DecidableEq, Repr

namespace Filling

variable {α : Type} [Build]

/-- The table that has been filled. -/
def table [Cell α] (p : Filling α) : Table α := ⟨p.axes, combine p.op p.axes p.sources⟩

/-- Fails if there is no room for the cells, or if the walk over them reads beyond a source. -/
def check (p : Filling α) : Except Error Unit :=
  if !Build.holds p.axes.size then .error .tableTooLarge
  else if Build.strict && !readsInside p.sources (Odometer.wheels p.axes p.sources) p.axes.size
      (.standingAt p.sources (Layout.coords p.axes.arities 0)) then .error .readOutside
  else .ok ()

@[simp] theorem axes_table [Cell α] (p : Filling α) : p.table.axes = p.axes := rfl

end Filling

end Influence
