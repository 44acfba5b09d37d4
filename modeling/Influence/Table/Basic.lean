import Influence.Build
import Influence.Layout
import Influence.Variable

/-! # Tables

A `Table` assigns a cell to every joint outcome of its axes.  The cells are stored in the row-major
layout of `Layout`, with the last axis fastest.

* `count` and `distances` are numbers; `size` and `strides` are the words in which a build keeps
  them.
* `WellFormed` says that the axes are distinct variables with at least one outcome each, and that
  there is one cell for each of their joint outcomes.  `Shaped` compares the cells with the size that
  a build computes, which is all that the program can check.
* `valueAt` reads a table as a function of an assignment of outcomes to variables. -/

namespace Influence

namespace Axes

/-- The number of joint outcomes of some axes. -/
def count (axes : Axes) : Nat := Layout.size axes.arities

/-- The distance between two neighbouring cells along each axis. -/
def distances (axes : Axes) : List Nat := Layout.strides axes.arities

/-- The distance between two neighbouring cells along the axis of a variable, and zero for a
variable that is not an axis. -/
def strideOf (v : Variable) : Axes → Nat
  | [] => 0
  | w :: axes => if w.id == v.id then count axes else strideOf v axes

section

variable [Build]

/-- The number of joint outcomes, as the build keeps it. -/
def size (axes : Axes) : Nat := Build.word axes.count

/-- The distances between neighbouring cells, as the build keeps them. -/
def strides (axes : Axes) : List Nat := axes.distances.map Build.word

end

end Axes

/-- An assignment of outcomes to variables. -/
abbrev Assignment := VariableId → Nat

/-- The outcomes that an assignment gives to some axes. -/
def Assignment.on (x : Assignment) (axes : Axes) : List Nat := axes.map fun v => x v.id

/-- A table of cells over an ordered list of axes. -/
structure Table (α : Type) where
  /-- The axes, the last one varying fastest. -/
  axes : Axes
  /-- One cell for each joint outcome of the axes. -/
  cells : Array α
deriving DecidableEq, Repr

namespace Table

variable {α : Type}

/-- The axes are distinct variables, there is one cell for each of their joint outcomes, and a list of
so many cells can be allocated. -/
structure WellFormed [Build] (t : Table α) : Prop where
  nodup : t.axes.ids.Nodup
  arity_pos : ∀ v ∈ t.axes, 0 < v.arity
  size_cells : t.cells.size = t.axes.count
  holds_cells : Build.holds t.cells.size

/-- The axes are distinct variables, and there are as many cells as the build counts joint outcomes. -/
structure Shaped [Build] (t : Table α) : Prop where
  nodup : t.axes.ids.Nodup
  arity_pos : ∀ v ∈ t.axes, 0 < v.arity
  size_cells : t.cells.size = t.axes.size

theorem WellFormed.shaped [Build] {t : Table α} (h : t.WellFormed) : t.Shaped :=
  ⟨h.nodup, h.arity_pos, h.size_cells.trans
    (Build.word_of_holds _ (h.size_cells ▸ h.holds_cells) _ (Nat.le_refl _)).symm⟩

/-- Whether a variable is an axis of a table. -/
def mentions (t : Table α) (v : Variable) : Bool := t.axes.mentions v

/-- The cell with a given index. -/
def read [Zero α] (t : Table α) (i : Nat) : α := t.cells.getD i 0

/-- The cell at the outcomes that an assignment gives to the axes. -/
def valueAt [Zero α] (t : Table α) (x : Assignment) : α :=
  t.read (Layout.offset t.axes.distances (x.on t.axes))

/-- The cells cut into rows of a given width.  The last row may be shorter. -/
def rows (width : Nat) (cells : Array α) : List (List α) :=
  (List.range ((cells.size + width - 1) / width)).map fun i =>
    (cells.extract (i * width) (i * width + width)).toList

end Table

namespace Axes

@[simp] theorem count_nil : count [] = 1 := rfl

@[simp] theorem count_cons (v : Variable) (axes : Axes) :
    count (v :: axes) = v.arity * count axes := rfl

@[simp] theorem length_distances (axes : Axes) : axes.distances.length = axes.length := by
  simp [distances, arities]

@[simp] theorem strideOf_nil (v : Variable) : strideOf v [] = 0 := rfl

end Axes

end Influence
