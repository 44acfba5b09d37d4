import Influence.Table.Combine

/-! # The algebra of tables

| Operation | Axes of the result |
|---|---|
| `restrict`, `sumOut` | the axes other than the given variable |
| `product`, `sum` | the union of the axes, in the order of their first mention |
| `marginal` | the given variable alone |
| `normalize`, `invert` | unchanged |
| `normalizeFor`, `rule` | the given variable moved to the last place |
| `rearrange` | the requested order |

Most of them fill a table: `restriction`, `summation`, `joining` and `reordering` say how.

The operations are total.  Where one of them needs an axis or an outcome that a table may lack, or
room for its cells, the caller checks for it (`Factor`). -/

namespace Influence.Table

variable {α : Type}

/-- The table without axes that holds one cell. -/
def scalar (x : α) : Table α := ⟨[], #[x]⟩

/-! ### How tables are filled -/

/-- The table without the axis of `v`, taken at one of the outcomes of `v`. -/
def restriction (t : Table α) (v : Variable) (outcome : Nat) : Filling α :=
  let axes := t.axes.without v
  ⟨.product, axes, [(Projection.ofTable axes t).displaced (outcome * t.axes.strideOf v)]⟩

/-- The table without the axis of `v`, summed over the outcomes of `v`. -/
def summation (t : Table α) (v : Variable) : Filling α :=
  let axes := t.axes.without v
  ⟨.sum, axes, (List.range v.arity).map fun outcome =>
    (Projection.ofTable axes t).displaced (outcome * t.axes.strideOf v)⟩

/-- The cells of some tables folded over the union of their axes. -/
def joining (op : Fold) (ts : List (Table α)) : Filling α :=
  let axes := Axes.union [] (ts.flatMap (·.axes))
  ⟨op, axes, ts.map (Projection.ofTable axes)⟩

/-- The table with its axes in another order. -/
def reordering (t : Table α) (order : Axes) : Filling α :=
  ⟨.product, order, [Projection.ofTable order t]⟩

@[simp] theorem axes_restriction (t : Table α) (v : Variable) (outcome : Nat) :
    (t.restriction v outcome).axes = t.axes.without v := rfl

@[simp] theorem axes_summation (t : Table α) (v : Variable) :
    (t.summation v).axes = t.axes.without v := rfl

@[simp] theorem axes_joining (op : Fold) (ts : List (Table α)) :
    (joining op ts).axes = Axes.union [] (ts.flatMap (·.axes)) := rfl

@[simp] theorem axes_reordering (t : Table α) (order : Axes) :
    (t.reordering order).axes = order := rfl

/-! ### The operations -/

section

variable [Build] [Cell α]

/-- The table without the axis of `v`, taken at one of the outcomes of `v`. -/
def restrict (t : Table α) (v : Variable) (outcome : Nat) : Table α :=
  (t.restriction v outcome).table

/-- The table without the axis of `v`, summed over the outcomes of `v`. -/
def sumOut (t : Table α) (v : Variable) : Table α := (t.summation v).table

/-- The cells of some tables folded over the union of their axes.  A single table stays as it
is. -/
def foldAll (op : Fold) : List (Table α) → Table α
  | [t] => t
  | ts => (joining op ts).table

/-- The product of some tables over the union of their axes. -/
def product (ts : List (Table α)) : Table α := foldAll .product ts

/-- The sum of some tables over the union of their axes. -/
def sum (ts : List (Table α)) : Table α := foldAll .sum ts

/-- The table over some axes in which every cell is one. -/
def ones (axes : Axes) : Table α := ⟨axes, Array.replicate axes.size 1⟩

/-- The table over some axes in which every cell is zero. -/
def zeros (axes : Axes) : Table α := ⟨axes, Array.replicate axes.size 0⟩

/-- The table with every cell multiplied by a weight. -/
def scale (t : Table α) (weight : α) : Table α := product [t, scalar weight]

/-- For each outcome of `v` the sum of the cells with that outcome, in the order of the cells. -/
def marginal (t : Table α) (v : Variable) : Table α :=
  let stride := Build.word (t.axes.strideOf v)
  let cells := t.cells.toList.zipIdx
  ⟨[v], ((List.range v.arity).map fun outcome =>
    Fold.sum.fold ((cells.filter fun (_, i) => i / stride % v.arity == outcome).map (·.1))).toArray⟩

end

section

variable [Cell α]

/-- The sum of all cells. -/
def total (t : Table α) : α := Cell.total t.cells.toList

/-- The table scaled to sum to one.  A table whose cells sum to zero stays as it is. -/
def normalize (t : Table α) : Table α := ⟨t.axes, (Cell.normalize t.cells.toList).toArray⟩

/-- The table of the reciprocals, with zero in place of the reciprocal of zero. -/
def invert (t : Table α) : Table α := ⟨t.axes, t.cells.map Cell.reciprocal⟩

/-- The best choice among some cells: those equal to the largest one share the mass equally and
the others get nothing.  There is none if no cell equals the largest one. -/
def bestShares? (cells : List α) : Option (List α) :=
  (Cell.largest? cells).bind fun best =>
    let ties := cells.countP (· == best)
    if ties = 0 then none
    else some (cells.map fun x => if x == best then 1 / (ties : α) else 0)

/-- The best choices row by row, or the number of the first row without one. -/
def bestRows (state : Nat) : List (List α) → Except Nat (List α)
  | [] => .ok []
  | row :: rows =>
    match bestShares? row with
    | none => .error state
    | some shares => (bestRows (state + 1) rows).map (shares ++ ·)

/-- Whether two tables have equal cells. -/
def sameCells (s t : Table α) : Bool := s.cells.toList == t.cells.toList

@[simp] theorem axes_normalize (t : Table α) : t.normalize.axes = t.axes := rfl

@[simp] theorem axes_invert (t : Table α) : t.invert.axes = t.axes := rfl

end

section

variable [Build] [Cell α]

/-- The table with its axes in another order.  An order that lists the axes as they are leaves
the table as it is. -/
def rearrange (t : Table α) (order : Axes) : Table α :=
  if order.ids == t.axes.ids then t
  else (t.reordering order).table

/-- The table with the axis of `v` moved to the last place. -/
def moveLast (t : Table α) (v : Variable) : Table α := t.rearrange (t.axes.without v ++ [v])

/-- The distribution of `v` for each state of the other axes.  States whose cells sum to zero
stay as they are. -/
def normalizeFor (t : Table α) (v : Variable) : Table α :=
  let moved := t.moveLast v
  ⟨moved.axes, ((rows v.arity moved.cells).flatMap Cell.normalize).toArray⟩

/-- The best rule for a decision in each state of the other axes, or the first state without
one.  The decision becomes the last axis. -/
def rule (t : Table α) (decision : Variable) : Except Nat (Table α) :=
  let moved := t.moveLast decision
  (bestRows 0 (rows decision.arity moved.cells)).map fun cells => ⟨moved.axes, cells.toArray⟩

@[simp] theorem axes_restrict (t : Table α) (v : Variable) (outcome : Nat) :
    (t.restrict v outcome).axes = t.axes.without v := rfl

@[simp] theorem axes_sumOut (t : Table α) (v : Variable) :
    (t.sumOut v).axes = t.axes.without v := rfl

@[simp] theorem foldAll_singleton (op : Fold) (t : Table α) : foldAll op [t] = t := rfl

@[simp] theorem axes_marginal (t : Table α) (v : Variable) : (t.marginal v).axes = [v] := rfl

@[simp] theorem axes_ones (axes : Axes) : (ones axes : Table α).axes = axes := rfl

end

end Influence.Table
