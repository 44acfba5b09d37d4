/-! # Row-major layout

A table over axes with `arities` outcomes is stored as one list of cells in which the **last**
axis varies fastest.  This file converts between a cell's index in that list and its coordinates,
one outcome for each axis.

* `size` counts the cells, `strides` says how far apart two neighbours along an axis are.
* `offset` adds up coordinates times strides, which gives the index of a cell.
* `coords` finds the coordinates again by repeated division, from the last axis to the first.
* `InRange` says which coordinates are outcomes of their axes. -/

namespace Influence.Layout

/-- The number of cells, which is 1 for no axes. -/
def size : List Nat → Nat
  | [] => 1
  | a :: as => a * size as

/-- The distance between two neighbouring cells along each axis. -/
def strides : List Nat → List Nat
  | [] => []
  | _ :: as => size as :: strides as

/-- The distance of a cell from the first one. -/
def offset : List Nat → List Nat → Nat
  | s :: ss, c :: cs => c * s + offset ss cs
  | _, _ => 0

/-- The coordinates of an index, together with what is left of the index beyond the first axis. -/
def split : List Nat → Nat → List Nat × Nat
  | [], i => ([], i)
  | a :: as, i =>
    let (cs, rest) := split as i
    (rest % a :: cs, rest / a)

/-- The coordinates of the cell with a given index. -/
def coords (arities : List Nat) (i : Nat) : List Nat := (split arities i).1

/-- There is one coordinate for each axis, and it is an outcome of that axis. -/
inductive InRange : List Nat → List Nat → Prop
  | nil : InRange [] []
  | cons {a c : Nat} {as cs : List Nat} : c < a → InRange as cs → InRange (a :: as) (c :: cs)

@[simp] theorem size_nil : size [] = 1 := rfl

@[simp] theorem size_cons (a : Nat) (as : List Nat) : size (a :: as) = a * size as := rfl

@[simp] theorem size_append (as bs : List Nat) : size (as ++ bs) = size as * size bs := by
  induction as with
  | nil => simp
  | cons a as ih => simp [ih, Nat.mul_assoc]

theorem size_pos {as : List Nat} (h : ∀ a ∈ as, 0 < a) : 0 < size as := by
  induction as with
  | nil => simp
  | cons a as ih =>
    exact Nat.mul_pos (h a (by simp)) (ih fun b hb => h b (by simp [hb]))

@[simp] theorem length_strides (as : List Nat) : (strides as).length = as.length := by
  induction as with
  | nil => rfl
  | cons a as ih => simp [strides, ih]

@[simp] theorem coords_nil (i : Nat) : coords [] i = [] := rfl

@[simp] theorem length_coords (as : List Nat) (i : Nat) : (coords as i).length = as.length := by
  induction as with
  | nil => rfl
  | cons a as ih => simpa [coords, split] using ih

theorem split_snd (as : List Nat) (i : Nat) : (split as i).2 = i / size as := by
  induction as with
  | nil => simp [split]
  | cons a as ih => simp [split, ih, Nat.div_div_eq_div_mul, Nat.mul_comm]

theorem coords_cons (a : Nat) (as : List Nat) (i : Nat) :
    coords (a :: as) i = i / size as % a :: coords as i := by
  simp [coords, split, split_snd]

@[simp] theorem offset_nil (cs : List Nat) : offset [] cs = 0 := rfl

@[simp] theorem offset_cons (s c : Nat) (ss cs : List Nat) :
    offset (s :: ss) (c :: cs) = c * s + offset ss cs := rfl

end Influence.Layout
