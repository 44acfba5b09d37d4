import Influence.Factor

/-! # Elimination orders

The order in which variables are summed out changes the size of the tables on the way but not the
answer.  A `Heuristic` fixes the order before a pass begins.

* `minDegree` takes the variables by ascending degree, and those of equal degree by ascending
  identity.  The `degree` of a variable counts the variables of the factors that mention it.
* `declaration` takes the variables by ascending identity. -/

namespace Influence

/-- A way to order the variables of an elimination pass. -/
inductive Heuristic where
  | minDegree
  | declaration
deriving DecidableEq, Repr

namespace Heuristic

variable {α : Type}

/-- The name of a heuristic. -/
def text : Heuristic → String
  | minDegree => "min_degree"
  | declaration => "declaration"

/-- The heuristic with a given name. -/
def ofText? (name : String) : Option Heuristic := [minDegree, declaration].find? (·.text == name)

/-- The number of distinct variables over the factors that mention `v`. -/
def degree (factors : List (Factor α)) (v : Variable) : Nat :=
  (Axes.union [] ((factors.filter (·.mentions v)).flatMap (·.axes))).length

/-- Whether `v` may come before `w`, given the degree of each. -/
def precedes : Nat × Variable → Nat × Variable → Bool
  | (m, v), (n, w) => m < n || (m == n && v.id ≤ w.id)

/-- The variables in the order in which they are to be summed out. -/
def order (h : Heuristic) (hidden : List Variable) (factors : List (Factor α)) : List Variable :=
  let key := match h with
    | minDegree => degree factors
    | declaration => fun _ => 0
  (Sorting.sort precedes (hidden.map fun v => (key v, v))).map (·.2)

theorem ofText?_text (h : Heuristic) : ofText? h.text = some h := by
  cases h <;> decide

@[simp] theorem length_order (h : Heuristic) (hidden : List Variable) (factors : List (Factor α)) :
    (h.order hidden factors).length = hidden.length := by
  simp [order]

/-- An order takes every hidden variable, and each of them once. -/
theorem perm_order (h : Heuristic) (hidden : List Variable) (factors : List (Factor α)) :
    (h.order hidden factors).Perm hidden := by
  refine ((Sorting.perm_sort precedes _).map (·.2)).trans (.of_eq ?_)
  rw [List.map_map]
  exact List.map_id _

end Heuristic

end Influence
