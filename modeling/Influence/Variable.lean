import Influence.Text.Blank

/-! # Variables

A diagram has three kinds of nodes (`NodeKind`).  A `Variable` is the handle of one discrete
variable: its identity, its number of outcomes, and the kind it was declared with.

* **Identity.** Two handles stand for the same variable when their `id`s agree, whatever their
  other fields say.  Every search in the library therefore compares `id`s.
* **Axes.** A list of handles with distinct `id`s is the axis list of a table. -/

namespace Influence

/-- The role of a variable in a diagram. -/
inductive NodeKind where
  /-- A random variable with a conditional probability table. -/
  | chance
  /-- An action chosen after its parents have been observed. -/
  | decision
  /-- An additive term of the utility. -/
  | utility
deriving DecidableEq, Repr

namespace NodeKind

/-- The name of a kind. -/
def text : NodeKind → String
  | chance => "chance"
  | decision => "decision"
  | utility => "utility"

/-- The kind with a given name.  Blanks around the name and the case of its ASCII letters do not
matter. -/
def ofText? (name : String) : Option NodeKind :=
  let plain := (Text.trim name).toList.map Char.toLower
  [chance, decision, utility].find? fun kind => kind.text.toList == plain

end NodeKind

/-- Identities of variables. -/
abbrev VariableId := UInt32

/-- A handle of a discrete variable. -/
structure Variable where
  /-- Tells variables apart. -/
  id : VariableId
  /-- The number of outcomes. -/
  arity : Nat
  /-- The kind recorded on this handle when it was issued. -/
  kind : NodeKind
deriving DecidableEq, Repr

namespace Variable

/-- The name of a variable in messages. -/
def text (v : Variable) : String := s!"v{v.id.toNat}"

end Variable

/-- Ordered lists of variables that index a table. -/
abbrev Axes := List Variable

namespace Axes

/-- The identities of the axes, in order. -/
def ids (axes : Axes) : List VariableId := axes.map (·.id)

/-- The numbers of outcomes of the axes, in order. -/
def arities (axes : Axes) : List Nat := axes.map (·.arity)

/-- Whether a variable is among the axes. -/
def mentions (axes : Axes) (v : Variable) : Bool := axes.any (·.id == v.id)

/-- The position of a variable among the axes. -/
def position? (axes : Axes) (v : Variable) : Option Nat := axes.findIdx? (·.id == v.id)

/-- The axes other than a given variable, in their order. -/
def without (axes : Axes) (v : Variable) : Axes := axes.eraseP (·.id == v.id)

/-- The first axis that repeats the variable of an axis of `seen` or of an earlier one. -/
def firstRepeat? (seen : Axes) : Axes → Option Variable
  | [] => none
  | v :: axes => if mentions seen v then some v else firstRepeat? (seen ++ [v]) axes

/-- The distinct variables of some axes, added to those of `seen` in the order of their first
mention.  A variable keeps the handle with which it was first mentioned. -/
def union (seen : Axes) : Axes → Axes
  | [] => seen
  | v :: axes => union (if mentions seen v then seen else seen ++ [v]) axes

theorem mentions_iff {axes : Axes} {v : Variable} : mentions axes v ↔ v.id ∈ axes.ids := by
  simp [mentions, ids]

@[simp] theorem ids_nil : ids [] = [] := rfl

@[simp] theorem ids_cons (v : Variable) (axes : Axes) : ids (v :: axes) = v.id :: axes.ids := rfl

@[simp] theorem ids_append (a b : Axes) : ids (a ++ b) = a.ids ++ b.ids := by simp [ids]

@[simp] theorem arities_nil : arities [] = [] := rfl

@[simp] theorem arities_cons (v : Variable) (axes : Axes) :
    arities (v :: axes) = v.arity :: axes.arities := rfl

@[simp] theorem union_nil (seen : Axes) : union seen [] = seen := rfl

end Axes

end Influence
