import Influence.Error

/-! # What decisions observe

`Dependencies` records for each decision the variables that are known when it is made.  Entries keep
the place of their first insertion, which breaks ties in `decisionOrder`.

`decisionOrder` lists the decisions so that each follows the decisions that it observes.  It works
on the decisions themselves: a decision can be placed when all the decisions among its parents have
been placed, and those that become placeable together are taken in the order of their entries. -/

namespace Influence

/-- The decisions with the variables observed before each of them. -/
structure Dependencies where
  entries : List (Variable × List Variable) := []
deriving DecidableEq, Repr

namespace Dependencies

/-- Records the parents of a decision, in place of an earlier record of that decision. -/
def insert (m : Dependencies) (decision : Variable) (parents : List Variable) : Dependencies :=
  if m.entries.any (·.1.id == decision.id) then
    ⟨m.entries.map fun (d, old) => (d, if d.id == decision.id then parents else old)⟩
  else ⟨m.entries ++ [(decision, parents)]⟩

/-- The variables observed before a decision. -/
def parents (m : Dependencies) (decision : Variable) : List Variable :=
  ((m.entries.find? (·.1.id == decision.id)).map (·.2)).getD []

/-- The decisions, in the order of their entries. -/
def decisions (m : Dependencies) : List Variable := m.entries.map (·.1)

/-- The number of decisions. -/
def size (m : Dependencies) : Nat := m.entries.length

/-- Whether there is no decision. -/
def isEmpty (m : Dependencies) : Bool := m.entries.isEmpty

/-- Whether every decision among some variables is in `placed`. -/
def allPlaced (m : Dependencies) (placed : List Variable) (parents : List Variable) : Bool :=
  parents.all fun p => !Axes.mentions m.decisions p || Axes.mentions placed p

/-- The decisions that can be placed at the beginning. -/
def initial (m : Dependencies) : List Variable :=
  (m.entries.filter fun (_, parents) => m.allPlaced [] parents).map (·.1)

/-- The decisions that observe `last` and for which it was the last one missing. -/
def released (m : Dependencies) (placed : List Variable) (last : Variable) : List Variable :=
  (m.entries.filter fun (_, parents) =>
    Axes.mentions parents last && m.allPlaced placed parents).map (·.1)

/-- Places up to `n` decisions of the queue `ready`, and those that they release, after the ones in
`placed`. -/
def place (m : Dependencies) : Nat → List Variable → List Variable → List Variable
  | n + 1, d :: ready, placed =>
    let placed := placed ++ [d]
    place m n (ready ++ m.released placed d) placed
  | _, _, placed => placed

/-- The decisions in an order in which each follows the decisions that it observes. -/
def decisionOrder (m : Dependencies) : Except Error (List Variable) :=
  let placed := m.place m.size m.initial []
  if placed.length = m.size then .ok placed else .error .cyclicGraph

@[simp] theorem decisions_empty : decisions {} = [] := rfl

@[simp] theorem parents_empty (d : Variable) : parents {} d = [] := rfl

@[simp] theorem length_decisions (m : Dependencies) : m.decisions.length = m.size := by
  simp [decisions, size]

theorem isEmpty_iff (m : Dependencies) : m.isEmpty ↔ m.decisions = [] := by
  simp [isEmpty, decisions]

end Dependencies

end Influence
