import Influence.Error

/-! # Orders that respect precedence

`Precedence.order` lists the nodes `0, …, n-1` of a graph so that every node follows its parents.
`parents[i]` lists the parents of node `i`; a parent may be listed several times.

Each node waits for as many parents as its list has entries.  The nodes that wait for none stand in
a queue.  The first of them is placed, its entries are struck from the counters, and the nodes that
now wait for none join the queue in ascending order.  Nodes that are never placed lie on a cycle or
behind one. -/

namespace Influence.Precedence

/-- A state of the search. -/
structure Progress where
  /-- For each node the number of entries of its list that are still to be placed. -/
  pending : List Nat
  /-- The nodes that wait for no parent, in the order in which they will be placed. -/
  ready : List Nat
  /-- The nodes placed so far. -/
  placed : List Nat
deriving DecidableEq, Repr

/-- The nodes that wait for no parent at the beginning. -/
def start (parents : List (List Nat)) : Progress where
  pending := parents.map List.length
  ready := (parents.zipIdx.filter fun (list, _) => list.isEmpty).map (·.2)
  placed := []

/-- The counters after the entries of `node` have been struck. -/
def strike (parents : List (List Nat)) (node : Nat) (pending : List Nat) : List Nat :=
  List.zipWith (fun list count => count - list.count node) parents pending

/-- The children of `node` that wait for no parent, in ascending order. -/
def unlocked (parents : List (List Nat)) (node : Nat) (pending : List Nat) : List Nat :=
  ((parents.zip pending).zipIdx.filter fun ((list, count), _) =>
    count == 0 && list.contains node).map (·.2)

/-- Places the first node of the queue. -/
def advance (parents : List (List Nat)) (p : Progress) : Progress :=
  match p.ready with
  | [] => p
  | node :: rest =>
    let pending := strike parents node p.pending
    ⟨pending, rest ++ unlocked parents node pending, p.placed ++ [node]⟩

/-- The state after `n` steps. -/
def advanceBy (parents : List (List Nat)) : Nat → Progress → Progress
  | 0, p => p
  | n + 1, p => advanceBy parents n (advance parents p)

/-- The first entry that is not a node. -/
def outOfRange? (parents : List (List Nat)) : Option Nat :=
  parents.flatten.find? fun p => parents.length ≤ p

/-- The nodes in an order in which every node follows its parents. -/
def order (parents : List (List Nat)) : Except Error (List Nat) :=
  match outOfRange? parents with
  | some p => .error (.parentRange p parents.length)
  | none =>
    let placed := (advanceBy parents parents.length (start parents)).placed
    if placed.length = parents.length then .ok placed else .error .cyclicGraph

/-- Every node of `nodes` comes after all of its parents. -/
def Respects (parents : List (List Nat)) (nodes : List Nat) : Prop :=
  ∀ i p, p ∈ parents.getD i [] → i ∈ nodes → nodes.idxOf p < nodes.idxOf i

theorem advance_of_ready_nil {parents : List (List Nat)} {p : Progress} (h : p.ready = []) :
    advance parents p = p := by
  simp [advance, h]

@[simp] theorem advanceBy_zero (parents : List (List Nat)) (p : Progress) :
    advanceBy parents 0 p = p := rfl

@[simp] theorem advanceBy_succ (parents : List (List Nat)) (n : Nat) (p : Progress) :
    advanceBy parents (n + 1) p = advanceBy parents n (advance parents p) := rfl

end Influence.Precedence
