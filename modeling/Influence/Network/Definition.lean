import Influence.Elimination.Heuristic

/-! # Definitions of networks

A `Definition` says in names what a network consists of: the declared variables, and for each of
them an entry with its parents and its table.  A `Config` holds the options under which the network
is compiled and solved.  Nothing in either has been checked. -/

namespace Influence

/-- A declared variable. -/
structure Declaration where
  name : String
  /-- The text that names the kind. -/
  kind : String
  /-- The outcome names, in the order of the tables.  They may be left out for a utility. -/
  outcomes : List String := []
deriving DecidableEq, Repr

/-- What is given for a variable: its parents, and its table unless it is a decision. -/
structure Entry (α : Type) where
  /-- The variable that the entry is for. -/
  target : String
  /-- The parents.  The first one varies slowest in the table. -/
  given : List String := []
  /-- The cells over the parents and the target, the target varying fastest. -/
  table : Option (List α) := none
deriving DecidableEq, Repr

/-- The definition of a network. -/
structure Definition (α : Type) where
  declarations : List Declaration
  entries : List (Entry α) := []
deriving DecidableEq, Repr

/-- The options for compiling and solving a network. -/
structure Config (α : Type) where
  /-- The order of elimination passes. -/
  heuristic : Heuristic := .minDegree
  /-- Whether each state of a chance table is scaled to sum to one. -/
  normalizeChance : Bool := true
  /-- Weights of utility terms by name.  A term that is not listed has weight one. -/
  weights : List (String × α) := []
deriving DecidableEq, Repr

/-- The first text that equals one of `seen` or an earlier one. -/
def firstRepeat? (seen : List String) : List String → Option String
  | [] => none
  | x :: xs => if seen.contains x then some x else firstRepeat? (seen ++ [x]) xs

namespace Config

variable {α : Type} [Cell α]

/-- Checks weights from left to right: each must be a number, and each name new. -/
def checkWeights (seen : List String) : List (String × α) → Except Error Unit
  | [] => .ok ()
  | (name, weight) :: rest =>
    match Cell.nonFinite? weight with
    | some value => .error (.nonFiniteWeight name value)
    | none =>
      if seen.contains name then .error (.repeatedWeight name)
      else checkWeights (seen ++ [name]) rest

/-- Checks the options. -/
def check (c : Config α) : Except Error Unit := checkWeights [] c.weights

end Config

namespace Definition

variable {α : Type}

/-- The definition with another table in the entry of one variable. -/
def withTable (d : Definition α) (name : String) (table : List α) : Definition α :=
  { d with entries := d.entries.map fun e =>
      if e.target == name then { e with table := some table } else e }

@[simp] theorem withTable_declarations (d : Definition α) (name : String) (table : List α) :
    (d.withTable name table).declarations = d.declarations := rfl

end Definition

@[simp] theorem firstRepeat?_nil (seen : List String) : firstRepeat? seen [] = none := rfl

end Influence
