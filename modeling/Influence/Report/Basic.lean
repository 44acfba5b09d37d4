import Influence.Network.Solve

/-! # Reports

A `Report` collects the answers of one run: distributions of query variables, an expected utility,
and the rules of the decisions.  `Request.run` puts the questions to a network, the one about
decisions first. -/

namespace Influence

/-- The answers of one run. -/
structure Report (α : Type) where
  distributions : List (String × List α) := []
  utility : Option (UtilityResult α) := none
  policies : List (Policy α) := []
deriving DecidableEq, Repr

/-- The questions of one run. -/
structure Request where
  /-- Observed outcomes by name. -/
  evidence : List (String × String) := []
  /-- The names of the query variables. -/
  query : List String := []
  /-- Whether the expected utility is asked for, and of which term. -/
  utility : Option (Option String) := none
  /-- Whether the rules of the decisions are asked for. -/
  policies : Bool := false
deriving DecidableEq, Repr

namespace Request

variable {α : Type} [Build] [Cell α]

/-- The rules of the decisions if they are asked for. -/
def runPolicies (q : Request) : NetworkM α (List (Policy α)) :=
  if q.policies then NetworkM.solvePolicies else return []

/-- The expected utility if it is asked for. -/
def runUtility (q : Request) : NetworkM α (Option (UtilityResult α)) :=
  match q.utility with
  | some term => some <$> NetworkM.solveUtility q.evidence q.query term
  | none => return none

/-- The distributions of the query variables, unless the query is about the utility. -/
def runQuery (q : Request) : NetworkM α (List (String × List α)) :=
  if q.utility.isSome || q.query.isEmpty then return []
  else NetworkM.solveQuery q.evidence q.query

/-- The answers to the questions. -/
def run (q : Request) : NetworkM α (Report α) := do
  let policies ← q.runPolicies
  let utility ← q.runUtility
  let distributions ← q.runQuery
  return { distributions, utility, policies }

end Request

end Influence
