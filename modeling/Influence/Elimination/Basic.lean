import Influence.Elimination.Workspace

/-! # Variable elimination

A question is answered by shrinking the pool of a workspace step by step.

1. `observe` restricts every factor that mentions an observed variable.
2. Utility factors are dropped (`dropUtilities`), except perhaps those of one term, or they are
   summed into one weighted factor (`sumUtilities`).
3. `eliminateHidden` sums out the hidden variables: chance variables that are neither observed nor
   queried nor observed by a decision that is still open.
4. `collapse` multiplies what remains.

`solve` performs the four steps for a `Target`. -/

namespace Influence

/-- What a question asks for. -/
inductive Target where
  /-- The joint probability of the query variables and the evidence. -/
  | probability
  /-- The weighted sum of all terms of the utility, weighted by probability. -/
  | totalUtility
  /-- One term of the utility, weighted by probability. -/
  | utilityTerm (v : Variable)
deriving DecidableEq, Repr

namespace Workspace

variable {α : Type}

/-- The decisions that have not been resolved, in their order. -/
def undecided (s : Setting α) (w : Workspace α) : List Variable :=
  s.decisionOrder.filter fun d => w.registry.kindOf d == .decision

/-- The variables that open decisions observe: all open decisions, or only the last one. -/
def required (s : Setting α) (w : Workspace α) (single : Bool) : List Variable :=
  let undecided := w.undecided s
  let scope := if single then undecided.getLast?.toList else undecided
  scope.flatMap s.dependencies.parents

/-- The variables of the pool that may be summed out, in the order of their first mention. -/
def hidden (s : Setting α) (w : Workspace α) (evidence : List Observation) (query : List Variable)
    (single : Bool) : List Variable :=
  let required := w.required s single
  (Axes.union [] (w.pool.flatMap (·.axes))).filter fun v =>
    w.registry.kindOf v == .chance && !w.isEliminated v
      && !Axes.mentions (evidence.map (·.subject)) v && !Axes.mentions query v
      && !Axes.mentions required v

end Workspace

namespace StepM

variable {α : Type}

/-- Drops every factor that mentions a utility, except those that mention a given one. -/
def dropUtilities (keep : Option Variable) : StepM α Unit := do
  let w ← get
  let _ ← take fun f =>
    let utilities := w.utilitiesOf f.axes
    !utilities.isEmpty && !keep.any (Axes.mentions utilities)
  return ()

section

variable [Build] [Cell α]

/-- Restricts every factor that mentions an observed variable to the observed outcome. -/
def observe (evidence : List Observation) : StepM α Unit :=
  evidence.forM fun o => do
    let touched ← take (·.mentions o.subject)
    touched.forM fun f => do
      insert (← onRegistry (f.restrict o.subject o.outcome))

/-- The factor multiplied by the weights of its utilities.  A factor of weight one stays as it
is. -/
def weigh (s : Setting α) (f : Factor α) : StepM α (Factor α) :=
  let weight := s.weightOf f.axes
  if weight == 1 then pure f else onRegistry (f.scale weight)

/-- Sums a utility out of a factor and marks it as eliminated. -/
def sumOutUtility (f : Factor α) (v : Variable) : StepM α (Factor α) := do
  let f ← onRegistry (f.sumOut v)
  modify (·.markEliminated v)
  return f

/-- Replaces all factors that mention a utility by their weighted sum, without the utility axes. -/
def sumUtilities (s : Setting α) : StepM α Unit := do
  let w ← get
  let terms ← take w.mentionsUtility
  if !terms.isEmpty then
    let weighed ← terms.mapM (weigh s)
    let combined ← onRegistry (Factor.sum weighed)
    let w ← get
    insert (← (w.utilitiesOf combined.axes).foldlM sumOutUtility combined)

/-- Multiplies the factors that mention a variable and sums the variable out. -/
def eliminate (v : Variable) : StepM α Unit := do
  let touched ← take (·.mentions v)
  modify (·.markEliminated v)
  if !touched.isEmpty then
    let joint ← onRegistry (Factor.product touched)
    insert (← onRegistry (joint.sumOut v))

/-- Eliminates the hidden variables in the order of the heuristic. -/
def eliminateHidden (s : Setting α) (evidence : List Observation) (query : List Variable)
    (single : Bool) : StepM α Unit := do
  let w ← get
  (s.heuristic.order (w.hidden s evidence query single) w.pool).forM eliminate

/-- Replaces the pool by the product of its factors, and returns that product. -/
def collapse : StepM α (Factor α) := do
  let remaining ← take fun _ => true
  let result ← onRegistry (Factor.product remaining)
  insert result
  return result

/-- Handles the utilities as a target asks. -/
def prepare (s : Setting α) : Target → StepM α Unit
  | .probability => dropUtilities none
  | .totalUtility => sumUtilities s
  | .utilityTerm v => dropUtilities (some v)

/-- Answers a question. -/
def solve (s : Setting α) (evidence : List Observation) (query : List Variable) (target : Target) :
    StepM α (Factor α) := do
  observe evidence
  prepare s target
  eliminateHidden s evidence query false
  collapse

end

end StepM

end Influence
