import Influence.Elimination.Basic

/-! # Backward induction

The decisions of a diagram are resolved from the last to the first.  The utilities are summed once.
Then each decision gets its rule as follows.

1. In a copy of the pool everything that the decision does not need is summed out, and the factors
   relevant to it are multiplied (`candidates`).
2. The best rule of that product is taken.  Axes that the decision does not observe, and along which
   the rule is constant, are dropped from both tables (`dropUnobserved`).
3. The rule joins the real pool and the decision becomes a chance variable, so that earlier
   decisions see its action as known.

The real pool is never reduced, so the parents of the decisions still open survive until their own
turn. -/

namespace Influence

/-- A decision with its rule. -/
structure Resolved (α : Type) where
  decision : Variable
  /-- The table from which the rule was taken. -/
  combined : Factor α
  /-- The best rule, with the decision as the last axis. -/
  rule : Factor α
deriving DecidableEq, Repr

namespace StepM

variable {α : Type}

/-- Whether a factor bears on a decision.  Without parents every factor that mentions the decision
does; with parents it has to mention one of them too, or nothing but the decision. -/
def isRelevant (decision : Variable) (parents : List Variable) (f : Factor α) : Bool :=
  f.mentions decision
    && (parents.isEmpty || f.axes.length == 1 || f.axes.any (Axes.mentions parents))

/-- Removes the factors that bear on a decision from the pool and returns them. -/
def candidates (s : Setting α) (decision : Variable) : StepM α (List (Factor α)) := do
  let found ← take (isRelevant decision (s.dependencies.parents decision))
  if found.isEmpty then throw (.noRelevantFactor decision)
  return found

section

variable [Build] [Cell α]

/-- Whether the rule takes the cells of `first` at the outcomes `outcome, outcome + 1, …` of an
axis, of which there are `n`.  The search ends at the first outcome where it does not. -/
def isConstantFrom (rule : Factor α) (axis : Variable) (first : Factor α) :
    Nat → Nat → StepM α Bool
  | 0, _ => return true
  | n + 1, outcome => do
    let other ← onRegistry (rule.restrict axis outcome)
    if other.table.sameCells first.table then isConstantFrom rule axis first n (outcome + 1)
    else return false

/-- Drops an axis along which the rule is constant, at its first outcome. -/
def dropAxis (tables : Factor α × Factor α) (axis : Variable) : StepM α (Factor α × Factor α) := do
  let (combined, rule) := tables
  let first ← onRegistry (rule.restrict axis 0)
  if ← isConstantFrom rule axis first (axis.arity - 1) 1 then
    return (← onRegistry (combined.restrict axis 0), first)
  else return (combined, rule)

/-- Drops the axes that a decision does not observe and along which its rule is constant. -/
def dropUnobserved (s : Setting α) (decision : Variable) (combined rule : Factor α) :
    StepM α (Factor α × Factor α) :=
  let known := decision :: s.dependencies.parents decision
  (rule.axes.filter fun v => !Axes.mentions known v).foldlM dropAxis (combined, rule)

/-- Reduces the pool to one decision and takes the rule of what remains. -/
def decideHere (s : Setting α) (decision : Variable) : StepM α (Factor α × Factor α) := do
  eliminateHidden s [] [] true
  let combined ← match ← candidates s decision with
    | [f] => pure f
    | fs => onRegistry (Factor.product fs)
  let rule ← onRegistry (combined.rule decision)
  dropUnobserved s decision combined rule

/-- Resolves one decision. -/
def resolve (s : Setting α) (decision : Variable) : StepM α (Resolved α) := do
  let (combined, rule) ← inScratch (decideHere s decision)
  insert rule
  let _ ← onRegistry (Registry.relabelAsChance decision)
  return ⟨decision, combined, rule⟩

/-- Resolves every decision, the last one first, and returns them in their order. -/
def solveDecisions (s : Setting α) : StepM α (List (Resolved α)) := do
  if s.decisionOrder.isEmpty then return []
  sumUtilities s
  let resolved ← s.decisionOrder.reverse.mapM (resolve s)
  return resolved.reverse

end

end StepM

end Influence
