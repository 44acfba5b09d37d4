import Influence.Elimination.Induction
import Influence.Proofs.Agree

/-! # Insertion into the pool

Every operation on a workspace adds factors to the pool by `StepM.insert`, which replaces a factor with
the same number without notice.  The operations are written once more here with the insertion as a
parameter, so that it can be said that this never happens: an insertion that is only right for factors
with new numbers (`StepM.InsertsNew`), say one that refuses all others (`StepM.insertsNew_refuse`), would
do as well. -/

namespace Influence

/-- An operation on the workspace of an elimination. -/
inductive Operation where
  | observe (evidence : List Observation)
  | dropUtilities (keep : Option Variable)
  | sumUtilities
  | eliminate (v : Variable)
  | eliminateHidden (evidence : List Observation) (query : List Variable) (single : Bool)
  | collapse
  | solve (evidence : List Observation) (query : List Variable) (target : Target)
  | solveDecisions

/-- What an operation returns. -/
inductive Operation.Result (α : Type) where
  | done
  | factor (f : Factor α)
  | resolved (rs : List (Resolved α))

namespace StepM

variable {α : Type}

/-- The insertion does what it should if the factor comes after all factors of the pool. -/
def InsertsNew (put : Factor α → StepM α Unit) : Prop :=
  ∀ (f : Factor α) (w : Workspace α), (∀ g ∈ w.pool, g.id < f.id) →
    runFrom (put f) w = runFrom (insert f) w

/-- Fails for a factor that does not come after all factors of the pool. -/
def refuse (e : Error) (f : Factor α) : StepM α Unit := do
  let w ← get
  if w.pool.any (f.id ≤ ·.id) then throw e
  insert f

theorem insertsNew_insert : InsertsNew (insert : Factor α → StepM α Unit) := fun _ _ _ => rfl

theorem insertsNew_refuse (e : Error) : InsertsNew (refuse e : Factor α → StepM α Unit) := by
  intro f w h
  have hany : ¬w.pool.any (f.id ≤ ·.id) := by simpa using h
  change runFrom (if w.pool.any (f.id ≤ ·.id) then throw e >>= fun _ => insert f else insert f) w = _
  rw [if_neg hany]

section

variable [Build] [Cell α] (put : Factor α → StepM α Unit)

/-! ### The operations with any insertion -/

def observeWith (evidence : List Observation) : StepM α Unit :=
  evidence.forM fun o => do
    let touched ← take (·.mentions o.subject)
    touched.forM fun f => do
      put (← onRegistry (f.restrict o.subject o.outcome))

def sumUtilitiesWith (s : Setting α) : StepM α Unit := do
  let w ← get
  let terms ← take w.mentionsUtility
  if !terms.isEmpty then
    let weighed ← terms.mapM (weigh s)
    let combined ← onRegistry (Factor.sum weighed)
    let w ← get
    put (← (w.utilitiesOf combined.axes).foldlM sumOutUtility combined)

def eliminateWith (v : Variable) : StepM α Unit := do
  let touched ← take (·.mentions v)
  modify (·.markEliminated v)
  if !touched.isEmpty then
    let joint ← onRegistry (Factor.product touched)
    put (← onRegistry (joint.sumOut v))

def eliminateHiddenWith (s : Setting α) (evidence : List Observation) (query : List Variable)
    (single : Bool) : StepM α Unit := do
  let w ← get
  (s.heuristic.order (w.hidden s evidence query single) w.pool).forM (eliminateWith put)

def collapseWith : StepM α (Factor α) := do
  let remaining ← take fun _ => true
  let result ← onRegistry (Factor.product remaining)
  put result
  return result

def prepareWith (s : Setting α) : Target → StepM α Unit
  | .probability => dropUtilities none
  | .totalUtility => sumUtilitiesWith put s
  | .utilityTerm v => dropUtilities (some v)

def solveWith (s : Setting α) (evidence : List Observation) (query : List Variable)
    (target : Target) : StepM α (Factor α) := do
  observeWith put evidence
  prepareWith put s target
  eliminateHiddenWith put s evidence query false
  collapseWith put

def decideHereWith (s : Setting α) (decision : Variable) : StepM α (Factor α × Factor α) := do
  eliminateHiddenWith put s [] [] true
  let combined ← match ← candidates s decision with
    | [f] => pure f
    | fs => onRegistry (Factor.product fs)
  let rule ← onRegistry (combined.rule decision)
  dropUnobserved s decision combined rule

def resolveWith (s : Setting α) (decision : Variable) : StepM α (Resolved α) := do
  let (combined, rule) ← inScratch (decideHereWith put s decision)
  put rule
  let _ ← onRegistry (Registry.relabelAsChance decision)
  return ⟨decision, combined, rule⟩

def solveDecisionsWith (s : Setting α) : StepM α (List (Resolved α)) := do
  if s.decisionOrder.isEmpty then return []
  sumUtilitiesWith put s
  let resolved ← s.decisionOrder.reverse.mapM (resolveWith put s)
  return resolved.reverse

end

end StepM

namespace Operation

variable {α : Type} [Build] [Cell α]

/-- What an operation does if factors are added to the pool in some way. -/
def runWith (put : Factor α → StepM α Unit) (s : Setting α) : Operation → StepM α (Result α)
  | observe evidence => do
    StepM.observeWith put evidence
    return .done
  | dropUtilities keep => do
    StepM.dropUtilities keep
    return .done
  | sumUtilities => do
    StepM.sumUtilitiesWith put s
    return .done
  | eliminate v => do
    StepM.eliminateWith put v
    return .done
  | eliminateHidden evidence query single => do
    StepM.eliminateHiddenWith put s evidence query single
    return .done
  | collapse => return .factor (← StepM.collapseWith put)
  | solve evidence query target => return .factor (← StepM.solveWith put s evidence query target)
  | solveDecisions => return .resolved (← StepM.solveDecisionsWith put s)

/-- What an operation does. -/
def run (s : Setting α) : Operation → StepM α (Result α)
  | observe evidence => do
    StepM.observe evidence
    return .done
  | dropUtilities keep => do
    StepM.dropUtilities keep
    return .done
  | sumUtilities => do
    StepM.sumUtilities s
    return .done
  | eliminate v => do
    StepM.eliminate v
    return .done
  | eliminateHidden evidence query single => do
    StepM.eliminateHidden s evidence query single
    return .done
  | collapse => return .factor (← StepM.collapse)
  | solve evidence query target => return .factor (← StepM.solve s evidence query target)
  | solveDecisions => return .resolved (← StepM.solveDecisions s)

end Operation

/-- The workspace after some operations, each of which may have succeeded or failed. -/
def Workspace.afterOperations {α : Type} [Build] [Cell α] (s : Setting α) (w : Workspace α)
    (cs : List Operation) : Workspace α :=
  cs.foldl (fun w c => (runFrom (c.run s) w).2) w

end Influence
