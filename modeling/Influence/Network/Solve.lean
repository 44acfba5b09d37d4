import Influence.Elimination.Induction
import Influence.Network.Compile

/-! # Questions to a network

Every question is answered by an elimination run on a copy of the network's registry and its
factors, so no question sees what another one eliminated or relabelled.  Only the creation numbers
carry over, and only if the run succeeds (`solving`).

Decisions are resolved on demand: the first question to a network with open decisions runs
`solvePolicies`, and the rules found take part in all later questions as tables of their decisions
until they are cleared or a table is replaced.

| Question | Answer |
|---|---|
| `solvePolicies` | the best rule of every decision |
| `joint` | the joint probability of the query variables and the evidence |
| `utilityFactor` | the utility weighted by that probability |
| `solveQuery` | the distribution of each query variable given the evidence |
| `solveUtility`, `expectedUtility` | the expected utility given the evidence | -/

namespace Influence

/-- Operations on a network, which can fail.  A failure keeps the network reached so far. -/
abbrev NetworkM (α : Type) := ExceptT Error (StateM (Network α))

/-- Expected utilities, one for each joint outcome of some variables. -/
structure UtilityResult (α : Type) where
  names : List String
  /-- The values in row-major order, the last variable varying fastest. -/
  values : List α
deriving DecidableEq, Repr

/-- The single value of a result without variables. -/
def UtilityResult.scalar? {α : Type} (u : UtilityResult α) : Option α :=
  if u.names.isEmpty then u.values.head? else none

/-- Runs a step on fresh copies of a registry and some factors. -/
def Setting.run {α β : Type} (factors : List (Factor α)) (x : StepM α β) : RegistryM β := fun r =>
  let (result, w) := x (.start r factors)
  (result, w.registry)

namespace Network

variable {α : Type}

/-! ### Names to variables -/

/-- Adds an observation to the evidence.  A repeated one changes nothing. -/
def addObservation (n : Network α) (evidence : List Observation) (observed : String × String) :
    Except Error (List Observation) := do
  let (name, outcome) := observed
  let node ← n.node name
  if node.kind = .utility then throw (.observedUtility name)
  let outcome ← n.outcomeIndex name outcome
  match evidence.find? (·.subject.id == node.handle.id) with
  | some earlier =>
    if earlier.outcome = outcome then return evidence else throw (.conflictingEvidence name)
  | none => return evidence ++ [⟨node.handle, outcome⟩]

/-- The observations that some pairs of names stand for. -/
def evidence (n : Network α) (observed : List (String × String)) :
    Except Error (List Observation) :=
  observed.foldlM n.addObservation []

/-- Adds a variable to a query. -/
def addQuery (n : Network α) (query : List Variable) (name : String) :
    Except Error (List Variable) := do
  let node ← n.node name
  if node.kind = .utility then throw (.queriedUtility name)
  if Axes.mentions query node.handle then throw (.repeatedQuery name)
  return query ++ [node.handle]

/-- The variables that some names query. -/
def query (n : Network α) (names : List String) : Except Error (List Variable) :=
  names.foldlM n.addQuery []

/-- The variables that some names query, none of which may be observed. -/
def unobservedQuery (n : Network α) (evidence : List Observation) (names : List String) :
    Except Error (List Variable) := do
  let query ← n.query names
  match (names.zip query).find? fun (_, v) => Axes.mentions (evidence.map (·.subject)) v with
  | some (name, _) => throw (.observedQuery name)
  | none => return query

/-- What a question about the utility, or about one named term of it, asks for. -/
def utilityTarget (n : Network α) : Option String → Except Error Target
  | some name => do
    let node ← n.node name
    if node.kind ≠ .utility then throw (.notUtility name)
    return .utilityTerm node.handle
  | none => if n.nodes.any (·.kind = .utility) then .ok .totalUtility else .error .noUtilities

/-! ### Runs -/

/-- The setting of a run on a network. -/
def setting (n : Network α) : Except Error (Setting α) :=
  Setting.ofDependencies n.dependencies n.weights n.config.heuristic

section

variable [Build] [Cell α]

/-- Makes a factor of a rule and relabels its decision. -/
def policyFactor (n : Network α) (p : Policy α) : RegistryM (Factor α) := do
  let decision ← n.node p.name
  let _ ← Registry.relabelAsChance decision.handle
  let given ← p.given.mapM fun name => (n.node name : Except Error Node)
  Factor.create (given.map (·.handle) ++ [decision.handle]) (some p.table.toArray)

/-- The factors for a run: those of the tables and those of the rules found so far. -/
def workingSet (n : Network α) : RegistryM (List (Factor α)) := do
  let rules ← n.policies.mapM n.policyFactor
  return n.factors ++ rules

/-- Lays a factor out over the given axes, and repeats it along those that it lacks. -/
def conform (n : Network α) (decision : String) (axes : Axes) (f : Factor α) :
    RegistryM (Factor α) := do
  if let some extra := f.axes.find? fun v => !Axes.mentions axes v then
    let name := ((n.nodes.find? (·.handle.id == extra.id)).map (·.name)).getD "?"
    throw (.unobservedDependence decision name)
  let missing := axes.filter fun v => !f.mentions v
  let widened ← if missing.isEmpty then pure f else do
    let ones ← Factor.ones missing
    Factor.product [f, ones]
  widened.rearrange axes

/-- The rule of a resolved decision in names. -/
def policyOf (n : Network α) (d : Resolved α) : RegistryM (Policy α) := do
  let some i := n.nodes.findIdx? (·.handle.id == d.decision.id)
    | throw (.foreignVariable d.decision)
  let axes := n.handlesAt (n.parents.getD i []) ++ [d.decision]
  let name := ((n.nodes[i]?).map (·.name)).getD ""
  let table ← n.conform name axes d.rule
  let expected ← n.conform name axes d.combined
  return ⟨name, n.parentNames i, table.cells.toList, expected.cells.toList⟩

/-- Resolves all decisions of a network. -/
def resolveAll (n : Network α) : RegistryM (List (Policy α)) := do
  let factors ← n.workingSet
  let s ← n.setting
  let resolved ← Setting.run factors (StepM.solveDecisions s)
  resolved.mapM n.policyOf

/-- Answers a question about variables. -/
def answer (n : Network α) (evidence : List Observation) (query : List Variable)
    (target : Target) : RegistryM (Factor α) := do
  let factors ← n.workingSet
  let s ← n.setting
  Setting.run factors (StepM.solve s evidence query target)

/-- Sums a factor over the axes that are not among the given ones, and orders the others like
them. -/
def project (axes : Axes) (f : Factor α) : RegistryM (Factor α) := do
  let projected ← (f.axes.filter fun v => !Axes.mentions axes v).foldlM Factor.sumOut f
  if let some v := axes.find? fun v => !projected.mentions v then throw (.lostQueryAxis v)
  projected.rearrange axes

end

end Network

namespace NetworkM

variable {α β : Type}

/-- Runs a computation on the network's own registry. -/
def onRegistry (x : RegistryM β) : NetworkM α β := fun n =>
  let (result, registry) := x n.registry
  (result, { n with registry })

/-- Runs a computation on a copy of the network's registry.  If it succeeds the network's next
creation number comes after those that it used. -/
def solving (x : RegistryM β) : NetworkM α β := fun n =>
  match x n.registry with
  | (.ok result, registry) => (.ok result, { n with registry := n.registry.absorb registry })
  | (.error e, _) => (.error e, n)

theorem solving_of_ok {x : RegistryM β} {n : Network α} {b : β} {r : Registry}
    (h : x n.registry = (.ok b, r)) :
    solving x n = (.ok b, { n with registry := n.registry.absorb r }) := by
  simp [solving, h]

theorem solving_of_error {x : RegistryM β} {n : Network α} {e : Error} {r : Registry}
    (h : x n.registry = (.error e, r)) : solving x n = (.error e, n) := by
  simp [solving, h]

/-- Forgets the rules found so far. -/
def clearPolicies : NetworkM α Unit := modify fun n => { n with policies := [] }

section

variable [Build] [Cell α]

/-- Gives a variable a new table and compiles the network anew. -/
def replaceTable (name : String) (table : List α) : NetworkM α Unit := do
  let n ← get
  match Network.entryOf? n.entries name with
  | none =>
    if n.nodes.any (·.name == name) then throw (.nothingToReplace name)
    else throw (.unknownVariable name)
  | some e =>
    if e.table.isNone then throw (.decisionTable name)
    set (← Network.compile (n.definition.withTable name table) n.config)

/-- Resolves every decision and stores the rules. -/
def solvePolicies : NetworkM α (List (Policy α)) := do
  clearPolicies
  let n ← get
  if n.dependencies.isEmpty then return []
  let policies ← solving n.resolveAll
  modify fun n => { n with policies }
  return policies

/-- Resolves the decisions of a network that has open ones. -/
def ensurePolicies : NetworkM α Unit := do
  let n ← get
  if !n.dependencies.isEmpty && n.policies.isEmpty then
    let _ ← solvePolicies

/-- The answer to a question with its axes in query order. -/
def ask (observed : List (String × String)) (names : List String) (target : Target) :
    NetworkM α (Factor α) := do
  ensurePolicies
  let n ← get
  let evidence ← n.evidence observed
  let query ← n.unobservedQuery evidence names
  let f ← solving (n.answer evidence query target)
  onRegistry (Network.project query f)

/-- The joint probability of some variables and the evidence. -/
def joint (observed : List (String × String)) (names : List String) : NetworkM α (Factor α) :=
  ask observed names .probability

/-- The utility over some variables, weighted by their joint probability with the evidence. -/
def utilityFactor (observed : List (String × String)) (names : List String)
    (utility : Option String) : NetworkM α (Factor α) := do
  let n ← get
  let target ← n.utilityTarget utility
  ask observed names target

omit [Build] in
/-- The cells of the certain distribution of a variable. -/
def certain (v : Variable) (outcome : Nat) : List α :=
  (List.range v.arity).map fun i => if i = outcome then 1 else 0

/-- The distribution of one query variable, given the joint probability of the unobserved ones. -/
def distribution (evidence : List Observation) (joint : Factor α) (v : Variable) :
    RegistryM (List α) := do
  match evidence.find? (·.subject.id == v.id) with
  | some o => return certain v o.outcome
  | none =>
    let marginal ← joint.marginal v
    let normalized ← marginal.normalize
    return normalized.cells.toList

/-- The distribution of each query variable given the evidence.  An observed variable has its
observation for certain. -/
def solveQuery (observed : List (String × String)) (names : List String) :
    NetworkM α (List (String × List α)) := do
  ensurePolicies
  let n ← get
  let evidence ← n.evidence observed
  let query ← n.query names
  let unobserved := query.filter fun v => !Axes.mentions (evidence.map (·.subject)) v
  let joint ← solving (n.answer evidence unobserved .probability)
  let distributions ← query.mapM fun v => onRegistry (distribution evidence joint v)
  return names.zip distributions

/-- The expected utility for each joint outcome of some variables given the evidence. -/
def solveUtility (observed : List (String × String)) (names : List String)
    (utility : Option String) : NetworkM α (UtilityResult α) := do
  let value ← utilityFactor observed names utility
  let probability ← joint observed names
  let inverse ← onRegistry probability.invert
  let expected ← onRegistry (Factor.product [value, inverse])
  let n ← get
  let nodes ← names.mapM fun name => (n.node name : Except Error Node)
  let expected ← onRegistry (expected.rearrange (nodes.map (·.handle)))
  return ⟨names, expected.cells.toList⟩

/-- The expected utility given the evidence. -/
def expectedUtility (observed : List (String × String)) : NetworkM α α := do
  let result ← solveUtility observed [] none
  match result.scalar? with
  | some value => return value
  | none => throw .utilityNotScalar

end

end NetworkM

end Influence
