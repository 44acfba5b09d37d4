import Influence.Cell
import Influence.Variable

/-! # Errors

`Error` lists the causes for which an operation of the library can fail.  Every cause belongs to
one `Error.Family`, and `Error.message` gives its text, which begins with the words of the family.

* A *definition error* describes what the caller got wrong about a network or a question.
* A *numerical error* names a number that cannot be used.
* *No solution* means that a decision could not be given a rule.
* An *internal error* means that a table was asked for an axis or a coordinate that it lacks.  Two of
  its causes are *faults*: nothing can be allocated or read there, and the program stops. -/

namespace Influence

/-- A cause of failure. -/
inductive Error where
  /-- A table has another number of cells than its axes have joint outcomes. -/
  | sizeMismatch (expected actual : Nat)
  /-- No variable of the network has this name. -/
  | unknownVariable (name : String)
  /-- The variable has no outcome of this name. -/
  | unknownOutcome (name outcome : String)
  /-- The name is declared already. -/
  | duplicateName (name : String)
  /-- The identity is taken already. -/
  | duplicateId (id : VariableId)
  /-- The text names no kind of node. -/
  | unsupportedKind (text : String)
  /-- The parents of some node depend on that node. -/
  | cyclicGraph
  /-- A variable was to be registered with no outcome. -/
  | withoutOutcome (id : VariableId)
  /-- A variable was given twice among the axes of a table. -/
  | repeatedAxis (v : Variable)
  /-- A utility node lists several outcomes. -/
  | manyUtilityOutcomes (name : String) (count : Nat)
  /-- A chance or decision node lists no outcome. -/
  | noOutcomes (name : String)
  /-- A node lists an outcome twice. -/
  | repeatedOutcome (outcome name : String)
  /-- A node has several entries. -/
  | repeatedEntry (name : String)
  /-- An entry lists a parent twice. -/
  | repeatedParent (name parent : String)
  /-- An entry lists a utility among the parents. -/
  | utilityParent (parent name : String)
  /-- A decision was given a table. -/
  | decisionTable (name : String)
  /-- The entry of a chance or utility node has no table. -/
  | missingTable (name : String)
  /-- A chance or utility node has no entry. -/
  | missingEntry (name : String)
  /-- A node without an entry was given a new table. -/
  | nothingToReplace (name : String)
  /-- A weight is given for a node that is not a utility. -/
  | weightOfNonUtility (name : String)
  /-- A utility has two weights. -/
  | repeatedWeight (name : String)
  /-- A question about utilities was put to a network that has none. -/
  | noUtilities
  /-- The named term of the utility is not a utility node. -/
  | notUtility (name : String)
  /-- A utility node was observed. -/
  | observedUtility (name : String)
  /-- A utility node was queried for a distribution. -/
  | queriedUtility (name : String)
  /-- Two different outcomes of a variable were observed. -/
  | conflictingEvidence (name : String)
  /-- A variable was queried twice. -/
  | repeatedQuery (name : String)
  /-- A variable was observed and queried. -/
  | observedQuery (name : String)
  /-- The rule of a decision depends on another decision, which it does not observe. -/
  | unobservedDependence (decision other : String)
  /-- An observation is not of the form NAME=OUTCOME. -/
  | malformedEvidence (text : String)
  /-- A weight is not a number. -/
  | nonFiniteWeight (name : String) (value : NonFinite)
  /-- A table holds a cell that is not a number. -/
  | nonFiniteCell (name : String) (value : NonFinite)
  /-- No outcome of a decision is a best one in the given state. -/
  | noCandidate (decision : Variable) (state : Nat)
  /-- No table says anything about a decision. -/
  | noRelevantFactor (decision : Variable)
  /-- A factor lacks the axis that it was asked for. -/
  | notAnAxis (v : Variable) (factor : Nat)
  /-- A coordinate list has another length than the axis list. -/
  | coordinateCount (given axes : Nat)
  /-- A coordinate is not an outcome of its axis. -/
  | coordinateRange (outcome : Nat) (v : Variable)
  /-- An index is not one of the cells. -/
  | indexRange (index cells : Nat)
  /-- An observed outcome is not an outcome of the variable. -/
  | observationRange (outcome : Nat) (v : Variable)
  /-- The requested axes are not the axes of the factor in another order. -/
  | notPermutation (order axes : List VariableId)
  /-- The variable to be resolved is not registered. -/
  | relabelUnregistered (v : Variable)
  /-- The variable to be resolved is not a decision. -/
  | relabelKind (kind : NodeKind) (v : Variable)
  /-- A parent list names a node beyond the last. -/
  | parentRange (parent nodes : Nat)
  /-- A table that was checked to be present is absent. -/
  | vanishedTable (name : String)
  /-- A variable does not belong to the network. -/
  | foreignVariable (v : Variable)
  /-- The answer to a question lacks an axis that was queried. -/
  | lostQueryAxis (v : Variable)
  /-- The answer to a question without query variables has axes. -/
  | utilityNotScalar
  /-- A list was to be made with more cells than can be allocated. -/
  | tableTooLarge
  /-- A cell was read that a table does not have. -/
  | readOutside
deriving DecidableEq, Repr

namespace Error

/-- The families of causes. -/
inductive Family where
  | sizeMismatch
  | unknownVariable
  | unknownOutcome
  | duplicateVariable
  | unsupportedKind
  | cyclicGraph
  | validation
  | numerical
  | noSolution
  | internal
deriving DecidableEq, Repr

/-- The family of a cause. -/
def family : Error → Family
  | sizeMismatch .. => .sizeMismatch
  | unknownVariable .. => .unknownVariable
  | unknownOutcome .. => .unknownOutcome
  | duplicateName .. | duplicateId .. => .duplicateVariable
  | unsupportedKind .. => .unsupportedKind
  | cyclicGraph => .cyclicGraph
  | withoutOutcome .. | repeatedAxis .. | manyUtilityOutcomes .. | noOutcomes ..
  | repeatedOutcome .. | repeatedEntry .. | repeatedParent .. | utilityParent ..
  | decisionTable .. | missingTable .. | missingEntry .. | nothingToReplace ..
  | weightOfNonUtility .. | repeatedWeight .. | noUtilities | notUtility ..
  | observedUtility .. | queriedUtility .. | conflictingEvidence .. | repeatedQuery ..
  | observedQuery .. | unobservedDependence .. | malformedEvidence .. => .validation
  | nonFiniteWeight .. | nonFiniteCell .. => .numerical
  | noCandidate .. | noRelevantFactor .. => .noSolution
  | notAnAxis .. | coordinateCount .. | coordinateRange .. | indexRange .. | observationRange ..
  | notPermutation .. | relabelUnregistered .. | relabelKind .. | parentRange ..
  | vanishedTable .. | foreignVariable .. | lostQueryAxis .. | utilityNotScalar | tableTooLarge
  | readOutside => .internal

/-- Whether a cause lies in the definition or the question that the caller gave. -/
def isDefinitionError (e : Error) : Bool :=
  match e.family with
  | .numerical | .noSolution | .internal => false
  | _ => true

/-- Whether the program stops for a cause, instead of reporting it. -/
def isFault : Error → Bool
  | tableTooLarge | readOutside => true
  | _ => false

/-- A list of identities in messages. -/
def idsText (ids : List VariableId) : String :=
  "[" ++ ", ".intercalate (ids.map fun id => toString id.toNat) ++ "]"

/-- The particulars of a cause, without the words of its family. -/
def detail : Error → String
  | sizeMismatch expected actual => s!"expected {expected} cells, got {actual}"
  | unknownVariable name => s!"'{name}'"
  | unknownOutcome name outcome => s!"'{outcome}' for variable '{name}'"
  | duplicateName name => s!"'{name}'"
  | duplicateId id => s!"'#{id.toNat}'"
  | unsupportedKind text => s!"'{text}'"
  | cyclicGraph => ""
  | withoutOutcome id => s!"variable #{id.toNat} must have at least one outcome"
  | repeatedAxis v => s!"variable {v.text} appears twice in factor axes"
  | manyUtilityOutcomes name count => s!"utility '{name}' must have a single outcome, got {count}"
  | noOutcomes name => s!"variable '{name}' has no outcomes"
  | repeatedOutcome outcome name => s!"outcome '{outcome}' listed twice for '{name}'"
  | repeatedEntry name => s!"more than one table for '{name}'"
  | repeatedParent name parent => s!"'{name}' lists parent '{parent}' twice"
  | utilityParent parent name => s!"utility '{parent}' cannot be a parent of '{name}'"
  | decisionTable name => s!"decision '{name}' cannot have a table"
  | missingTable name => s!"'{name}' is missing its table"
  | missingEntry name => s!"no table for '{name}'"
  | nothingToReplace name => s!"'{name}' has no table"
  | weightOfNonUtility name => s!"weight given for '{name}', which is not a utility"
  | repeatedWeight name => s!"utility weight for '{name}' given more than once"
  | noUtilities => "network has no utility nodes"
  | notUtility name => s!"'{name}' is not a utility"
  | observedUtility name => s!"utility '{name}' cannot be observed"
  | queriedUtility name => s!"utility '{name}' cannot be queried for a distribution"
  | conflictingEvidence name => s!"conflicting evidence for '{name}'"
  | repeatedQuery name => s!"'{name}' queried twice"
  | observedQuery name => s!"'{name}' is both observed and queried"
  | unobservedDependence decision other =>
    s!"policy for '{decision}' depends on '{other}', which it does not observe"
  | malformedEvidence text => s!"evidence '{text}' must look like NAME=OUTCOME"
  | nonFiniteWeight name value => s!"utility weight for '{name}' must be finite, got {value.text}"
  | nonFiniteCell name value => s!"table for '{name}' holds non-finite value {value.text}"
  | noCandidate d state => s!"no candidate outcome for decision {d.text} in state {state}"
  | noRelevantFactor d => s!"decision {d.text} has no relevant factor"
  | notAnAxis v factor => s!"variable {v.text} is not an axis of factor FactorId({factor})"
  | coordinateCount given axes => s!"coordinate vector has {given} entries, factor has {axes} axes"
  | coordinateRange outcome v => s!"outcome {outcome} out of range for {v.text} (arity {v.arity})"
  | indexRange index cells =>
    s!"flat index {index} out of range for factor with {cells} cells"
  | observationRange outcome v =>
    s!"observed outcome {outcome} out of range for {v.text} (arity {v.arity})"
  | notPermutation order axes =>
    s!"axis order {idsText order} is not a permutation of {idsText axes}"
  | relabelUnregistered v => s!"relabel of unregistered variable {v.text}"
  | relabelKind kind v => s!"cannot relabel {kind.text} variable {v.text} as chance"
  | parentRange parent nodes => s!"parent index {parent} out of range for {nodes} nodes"
  | vanishedTable name => s!"table for '{name}' vanished after validation"
  | foreignVariable v => s!"{v.text} is not in this network"
  | lostQueryAxis v => s!"solve result lost query axis {v.text}"
  | utilityNotScalar => "query-free utility is not a scalar"
  | tableTooLarge => "capacity overflow"
  | readOutside => "index out of bounds"

/-- The words of a family, before the particulars of the cause. -/
def Family.words : Family → String
  | sizeMismatch => "size mismatch: "
  | unknownVariable => "unknown variable "
  | unknownOutcome => "unknown outcome "
  | duplicateVariable => "duplicate variable "
  | unsupportedKind => "unsupported node kind "
  | cyclicGraph => "graph has cycles"
  | validation => "validation error: "
  | numerical => "numerical error: "
  | noSolution => "no solution: "
  | internal => "internal error: "

/-- The full text of a cause. -/
def message (e : Error) : String := e.family.words ++ e.detail

@[simp] theorem isDefinitionError_eq_false_iff (e : Error) :
    e.isDefinitionError = false ↔
      e.family = .numerical ∨ e.family = .noSolution ∨ e.family = .internal := by
  unfold isDefinitionError
  cases e.family <;> simp

end Error

/-- The kind that a text names. -/
def NodeKind.parse (text : String) : Except Error NodeKind :=
  match NodeKind.ofText? text with
  | some kind => .ok kind
  | none => .error (.unsupportedKind text)

end Influence
