import Influence.Dependencies
import Influence.Network.Definition
import Influence.Precedence

/-! # Compiling a definition

`Network.compile` turns a definition into a `Network`: it issues a variable for every declaration,
checks every reference between names, orders the variables, and makes a factor of every table.

The checks are made in a fixed order, and the first that fails gives the error:

1. the options (`Config.check`);
2. the declarations from first to last (`declareAll`);
3. the entries from first to last (`checkEntries`), then that no variable lacks one
   (`checkComplete`);
4. that the parents can be ordered (`Precedence.order`);
5. the tables in that order (`compileTable`);
6. the targets of the weights (`resolveWeight`). -/

namespace Influence

/-- The outcome of a utility that was declared without outcomes. -/
def utilityOutcome : String := "value"

/-- A declared variable with the handle issued for it. -/
structure Node where
  declaration : Declaration
  handle : Variable
deriving DecidableEq, Repr

namespace Node

/-- The name of a node. -/
def name (n : Node) : String := n.declaration.name

/-- The outcome names of a node. -/
def outcomes (n : Node) : List String := n.declaration.outcomes

/-- The declared kind of a node. -/
def kind (n : Node) : NodeKind := n.handle.kind

/-- The node with a given name. -/
def find (nodes : List Node) (name : String) : Except Error Node :=
  match nodes.find? (·.name == name) with
  | some node => .ok node
  | none => .error (.unknownVariable name)

/-- The position of a name among some nodes, or their number if it is not among them. -/
def indexOf (nodes : List Node) (name : String) : Nat := nodes.findIdx (·.name == name)

end Node

/-- The best rule of a decision, in names. -/
structure Policy (α : Type) where
  name : String
  /-- The variables that the decision observes. -/
  given : List String
  /-- The probability of each outcome of the decision in each state of the observed variables. -/
  table : List α
  /-- The table from which the rule was taken, in the same layout. -/
  expectedUtility : List α
deriving DecidableEq, Repr

/-- A compiled network. -/
structure Network (α : Type) where
  /-- The variables, in the order of their declarations. -/
  nodes : List Node
  entries : List (Entry α)
  config : Config α
  registry : Registry
  /-- For each node the positions of its parents. -/
  parents : List (List Nat)
  /-- The positions of all nodes, each after those of its parents. -/
  order : List Nat
  /-- The factors of the tables, in that order. -/
  factors : List (Factor α)
  dependencies : Dependencies
  weights : List (VariableId × α)
  /-- The rules found so far, in the order of the decisions. -/
  policies : List (Policy α) := []
deriving DecidableEq, Repr

namespace Network

variable {α : Type}

/-! ### Declarations -/

/-- The outcomes of a declaration of some kind, with the implied one filled in. -/
def filledOutcomes (d : Declaration) (kind : NodeKind) : Except Error (List String) :=
  match kind, d.outcomes with
  | .utility, [] => .ok [utilityOutcome]
  | .utility, [x] => .ok [x]
  | .utility, xs => .error (.manyUtilityOutcomes d.name xs.length)
  | _, [] => .error (.noOutcomes d.name)
  | _, xs =>
    match firstRepeat? [] xs with
    | some x => .error (.repeatedOutcome x d.name)
    | none => .ok xs

/-- Checks a declaration against those before it and issues its variable. -/
def declare (nodes : List Node) (d : Declaration) : RegistryM (List Node) := do
  let kind ← NodeKind.parse d.kind
  if nodes.any (·.name == d.name) then throw (.duplicateName d.name)
  let outcomes ← filledOutcomes d kind
  let handle ← Registry.add kind outcomes.length
  return nodes ++ [⟨{ d with outcomes }, handle⟩]

/-- Declares variables from first to last. -/
def declareAll (ds : List Declaration) : RegistryM (List Node) := ds.foldlM declare []

/-! ### Entries -/

/-- Checks the parents of an entry from first to last. -/
def checkGiven (nodes : List Node) (target : String) (seen : List String) :
    List String → Except Error Unit
  | [] => .ok ()
  | name :: rest => do
    let parent ← Node.find nodes name
    if seen.contains name then throw (.repeatedParent target name)
    if parent.kind = .utility then throw (.utilityParent name target)
    checkGiven nodes target (seen ++ [name]) rest

/-- Checks that an entry has a table exactly if its target is not a decision. -/
def checkTable (target : Node) (e : Entry α) : Except Error Unit :=
  match target.kind, e.table with
  | .decision, some _ => .error (.decisionTable e.target)
  | .decision, none => .ok ()
  | _, none => .error (.missingTable e.target)
  | _, some _ => .ok ()

/-- Checks an entry against the nodes and the entries before it. -/
def checkEntry (nodes : List Node) (earlier : List (Entry α)) (e : Entry α) :
    Except Error Unit := do
  let target ← Node.find nodes e.target
  if earlier.any (·.target == e.target) then throw (.repeatedEntry e.target)
  checkGiven nodes e.target [] e.given
  checkTable target e

/-- Checks entries from first to last. -/
def checkEntries (nodes : List Node) (earlier : List (Entry α)) : List (Entry α) → Except Error Unit
  | [] => .ok ()
  | e :: rest => do
    checkEntry nodes earlier e
    checkEntries nodes (earlier ++ [e]) rest

/-- The entry for a name. -/
def entryOf? (entries : List (Entry α)) (name : String) : Option (Entry α) :=
  entries.find? (·.target == name)

/-- Checks that every node but a decision has an entry. -/
def checkComplete (nodes : List Node) (entries : List (Entry α)) : Except Error Unit :=
  match nodes.find? fun n => (entryOf? entries n.name).isNone && n.kind != .decision with
  | some n => .error (.missingEntry n.name)
  | none => .ok ()

/-- The names of the parents of a node, none if it has no entry. -/
def givenOf (entries : List (Entry α)) (name : String) : List String :=
  ((entryOf? entries name).map (·.given)).getD []

/-- For each node the positions of its parents. -/
def parentsOf (nodes : List Node) (entries : List (Entry α)) : List (List Nat) :=
  nodes.map fun n => (givenOf entries n.name).map (Node.indexOf nodes)

/-! ### Tables -/

/-- The handles of the nodes with given names. -/
def handlesOf (nodes : List Node) (names : List String) : Axes :=
  names.filterMap fun name => (nodes.find? (·.name == name)).map (·.handle)

/-- What the decisions among some nodes observe, in the order of those nodes. -/
def dependenciesOf (nodes : List Node) (entries : List (Entry α)) (ordered : List Node) :
    Dependencies :=
  (ordered.filter (·.kind = .decision)).foldl
    (fun m n => m.insert n.handle (handlesOf nodes (givenOf entries n.name))) {}

section

variable [Cell α]

/-- Makes the factor of the table of a node. -/
def compileTable [Build] (config : Config α) (nodes : List Node) (entries : List (Entry α)) (n : Node) :
    RegistryM (Factor α) := do
  let some table := (entryOf? entries n.name).bind (·.table) | throw (.vanishedTable n.name)
  if let some value := table.findSome? Cell.nonFinite? then throw (.nonFiniteCell n.name value)
  let axes := handlesOf nodes (givenOf entries n.name) ++ [n.handle]
  let f ← Factor.create axes (some table.toArray)
  if n.kind = .chance ∧ config.normalizeChance then f.normalizeFor n.handle else return f

/-- The variable that a weight is for. -/
def resolveWeight (nodes : List Node) (weight : String × α) : Except Error (VariableId × α) := do
  let node ← Node.find nodes weight.1
  if node.kind ≠ .utility then throw (.weightOfNonUtility weight.1)
  return (node.handle.id, weight.2)

/-- Compiles a definition with a registry. -/
def compileWith [Build] (d : Definition α) (config : Config α) : RegistryM (Network α) := do
  config.check
  let nodes ← declareAll d.declarations
  checkEntries nodes [] d.entries
  checkComplete nodes d.entries
  let parents := parentsOf nodes d.entries
  let order ← Precedence.order parents
  let ordered := order.filterMap (nodes[·]?)
  let factors ← (ordered.filter (·.kind ≠ .decision)).mapM (compileTable config nodes d.entries)
  let weights ← config.weights.mapM (resolveWeight nodes ·)
  return {
    nodes, config, parents, order, factors, weights
    entries := d.entries
    registry := ← get
    dependencies := dependenciesOf nodes d.entries ordered }

/-- Compiles a definition. -/
def compile [Build] (d : Definition α) (config : Config α) : Except Error (Network α) :=
  ((compileWith d config).run {}).1

end

/-! ### What a network consists of -/

/-- The definition of a network, with the implied outcomes of utilities filled in. -/
def definition (n : Network α) : Definition α := ⟨n.nodes.map (·.declaration), n.entries⟩

/-- The names of the variables, in the order of their declarations. -/
def names (n : Network α) : List String := n.nodes.map (·.name)

/-- The names of the variables, each after those of its parents. -/
def orderedNames (n : Network α) : List String :=
  n.order.filterMap fun i => n.nodes[i]?.map (·.name)

/-- The node with a given name. -/
def node (n : Network α) (name : String) : Except Error Node := Node.find n.nodes name

/-- The names of the nodes at some positions. -/
def namesAt (n : Network α) (positions : List Nat) : List String :=
  positions.filterMap fun i => n.nodes[i]?.map (·.name)

/-- The handles of the nodes at some positions. -/
def handlesAt (n : Network α) (positions : List Nat) : Axes :=
  positions.filterMap fun i => n.nodes[i]?.map (·.handle)

/-- The names of the parents of the node at some position. -/
def parentNames (n : Network α) (position : Nat) : List String :=
  n.namesAt (n.parents.getD position [])

/-- The outcome names of a variable, none if there is no such variable. -/
def outcomesOf (n : Network α) (name : String) : List String :=
  ((n.nodes.find? (·.name == name)).map (·.outcomes)).getD []

/-- The position of an outcome of a variable. -/
def outcomeIndex (n : Network α) (name outcome : String) : Except Error Nat := do
  let node ← n.node name
  match node.outcomes.idxOf? outcome with
  | some i => return i
  | none => throw (.unknownOutcome name outcome)

/-- The rule found for a decision. -/
def policy? (n : Network α) (name : String) : Option (Policy α) :=
  n.policies.find? (·.name == name)

@[simp] theorem length_parentsOf (nodes : List Node) (entries : List (Entry α)) :
    (parentsOf nodes entries).length = nodes.length := by simp [parentsOf]

@[simp] theorem definition_declarations (n : Network α) :
    n.definition.declarations = n.nodes.map (·.declaration) := rfl

@[simp] theorem definition_entries (n : Network α) : n.definition.entries = n.entries := rfl

end Network

end Influence
