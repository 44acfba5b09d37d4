import Influence.Dependencies
import Influence.Elimination.Heuristic

/-! # The workspace of an elimination

One elimination run works on a `Workspace`: a registry, a `Pool` of factors, and the variables
eliminated so far.  What does not change during the run is in its `Setting`.

A pool lists its factors by ascending creation number.  Adding a factor whose number is in the pool
already replaces the factor with that number.

Steps of a run live in `StepM`, whose state survives a failure. -/

namespace Influence

/-- The working factors of a run, by ascending creation number. -/
abbrev Pool (α : Type) := List (Factor α)

namespace Pool

variable {α : Type}

/-- The pool with one more factor. -/
def insert (f : Factor α) : Pool α → Pool α
  | [] => [f]
  | g :: pool =>
    if f.id < g.id then f :: g :: pool
    else if f.id = g.id then f :: pool
    else g :: insert f pool

/-- The pool of some factors. -/
def ofList (factors : List (Factor α)) : Pool α :=
  factors.foldl (fun pool f => insert f pool) []

@[simp] theorem insert_nil (f : Factor α) : insert f [] = [f] := rfl

theorem mem_insert {f g : Factor α} {pool : Pool α} (h : g ∈ insert f pool) :
    g = f ∨ g ∈ pool := by
  induction pool with
  | nil => exact .inl (List.mem_singleton.mp h)
  | cons k pool ih => grind [insert]

theorem mem_ofList {f : Factor α} {fs : List (Factor α)} (h : f ∈ ofList fs) : f ∈ fs := by
  have hfold : ∀ (rest pool : List (Factor α)),
      f ∈ rest.foldl (fun pool f => insert f pool) pool → f ∈ pool ∨ f ∈ rest := by
    intro rest
    induction rest with
    | nil => exact fun _ h => .inl h
    | cons g rest ih =>
      intro pool hf
      rcases ih _ hf with hf | hf
      · rcases mem_insert hf with rfl | hf
        · exact .inr (by simp)
        · exact .inl hf
      · exact .inr (by simp [hf])
  exact (hfold fs [] h).resolve_left (by simp)

/-- A factor with a new number becomes the last one. -/
theorem insert_of_forall_lt {f : Factor α} {pool : Pool α} (h : ∀ g ∈ pool, g.id < f.id) :
    insert f pool = pool ++ [f] := by
  induction pool with
  | nil => rfl
  | cons g pool ih =>
    have hg := h g (by simp)
    rw [insert, if_neg (by omega), if_neg (by omega), ih fun k hk => h k (by simp [hk])]
    rfl

/-- Factors whose numbers ascend are a pool already. -/
theorem ofList_of_pairwise {fs : List (Factor α)} (h : fs.Pairwise (·.id < ·.id)) :
    ofList fs = fs := by
  have hfold : ∀ (rest pool : List (Factor α)), (pool ++ rest).Pairwise (·.id < ·.id) →
      rest.foldl (fun pool f => insert f pool) pool = pool ++ rest := by
    intro rest
    induction rest with
    | nil => simp
    | cons f rest ih =>
      intro pool hpool
      have hlt : ∀ g ∈ pool, g.id < f.id := fun g hg =>
        (List.pairwise_append.1 hpool).2.2 g hg f (by simp)
      rw [List.foldl_cons, insert_of_forall_lt hlt, ih _ (by simpa using hpool)]
      simp
  exact hfold fs [] h

end Pool

/-- An observed variable with its outcome. -/
structure Observation where
  subject : Variable
  outcome : Nat
deriving DecidableEq, Repr

/-- The part of a run that stays fixed. -/
structure Setting (α : Type) where
  /-- What the decisions observe. -/
  dependencies : Dependencies
  /-- The decisions, each after those it observes. -/
  decisionOrder : List Variable
  /-- The weights of utility variables; of two weights for one variable the later one counts. -/
  weights : List (VariableId × α) := []
  /-- The order of elimination passes. -/
  heuristic : Heuristic := .minDegree
deriving DecidableEq, Repr

/-- The part of a run that changes. -/
structure Workspace (α : Type) where
  registry : Registry
  pool : Pool α
  /-- The variables eliminated so far. -/
  eliminated : List VariableId := []
deriving DecidableEq, Repr

/-- Steps of a run, which can fail.  A failure keeps the workspace reached so far. -/
abbrev StepM (α : Type) := ExceptT Error (StateM (Workspace α))

namespace Setting

variable {α : Type}

/-- The setting for some dependencies.  It fails if the decisions cannot be ordered. -/
def ofDependencies (m : Dependencies) (weights : List (VariableId × α)) (h : Heuristic) :
    Except Error (Setting α) :=
  m.decisionOrder.map fun order => ⟨m, order, weights, h⟩

/-- The weight listed for a variable. -/
def weight? (s : Setting α) (v : Variable) : Option α := s.weights.reverse.lookup v.id

/-- The product of the weights listed for some axes. -/
def weightOf [Cell α] (s : Setting α) (axes : Axes) : α :=
  Fold.product.fold (axes.filterMap s.weight?)

end Setting

namespace Workspace

variable {α : Type}

/-- A workspace with the given factors. -/
def start (registry : Registry) (factors : List (Factor α)) : Workspace α :=
  { registry, pool := Pool.ofList factors }

/-- The variables of some axes that are utilities at present. -/
def utilitiesOf (w : Workspace α) (axes : Axes) : Axes :=
  axes.filter fun v => w.registry.kindOf v == .utility

/-- Whether a factor mentions a utility. -/
def mentionsUtility (w : Workspace α) (f : Factor α) : Bool :=
  f.axes.any fun v => w.registry.kindOf v == .utility

/-- Whether a variable has been eliminated. -/
def isEliminated (w : Workspace α) (v : Variable) : Bool := w.eliminated.contains v.id

/-- The workspace in which a variable counts as eliminated. -/
def markEliminated (w : Workspace α) (v : Variable) : Workspace α :=
  { w with eliminated := if w.isEliminated v then w.eliminated else w.eliminated ++ [v.id] }

/-- The workspace with one more factor. -/
def insert (w : Workspace α) (f : Factor α) : Workspace α := { w with pool := w.pool.insert f }

end Workspace

namespace StepM

variable {α β : Type}

/-- Runs a computation on the registry of the workspace. -/
def onRegistry (x : RegistryM β) : StepM α β := fun w =>
  let (result, registry) := x w.registry
  (result, { w with registry })

/-- Adds a factor to the pool. -/
def insert (f : Factor α) : StepM α Unit := modify (·.insert f)

/-- Removes the factors that satisfy a test from the pool and returns them. -/
def take (test : Factor α → Bool) : StepM α (List (Factor α)) := do
  let w ← get
  let (taken, rest) := w.pool.partition test
  set { w with pool := rest }
  return taken

/-- Runs a step and puts the pool and the eliminated variables back as they were, also after a
failure. -/
def inScratch (x : StepM α β) : StepM α β := fun w =>
  let (result, after) := x w
  (result, { w with registry := after.registry })

@[simp] theorem onRegistry_pool (x : RegistryM β) (w : Workspace α) :
    (onRegistry x w).2.pool = w.pool := rfl

@[simp] theorem onRegistry_eliminated (x : RegistryM β) (w : Workspace α) :
    (onRegistry x w).2.eliminated = w.eliminated := rfl

@[simp] theorem onRegistry_registry (x : RegistryM β) (w : Workspace α) :
    (onRegistry x w).2.registry = (x w.registry).2 := rfl

@[simp] theorem inScratch_pool (x : StepM α β) (w : Workspace α) :
    (inScratch x w).2.pool = w.pool := rfl

@[simp] theorem inScratch_eliminated (x : StepM α β) (w : Workspace α) :
    (inScratch x w).2.eliminated = w.eliminated := rfl

end StepM

end Influence
