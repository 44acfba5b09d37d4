import Influence.Error
import Influence.Sorting

/-! # Registries

A `Registry` issues variables and the creation numbers of factors, and knows the current kind of
every variable it has issued.  It is a plain value: a copy of it is an independent context.

* **Identities** are 32-bit words.  `add` takes the first free one at or after the next candidate
  and starts again from zero after the last; `addWithId` takes the one it is given.
* **Kinds.** A resolved decision is relabelled as a chance variable (`relabelAsChance`).  `kindOf`
  reports the current kind, while handles issued earlier keep the declared one.
* **Creation numbers** count the factors built so far.

Operations that can fail run in `RegistryM`, whose state survives a failure. -/

namespace Influence

/-- The variables issued so far and the counters for the next ones. -/
structure Registry where
  /-- The current handles of the issued variables, in the order in which they were issued. -/
  handles : List Variable := []
  /-- The next candidate for an identity. -/
  nextVariable : VariableId := 0
  /-- The creation number of the next factor. -/
  nextFactor : Nat := 0
deriving DecidableEq, Repr

/-- Computations that use a registry and can fail.  A failure keeps the registry reached so far. -/
abbrev RegistryM := ExceptT Error (StateM Registry)

namespace Registry

/-- The current handle of an identity. -/
def find? (r : Registry) (id : VariableId) : Option Variable := r.handles.find? (·.id == id)

/-- Whether an identity has been issued. -/
def issued (r : Registry) (id : VariableId) : Bool := r.handles.any (·.id == id)

/-- The first free identity among `n` candidates from `id` on, or else the candidate after them. -/
def firstFree (r : Registry) : Nat → VariableId → VariableId
  | 0, id => id
  | n + 1, id => if r.issued id then firstFree r n (id + 1) else id

/-- All variables, in the order of their identities. -/
def sorted (r : Registry) : List Variable := Sorting.sort (·.id ≤ ·.id) r.handles

/-- The number of variables. -/
def size (r : Registry) : Nat := r.handles.length

/-- The current kind of a variable.  One that was not issued here has its declared kind. -/
def kindOf (r : Registry) (v : Variable) : NodeKind := ((r.find? v.id).getD v).kind

/-- The identity after a given one, or the last identity again. -/
def idAfter (id : VariableId) : VariableId := if id + 1 = 0 then id else id + 1

/-- The registry after a variable has been issued. -/
def issue (r : Registry) (v : Variable) : Registry :=
  { r with
    handles := r.handles ++ [v]
    nextVariable := if r.nextVariable < idAfter v.id then idAfter v.id else r.nextVariable }

/-- Issues a variable with a given identity. -/
def addWithId (id : VariableId) (kind : NodeKind) (arity : Nat) : RegistryM Variable := do
  let r ← get
  if r.issued id then throw (.duplicateId id)
  if arity = 0 then throw (.withoutOutcome id)
  let v : Variable := ⟨id, arity, kind⟩
  set (r.issue v)
  return v

/-- Issues a variable with the next free identity. -/
def add (kind : NodeKind) (arity : Nat) : RegistryM Variable := do
  let r ← get
  let id := r.firstFree r.size r.nextVariable
  set { r with nextVariable := id }
  addWithId id kind arity

/-- The registry in which a variable has become a chance variable. -/
def withChance (r : Registry) (v : Variable) : Registry :=
  { r with
    handles := r.handles.map fun w => if w.id == v.id then { w with kind := .chance } else w }

/-- Relabels a decision as a chance variable and returns its new handle. -/
def relabelAsChance (v : Variable) : RegistryM Variable := do
  let r ← get
  match r.find? v.id with
  | none => throw (.relabelUnregistered v)
  | some w =>
    if w.kind ≠ .decision then throw (.relabelKind w.kind v)
    set (r.withChance v)
    return { w with kind := .chance }

/-- The registry whose next factor comes after all the factors of `other` as well. -/
def absorb (r other : Registry) : Registry :=
  { r with nextFactor := max r.nextFactor other.nextFactor }

@[simp] theorem absorb_handles (r other : Registry) :
    (r.absorb other).handles = r.handles := rfl

@[simp] theorem absorb_nextFactor (r other : Registry) :
    (r.absorb other).nextFactor = max r.nextFactor other.nextFactor := rfl

@[simp] theorem kindOf_absorb (r other : Registry) (v : Variable) :
    (r.absorb other).kindOf v = r.kindOf v := rfl

@[simp] theorem issue_handles (r : Registry) (v : Variable) :
    (r.issue v).handles = r.handles ++ [v] := rfl

@[simp] theorem withChance_nextFactor (r : Registry) (v : Variable) :
    (r.withChance v).nextFactor = r.nextFactor := rfl

theorem issued_iff (r : Registry) (id : VariableId) :
    r.issued id ↔ id ∈ Axes.ids r.handles := by
  simp [issued, Axes.ids]

end Registry

end Influence
