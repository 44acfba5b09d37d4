import Influence.Proofs.Network.History

/-! # What calls do not read

A compiled network keeps the entries of its definition, but calls read its factors: only a call that
replaces a table looks at the entries.  Any other call gives the same result whatever the entries are,
and leaves them as they are (`Call.overlooks_entries`).

A computation `Overlooks` a change of the state if every run gives the same result from the changed
state, and leaves the state changed in the same way.  This is proved by composing the steps. -/

namespace Influence

variable {ε σ β γ : Type}

/-- Every run gives the same result from the changed state, and the change stays. -/
def Overlooks (f : σ → σ) (x : ExceptT ε (StateM σ) β) : Prop :=
  ∀ s, runFrom x (f s) = ((runFrom x s).1, f (runFrom x s).2)

namespace Overlooks

variable {f : σ → σ} {x : ExceptT ε (StateM σ) β}

theorem pure (b : β) : Overlooks f (Pure.pure b : ExceptT ε (StateM σ) β) := fun _ => rfl

theorem throw (e : ε) : Overlooks f (MonadExcept.throw e : ExceptT ε (StateM σ) β) := fun _ => rfl

theorem modify {g : σ → σ} (h : ∀ s, g (f s) = f (g s)) :
    Overlooks f (modify g : ExceptT ε (StateM σ) PUnit) := fun s =>
  congrArg (fun t => ((Except.ok ⟨⟩, t) : Except ε PUnit × σ)) (h s)

theorem except (z : Except ε β) : Overlooks f (liftM z : ExceptT ε (StateM σ) β) := by
  intro s
  cases z <;> rfl

theorem bind {k : β → ExceptT ε (StateM σ) γ} (hx : Overlooks f x) (hk : ∀ b, Overlooks f (k b)) :
    Overlooks f (x >>= k) := by
  intro s
  rw [runFrom_bind, runFrom_bind, hx s]
  generalize runFrom x s = p
  match p with
  | (.ok b, s') => exact hk b s'
  | (.error _, _) => rfl

theorem ite {q : Prop} [Decidable q] {y : ExceptT ε (StateM σ) β} (hx : Overlooks f x)
    (hy : Overlooks f y) : Overlooks f (if q then x else y) := by
  split
  · exact hx
  · exact hy

/-- What is read of the state does not depend on the change. -/
theorem get {k : σ → ExceptT ε (StateM σ) β} (hread : ∀ s, k (f s) = k s) (hk : ∀ s, Overlooks f (k s)) :
    Overlooks f (MonadState.get >>= k) := by
  intro s
  show runFrom (k (f s)) (f s) = ((runFrom (k s) s).1, f (runFrom (k s) s).2)
  rw [hread]
  exact hk s s

theorem mapM {g : γ → ExceptT ε (StateM σ) β} (hg : ∀ c, Overlooks f (g c)) (l : List γ) :
    Overlooks f (l.mapM g) := by
  induction l with
  | nil =>
      rw [List.mapM_nil]
      exact pure []
  | cons c l ih =>
      rw [List.mapM_cons]
      exact bind (hg c) fun b => bind ih fun bs => pure (b :: bs)

end Overlooks

/-! ### Other entries -/

variable {α : Type}

/-- The network with other entries. -/
def Network.withEntries (entries : List (Entry α)) (n : Network α) : Network α := { n with entries }

namespace Overlooks

open Network

variable {entries : List (Entry α)}

theorem onNetwork (x : RegistryM β) :
    Overlooks (withEntries entries) (NetworkM.onRegistry x : NetworkM α β) := fun _ => rfl

theorem solving (x : RegistryM β) :
    Overlooks (withEntries entries) (NetworkM.solving x : NetworkM α β) := by
  intro n
  show NetworkM.solving x (n.withEntries entries) = _
  unfold runFrom
  rcases hx : x n.registry with ⟨e | b, r⟩
  · rw [NetworkM.solving_of_error hx]
    exact NetworkM.solving_of_error hx
  · rw [NetworkM.solving_of_ok hx]
    exact NetworkM.solving_of_ok hx

theorem clearPolicies : Overlooks (withEntries entries) (NetworkM.clearPolicies : NetworkM α _) :=
  modify fun _ => rfl

variable [Build] [Cell α] (observed : List (String × String)) (names : List String)

theorem solvePolicies : Overlooks (withEntries entries) (NetworkM.solvePolicies : NetworkM α _) := by
  refine bind clearPolicies fun _ => get (fun _ => rfl) fun n => ite (pure []) ?_
  exact bind (solving _) fun ps => bind (modify fun _ => rfl) fun _ => pure ps

theorem ensurePolicies : Overlooks (withEntries entries) (NetworkM.ensurePolicies : NetworkM α _) :=
  get (fun _ => rfl) fun _ => ite (bind solvePolicies fun _ => pure ()) (pure ())

theorem ask (target : Target) :
    Overlooks (withEntries entries) (NetworkM.ask observed names target : NetworkM α _) :=
  bind ensurePolicies fun _ => get (fun _ => rfl) fun _ => bind (except _) fun _ =>
    bind (except _) fun _ => bind (solving _) fun _ => onNetwork _

theorem utilityFactor (utility : Option String) :
    Overlooks (withEntries entries) (NetworkM.utilityFactor observed names utility : NetworkM α _) :=
  get (fun _ => rfl) fun _ => bind (except _) fun target => ask observed names target

theorem solveQuery :
    Overlooks (withEntries entries) (NetworkM.solveQuery observed names : NetworkM α _) :=
  bind ensurePolicies fun _ => get (fun _ => rfl) fun _ => bind (except _) fun _ =>
    bind (except _) fun _ => bind (solving _) fun _ => bind (mapM (fun _ => onNetwork _) _)
      fun _ => pure _

theorem solveUtility (utility : Option String) :
    Overlooks (withEntries entries) (NetworkM.solveUtility observed names utility : NetworkM α _) :=
  bind (utilityFactor observed names utility) fun _ => bind (ask observed names .probability) fun _ =>
    bind (onNetwork _) fun _ => bind (onNetwork _) fun _ => get (fun _ => rfl) fun _ =>
      bind (mapM (fun _ => except _) names) fun _ => bind (onNetwork _) fun _ => pure _

theorem expectedUtility :
    Overlooks (withEntries entries) (NetworkM.expectedUtility observed : NetworkM α α) := by
  refine bind (solveUtility observed [] none) fun result => ?_
  cases result.scalar? with
  | some value => exact pure value
  | none => exact throw _

end Overlooks

/-- A call that replaces no table does not look at the entries. -/
theorem Call.overlooks_entries [Build] [Cell α] {entries : List (Entry α)} {c : Call α}
    (hc : ∀ name table, c ≠ .replaceTable name table) :
    Overlooks (Network.withEntries entries) c.run := by
  cases c with
  | solveQuery observed names => exact .bind (.solveQuery observed names) fun _ => .pure _
  | solveUtility observed names utility =>
      exact .bind (.solveUtility observed names utility) fun _ => .pure _
  | expectedUtility observed => exact .bind (.expectedUtility observed) fun _ => .pure _
  | joint observed names => exact .bind (.ask observed names .probability) fun _ => .pure _
  | utilityFactor observed names utility =>
      exact .bind (.utilityFactor observed names utility) fun _ => .pure _
  | solvePolicies => exact .bind .solvePolicies fun _ => .pure _
  | clearPolicies => exact .bind .clearPolicies fun _ => .pure _
  | replaceTable name table => exact absurd rfl (hc name table)

end Influence
