import Influence.Proofs.Lockstep

/-! # What every run keeps

A computation `Keeps` a preorder on states if every run of it ends in a state that comes after the one
in which it started, also when it fails.  Unlike a judgement about one run this needs nothing of the
start, so it is proved by composing the steps.

The operations on factors hand out creation numbers and change nothing else in the registry
(`Registry.Later`). -/

namespace Influence

open scoped Exact

variable {ε σ β γ : Type}

/-- Every run ends in a state that comes after the one in which it started. -/
def Keeps (P : σ → σ → Prop) (x : ExceptT ε (StateM σ) β) : Prop := ∀ s, P s (runFrom x s).2

namespace Keeps

variable {P : σ → σ → Prop} {x y : ExceptT ε (StateM σ) β}

theorem of_returns (h : Keeps P x) {s s' : σ} {b : β} (hx : Returns x s b s') : P s s' := by
  have hs := h s
  rwa [show runFrom x s = (.ok b, s') from hx] at hs

theorem modify {f : σ → σ} (h : ∀ s, P s (f s)) :
    Keeps P (modify f : ExceptT ε (StateM σ) PUnit) := h

theorem ite {q : Prop} [Decidable q] (hx : Keeps P x) (hy : Keeps P y) :
    Keeps P (if q then x else y) := by
  split
  · exact hx
  · exact hy

section

variable [IsPreorder σ P]

theorem pure (b : β) : Keeps P (Pure.pure b : ExceptT ε (StateM σ) β) := fun s => refl_of P s

theorem throw (e : ε) : Keeps P (MonadExcept.throw e : ExceptT ε (StateM σ) β) := fun s => refl_of P s

theorem get : Keeps P (MonadState.get : ExceptT ε (StateM σ) σ) := fun s => refl_of P s

theorem except (z : Except ε β) : Keeps P (liftM z : ExceptT ε (StateM σ) β) := by
  intro s
  cases z <;> exact refl_of P s

theorem bind {f : β → ExceptT ε (StateM σ) γ} (hx : Keeps P x) (hf : ∀ b, Keeps P (f b)) :
    Keeps P (x >>= f) := by
  intro s
  have hs := hx s
  rw [runFrom_bind]
  generalize runFrom x s = p at hs ⊢
  match p, hs with
  | (.ok b, s'), hs => exact trans_of P hs (hf b s')
  | (.error _, _), hs => exact hs

/-- A check that a computation begins with. -/
theorem guard {q : Prop} [Decidable q] {e : ε} (hx : Keeps P x) :
    Keeps P (if q then (MonadExcept.throw e : ExceptT ε (StateM σ) PUnit) >>= fun _ => x else x) :=
  ite (bind (throw e) fun _ => hx) hx

theorem foldlM {f : β → γ → ExceptT ε (StateM σ) β} (hf : ∀ b c, Keeps P (f b c)) (l : List γ)
    (b : β) : Keeps P (l.foldlM f b) := by
  induction l generalizing b with
  | nil => exact pure b
  | cons c l ih =>
      rw [List.foldlM_cons]
      exact bind (hf b c) ih

theorem forM {f : γ → ExceptT ε (StateM σ) PUnit} (hf : ∀ c, Keeps P (f c)) (l : List γ) :
    Keeps P (l.forM f) := by
  induction l with
  | nil => exact pure PUnit.unit
  | cons c l ih => exact bind (hf c) fun _ => ih

theorem mapM {f : γ → ExceptT ε (StateM σ) β} (hf : ∀ c, Keeps P (f c)) (l : List γ) :
    Keeps P (l.mapM f) := by
  induction l with
  | nil =>
      rw [List.mapM_nil]
      exact pure []
  | cons c l ih =>
      rw [List.mapM_cons]
      exact bind (hf c) fun b => bind ih fun bs => pure (b :: bs)

end

end Keeps

/-! ### Registries -/

instance : IsPreorder Registry Registry.Later where
  refl := .refl
  trans _ _ _ := .trans

theorem Registry.Later.absorb (r r' : Registry) : r.Later (r.absorb r') := by
  refine ⟨max r.nextFactor r'.nextFactor - r.nextFactor, ?_⟩
  simp only [Registry.absorb, Registry.after, Registry.mk.injEq, true_and]
  omega

namespace Keeps

variable {α : Type} (f : Factor α) (v : Variable)

theorem make (t : Table α) :
    Keeps Registry.Later (liftM (Factor.make t) : RegistryM (Factor α)) := fun _ => ⟨1, rfl⟩

theorem requireAxis : Keeps Registry.Later (f.requireAxis v) := ite (pure ()) (throw _)

variable [Build] [Cell α]

theorem requireRoom (n : ℕ) : Keeps Registry.Later (Factor.requireRoom n) := ite (pure ()) (throw _)

theorem fill (p : Filling α) : Keeps Registry.Later (Factor.fill p) :=
  bind (except p.check) fun _ => make _

theorem foldAll (op : Fold) (fs : List (Factor α)) : Keeps Registry.Later (Factor.foldAll op fs) := by
  match fs with
  | [f] => exact make f.table
  | [] | _ :: _ :: _ => exact fill _

theorem scale (weight : α) : Keeps Registry.Later (f.scale weight) :=
  bind (make (.scalar weight)) fun _ => foldAll _ _

theorem restrict (k : ℕ) : Keeps Registry.Later (f.restrict v k) :=
  bind (requireAxis f v) fun _ => guard (fill _)

theorem sumOut : Keeps Registry.Later (f.sumOut v) := bind (requireAxis f v) fun _ => fill _

theorem marginal : Keeps Registry.Later (f.marginal v) :=
  bind (requireAxis f v) fun _ => bind (requireRoom _) fun _ => make _

theorem rearrange (order : Axes) : Keeps Registry.Later (f.rearrange order) :=
  guard (ite (make _) (fill _))

/-- Looking for a rule hands out a number also when none is found. -/
theorem rule : Keeps Registry.Later (f.rule v) := by
  refine bind (bind (requireAxis f v) fun _ => rearrange f _) fun _ => ?_
  cases f.table.rule v with
  | error state => exact throw _
  | ok t => exact make t

end Keeps

/-- A rule is a new factor. -/
theorem Factor.of_returns_rule {α : Type} [Build] [Cell α] {f g : Factor α} {v : Variable} {r r' : Registry}
    (h : Returns (f.rule v) r g r') :
    f.mentions v ∧ f.table.rule v = .ok g.table ∧ g.IsNew r r' := by
  unfold rule moveLast at h
  simp only [returns_bind, returns_requireAxis] at h
  obtain ⟨_, _, ⟨_, _, ⟨hv, rfl⟩, hmoved⟩, h⟩ := h
  obtain ⟨-, -, rfl⟩ := of_returns_rearrange hmoved
  refine ⟨hv, ?_⟩
  cases hrule : f.table.rule v with
  | error state =>
      rw [hrule] at h
      exact (returns_throw.mp h).elim
  | ok t =>
      rw [hrule] at h
      obtain ⟨rfl, rfl⟩ := returns_make.mp h
      exact ⟨rfl, (isNew_after t _).since (.after (.refl r) 1)⟩

end Influence
