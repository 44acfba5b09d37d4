import Influence.Proofs.Factor

/-! # Causes of failure

A run returns or fails for some cause.  `Ends E R` says that it returns a value and a state related by
`R`, or fails for a cause in `E`.  It is proved along the structure of a computation: `Ends.bind` for
two steps, `Ends.foldlM` and `Ends.mapM` for loops.  Where a step is known to return, `Ends.of_returns`
adds no cause.

A computation that ends for given causes fails for no other (`Ends.cause`), and if no cause goes
together with some condition while every return implies it, the computation returns exactly under that
condition (`Ends.isOk_iff`). -/

namespace Influence

open scoped Exact

variable {ε σ β γ δ : Type}

/-- The run returns a value and a state in `R`, or fails for a cause in `E`. -/
inductive Ends (E : ε → Prop) (R : β → σ → Prop) : Except ε β × σ → Prop
  | ok {b : β} {s : σ} : R b s → Ends E R (.ok b, s)
  | error {e : ε} {s : σ} : E e → Ends E R (.error e, s)

namespace Ends

variable {E E' : ε → Prop} {R R' : β → σ → Prop} {Q : γ → σ → Prop} {x : ExceptT ε (StateM σ) β}
  {s : σ} {p : Except ε β × σ}

theorem imp (h : Ends E R p) (hE : ∀ e, E e → E' e) (hR : ∀ b s, R b s → R' b s) : Ends E' R' p := by
  cases h with
  | ok h => exact .ok (hR _ _ h)
  | error h => exact .error (hE _ h)

theorem cause (h : Ends E R p) {e : ε} (he : p.1 = .error e) : E e := by
  cases h with
  | ok h => cases he
  | error h =>
      cases he
      exact h

theorem result (h : Ends E R p) {b : β} (hb : p.1 = .ok b) : R b p.2 := by
  cases h with
  | ok h =>
      cases hb
      exact h
  | error h => cases hb

/-- What every return implies and no failure goes together with decides about the return. -/
theorem isOk_iff {P : Prop} (h : Ends (fun _ => ¬P) (fun _ _ => P) p) : (∃ b, p.1 = .ok b) ↔ P := by
  cases h with
  | ok h => exact iff_of_true ⟨_, rfl⟩ h
  | error h => exact iff_of_false (by rintro ⟨_, ⟨⟩⟩) h

theorem and_returns (h : Ends E R (runFrom x s)) :
    Ends E (fun b s' => R b s' ∧ Returns x s b s') (runFrom x s) := by
  unfold Returns
  revert h
  generalize runFrom x s = p
  intro h
  cases h with
  | ok h => exact .ok ⟨h, rfl⟩
  | error h => exact .error h

/-- A computation without a cause to fail returns. -/
theorem exists_returns (h : Ends E R (runFrom x s)) (hE : ∀ e, ¬E e) :
    ∃ b s', Returns x s b s' ∧ R b s' := by
  unfold Returns
  revert h
  generalize runFrom x s = p
  intro h
  cases h with
  | ok h => exact ⟨_, _, rfl, h⟩
  | error h => exact absurd h (hE _)

/-! ### Steps -/

theorem of_returns {b : β} {s' : σ} (hx : Returns x s b s') (h : R b s') : Ends E R (runFrom x s) := by
  rw [hx]
  exact .ok h

/-- In the exact build no run is stopped. -/
theorem of_leads {E : Error → Prop} {x : ExceptT Error (StateM σ) β} (h : Leads x s R) :
    Ends E R (runFrom x s) := by
  obtain ⟨b, s', hx, hR⟩ := h.exists_returns
  exact of_returns hx hR

theorem pure {b : β} (h : R b s) : Ends E R (runFrom (Pure.pure b : ExceptT ε (StateM σ) β) s) :=
  .ok h

theorem bind {f : β → ExceptT ε (StateM σ) γ} (h : Ends E R (runFrom x s))
    (hf : ∀ b s', R b s' → Ends E Q (runFrom (f b) s')) : Ends E Q (runFrom (x >>= f) s) := by
  rw [runFrom_bind]
  revert h
  generalize runFrom x s = p
  intro h
  cases h with
  | ok h => exact hf _ _ h
  | error h => exact .error h

theorem throw {e : ε} (h : E e) :
    Ends E R (runFrom (MonadExcept.throw e : ExceptT ε (StateM σ) β) s) := .error h

theorem guard {q : Prop} [Decidable q] {e : ε} (hE : q → E e)
    (h : ¬q → Ends E R (runFrom x s)) :
    Ends E R (runFrom
      (if q then (MonadExcept.throw e : ExceptT ε (StateM σ) PUnit) >>= fun _ => x else x) s) := by
  by_cases hq : q
  · rw [if_pos hq]
    exact bind (R := fun _ _ => False) (throw (hE hq)) fun _ _ h => h.elim
  · rw [if_neg hq]
    exact h hq

theorem except {z : Except ε β} (hE : ∀ e, z = .error e → E e) (h : ∀ b, z = .ok b → R b s) :
    Ends E R (runFrom (liftM z : ExceptT ε (StateM σ) β) s) := by
  cases z with
  | ok b => exact .ok (h b rfl)
  | error e => exact .error (hE e rfl)

/-- A check that does not look at the state. -/
theorem check {z : Except ε δ} {f : δ → ExceptT ε (StateM σ) γ} (hE : ∀ e, z = .error e → E e)
    (h : ∀ d, z = .ok d → Ends E Q (runFrom (f d) s)) :
    Ends E Q (runFrom ((liftM z : ExceptT ε (StateM σ) δ) >>= f) s) :=
  bind (except (R := fun d s' => z = .ok d ∧ s' = s) hE fun _ hd => ⟨hd, rfl⟩) fun d _ hd =>
    hd.2 ▸ h d hd.1

/-- A step reads the state. -/
theorem get {f : σ → ExceptT ε (StateM σ) γ} (h : Ends E Q (runFrom (f s) s)) :
    Ends E Q (runFrom (MonadState.get >>= f) s) := h

/-! ### Loops -/

/-- A loop over a list, with a relation that may look at what is left of the list. -/
theorem foldlM {I : List γ → β → σ → Prop} {f : β → γ → ExceptT ε (StateM σ) β}
    (hstep : ∀ c l b s, I (c :: l) b s → Ends E (I l) (runFrom (f b c) s))
    {l : List γ} {b : β} (h : I l b s) : Ends E (I []) (runFrom (l.foldlM f b) s) := by
  induction l generalizing b s with
  | nil => exact pure h
  | cons c l ih =>
      rw [List.foldlM_cons]
      exact bind (hstep c l b s h) fun _ _ h => ih h

/-- A list of computations, with a relation that may look at what is left of the list. -/
theorem mapM {W : List γ → σ → Prop} {V : γ → β → Prop} {f : γ → ExceptT ε (StateM σ) β}
    (hstep : ∀ c l s, W (c :: l) s → Ends E (fun b s' => V c b ∧ W l s') (runFrom (f c) s))
    {l : List γ} (h : W l s) :
    Ends E (fun bs s' => List.Forall₂ V l bs ∧ W [] s') (runFrom (l.mapM f) s) := by
  induction l generalizing s with
  | nil =>
      rw [List.mapM_nil]
      exact pure ⟨.nil, h⟩
  | cons c l ih =>
      rw [List.mapM_cons]
      refine bind (hstep c l s h) fun b s' hb => ?_
      refine bind (ih hb.2) fun bs s'' hbs => ?_
      exact pure ⟨.cons hb.1 hbs.1, hbs.2⟩

end Ends

end Influence
