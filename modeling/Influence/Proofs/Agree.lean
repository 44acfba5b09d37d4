import Influence.Proofs.Keeps

/-! # Two computations that do the same

Two runs `Agree E P Q` if they give the same, unless the first one is stopped for a cause in `E`: both
return one value in one state, related by `Q`, or both fail for one cause in one state, which satisfies
`P`.  This is proved along the structure of the two computations, so that where they differ in a step it
has to be shown from what holds at that point that the step does the same. -/

namespace Influence

variable {ε σ β γ : Type}

/-- The first run is stopped, or both runs return one value in one state or fail for one cause in one
state. -/
inductive Agree (E : ε → Prop) (P : σ → Prop) (Q : β → σ → Prop) :
    Except ε β × σ → Except ε β × σ → Prop
  | ok {b : β} {s : σ} : Q b s → Agree E P Q (.ok b, s) (.ok b, s)
  | error {e : ε} {s : σ} : P s → Agree E P Q (.error e, s) (.error e, s)
  | stop {e : ε} {s : σ} {q : Except ε β × σ} : E e → Agree E P Q (.error e, s) q

namespace Agree

variable {E : ε → Prop} {P P' : σ → Prop} {Q Q' : β → σ → Prop} {R : γ → σ → Prop}
  {p q : Except ε β × σ} {x y : ExceptT ε (StateM σ) β} {s : σ}

theorem imp (h : Agree E P Q p q) (hP : ∀ s, P s → P' s) (hQ : ∀ b s, Q b s → Q' b s) :
    Agree E P' Q' p q := by
  cases h with
  | ok h => exact .ok (hQ _ _ h)
  | error h => exact .error (hP _ h)
  | stop h => exact .stop h

theorem eq (h : Agree E P Q p q) (hE : ∀ e, p.1 = .error e → ¬E e) : p = q := by
  cases h with
  | ok | error => rfl
  | stop h => exact absurd h (hE _ rfl)

theorem state (h : Agree E P Q p q) (hE : ∀ e, p.1 = .error e → ¬E e) (hQ : ∀ b s, Q b s → P s) :
    P q.2 := by
  cases h with
  | ok h => exact hQ _ _ h
  | error h => exact h
  | stop h => exact absurd h (hE _ rfl)

theorem result (h : Agree E P Q p q) {b : β} (hb : p.1 = .ok b) : p = q ∧ Q b q.2 := by
  cases h with
  | ok h =>
      cases hb
      exact ⟨rfl, h⟩
  | error | stop => cases hb

/-! ### Steps -/

theorem of_run (hP : ∀ e s', runFrom x s = (.error e, s') → P s')
    (hQ : ∀ b s', Returns x s b s' → Q b s') : Agree E P Q (runFrom x s) (runFrom x s) := by
  match h : runFrom x s with
  | (.ok b, s') => exact .ok (hQ b s' h)
  | (.error e, s') => exact .error (hP e s' h)

/-- One computation that keeps a preorder. -/
theorem of_keeps {O : σ → σ → Prop} (hx : Keeps O x) (hP : ∀ s', O s s' → P s')
    (hQ : ∀ b s', O s s' → Q b s') : Agree E P Q (runFrom x s) (runFrom x s) := by
  refine of_run (fun e s' h => hP s' ?_) fun b s' h => hQ b s' (hx.of_returns h)
  have hs := hx s
  rwa [h] at hs

/-- What is known of what the first computation returns. -/
theorem and_returns (h : Agree E P Q (runFrom x s) (runFrom y s)) :
    Agree E P (fun b s' => Q b s' ∧ Returns x s b s') (runFrom x s) (runFrom y s) := by
  unfold Returns
  revert h
  generalize runFrom x s = p
  generalize runFrom y s = q
  intro h
  cases h with
  | ok h => exact .ok ⟨h, rfl⟩
  | error h => exact .error h
  | stop h => exact .stop h

/-- What the first computation keeps. -/
theorem and_keeps {O : σ → σ → Prop} (h : Agree E P Q (runFrom x s) (runFrom y s)) (hx : Keeps O x) :
    Agree E (fun s' => P s' ∧ O s s') (fun b s' => Q b s' ∧ O s s' ∧ Returns x s b s') (runFrom x s)
      (runFrom y s) := by
  have hs := hx s
  have h := h.and_returns
  unfold Returns at h ⊢
  revert hs h
  generalize runFrom x s = p
  generalize runFrom y s = q
  intro hs h
  cases h with
  | ok h => exact .ok ⟨h.1, hs, h.2⟩
  | error h => exact .error ⟨h, hs⟩
  | stop h => exact .stop h

theorem pure {b : β} (h : Q b s) :
    Agree E P Q (runFrom (Pure.pure b : ExceptT ε (StateM σ) β) s) (runFrom (Pure.pure b) s) := .ok h

theorem bind {f g : β → ExceptT ε (StateM σ) γ} (h : Agree E P Q (runFrom x s) (runFrom y s))
    (hf : ∀ b s', Q b s' → Agree E P R (runFrom (f b) s') (runFrom (g b) s')) :
    Agree E P R (runFrom (x >>= f) s) (runFrom (y >>= g) s) := by
  rw [runFrom_bind, runFrom_bind]
  revert h
  generalize runFrom x s = p
  generalize runFrom y s = q
  intro h
  cases h with
  | ok h => exact hf _ _ h
  | error h => exact .error h
  | stop h => exact .stop h

theorem after {f g : β → ExceptT ε (StateM σ) γ} {b : β} {s' : σ} (hx : Returns x s b s')
    (h : Agree E P R (runFrom (f b) s') (runFrom (g b) s')) :
    Agree E P R (runFrom (x >>= f) s) (runFrom (x >>= g) s) := by
  rw [runFrom_bind, runFrom_bind, hx]
  exact h

/-- A check that both begin with. -/
theorem guard {p : Prop} [Decidable p] {e : ε} (hP : P s)
    (h : ¬p → Agree E P Q (runFrom x s) (runFrom y s)) :
    Agree E P Q
      (runFrom (if p then (MonadExcept.throw e : ExceptT ε (StateM σ) PUnit) >>= fun _ => x else x) s)
      (runFrom (if p then (MonadExcept.throw e : ExceptT ε (StateM σ) PUnit) >>= fun _ => y else y)
        s) := by
  by_cases hp : p
  · rw [if_pos hp, if_pos hp]
    exact .error hP
  · rw [if_neg hp, if_neg hp]
    exact h hp

/-- A check that does not look at the state. -/
theorem check {z : Except ε γ} {f g : γ → ExceptT ε (StateM σ) β} (hP : P s)
    (h : ∀ c, z = .ok c → Agree E P Q (runFrom (f c) s) (runFrom (g c) s)) :
    Agree E P Q (runFrom ((liftM z : ExceptT ε (StateM σ) γ) >>= f) s)
      (runFrom ((liftM z : ExceptT ε (StateM σ) γ) >>= g) s) := by
  cases z with
  | error e => exact .error hP
  | ok c => exact h c rfl

theorem get {f g : σ → ExceptT ε (StateM σ) γ} (h : Agree E P R (runFrom (f s) s) (runFrom (g s) s)) :
    Agree E P R (runFrom (MonadState.get >>= f) s) (runFrom (MonadState.get >>= g) s) := h

/-! ### Loops -/

/-- A loop that keeps a condition on the state. -/
theorem forM {I : σ → Prop} {f g : γ → ExceptT ε (StateM σ) PUnit} {l : List γ}
    (hstep : ∀ c ∈ l, ∀ s, I s → Agree E P (fun _ => I) (runFrom (f c) s) (runFrom (g c) s))
    (h : I s) : Agree E P (fun _ => I) (runFrom (l.forM f) s) (runFrom (l.forM g) s) := by
  induction l generalizing s with
  | nil => exact pure h
  | cons c l ih =>
      obtain ⟨hc, hl⟩ := List.forall_mem_cons.mp hstep
      exact bind (hc s h) fun _ _ h => ih hl h

/-- A list of computations that keep a condition on the state, each of which returns something in
`T`. -/
theorem mapM {I : σ → Prop} {T : β → Prop} {f g : γ → ExceptT ε (StateM σ) β} {l : List γ}
    (hstep : ∀ c ∈ l, ∀ s, I s →
      Agree E P (fun b s' => I s' ∧ T b) (runFrom (f c) s) (runFrom (g c) s)) (h : I s) :
    Agree E P (fun bs s' => I s' ∧ ∀ b ∈ bs, T b) (runFrom (l.mapM f) s) (runFrom (l.mapM g) s) := by
  induction l generalizing s with
  | nil =>
      rw [List.mapM_nil, List.mapM_nil]
      exact pure ⟨h, by simp⟩
  | cons c l ih =>
      obtain ⟨hc, hl⟩ := List.forall_mem_cons.mp hstep
      rw [List.mapM_cons, List.mapM_cons]
      refine bind (hc s h) fun b _ hb => bind (ih hl hb.1) fun bs _ hbs => pure ⟨hbs.1, ?_⟩
      exact List.forall_mem_cons.mpr ⟨hb.2, hbs.2⟩

/-- A loop with a relation that may look at what is left of the list. -/
theorem foldlM {I : List γ → β → σ → Prop} {f g : β → γ → ExceptT ε (StateM σ) β}
    (hstep : ∀ c l b s, I (c :: l) b s → Agree E P (I l) (runFrom (f b c) s) (runFrom (g b c) s))
    {l : List γ} {b : β} (h : I l b s) :
    Agree E P (I []) (runFrom (l.foldlM f b) s) (runFrom (l.foldlM g b) s) := by
  induction l generalizing b s with
  | nil => exact pure h
  | cons c l ih =>
      rw [List.foldlM_cons, List.foldlM_cons]
      exact bind (hstep c l b s h) fun _ _ h => ih h

end Agree

end Influence
