import Influence.Proofs.Outcome

/-! # Runs that follow others

A run follows another one if it returns whenever the other one returns an accepted result, with a
related result in a related state (`Follows`).  Nothing is said about a run that fails, so two runs that
follow each other may fail for different causes; `Lockstep` asks for more.

`Follows.bind` and `Follows.mapM` are the rules for composite runs, in which a step has only results to
account for that the rest of the run accepts.  Where it is known for what causes two steps fail, one
follows the other if the second one has no cause to fail where the first one returns
(`Ends.follows`). -/

namespace Influence

open scoped Exact

variable {ε σ β γ δ : Type}

/-- If the first run returns an accepted result, so does the second one, with a related result in a
related state. -/
def Follows (accepts : β → Prop) (R : β → σ → β → σ → Prop) (p q : Except ε β × σ) : Prop :=
  ∀ b s, p = (.ok b, s) → accepts b → ∃ c t, q = (.ok c, t) ∧ R b s c t

namespace Follows

variable {A A' : β → Prop} {B : γ → Prop} {R R' : β → σ → β → σ → Prop}
  {Q : γ → σ → γ → σ → Prop} {p q : Except ε β × σ} {x y : ExceptT ε (StateM σ) β} {s t : σ}

theorem imp (h : Follows A R p q) (hA : ∀ b, A' b → A b)
    (hR : ∀ b s c t, A' b → R b s c t → R' b s c t) : Follows A' R' p q := by
  intro b s hp hb
  obtain ⟨c, t, hq, hbc⟩ := h b s hp (hA b hb)
  exact ⟨c, t, hq, hR _ _ _ _ hb hbc⟩

/-! ### Steps -/

theorem pure {b c : β} (h : R b s c t) :
    Follows A R (runFrom (Pure.pure b : ExceptT ε (StateM σ) β) s) (runFrom (Pure.pure c) t) := by
  intro b₁ s₁ hb _
  obtain ⟨rfl, rfl⟩ := returns_pure.mp hb
  exact ⟨c, t, rfl, h⟩

/-- A step is followed by a step, and the rest by the rest. -/
theorem bind {f g : β → ExceptT ε (StateM σ) γ} (h : Follows A R (runFrom x s) (runFrom y t))
    (hA : ∀ b s' d s'', Returns x s b s' → Returns (f b) s' d s'' → B d → A b)
    (hf : ∀ b s' c t', R b s' c t' → Follows B Q (runFrom (f b) s') (runFrom (g c) t')) :
    Follows B Q (runFrom (x >>= f) s) (runFrom (y >>= g) t) := by
  intro d s₂ hxf hd
  obtain ⟨b, s₁, hx, hfb⟩ := returns_bind.mp hxf
  obtain ⟨c, t₁, hy, hbc⟩ := h b s₁ hx (hA b s₁ d s₂ hx hfb hd)
  obtain ⟨e, t₂, hgc, hde⟩ := hf b s₁ c t₁ hbc d s₂ hfb hd
  exact ⟨e, t₂, returns_bind.mpr ⟨c, t₁, hy, hgc⟩, hde⟩

theorem bind_returns {β' : Type} {x y : ExceptT ε (StateM σ) β'}
    {f g : β' → ExceptT ε (StateM σ) γ} {b c : β'} {s' t' : σ} (hx : Returns x s b s')
    (hy : Returns y t c t') (h : Follows B Q (runFrom (f b) s') (runFrom (g c) t')) :
    Follows B Q (runFrom (x >>= f) s) (runFrom (y >>= g) t) := by
  rw [runFrom_bind, runFrom_bind, hx, hy]
  exact h

/-! ### Loops -/

/-- Two lists of computations, related one by one, with a relation of the states that may look at what
is left of the lists. -/
theorem mapM {W : List γ → List δ → σ → σ → Prop} {C : γ → δ → Prop} {V : β → β → Prop}
    {f : γ → ExceptT ε (StateM σ) β} {g : δ → ExceptT ε (StateM σ) β}
    (hstep : ∀ c d cs ds s t, C c d → W (c :: cs) (d :: ds) s t →
      Follows A (fun b s b' t => V b b' ∧ W cs ds s t) (runFrom (f c) s) (runFrom (g d) t))
    {cs : List γ} {ds : List δ} (h : List.Forall₂ C cs ds) (hW : W cs ds s t) :
    Follows (fun bs => ∀ b ∈ bs, A b) (fun bs _ bs' _ => List.Forall₂ V bs bs')
      (runFrom (cs.mapM f) s) (runFrom (ds.mapM g) t) := by
  induction h generalizing s t with
  | nil =>
      rw [List.mapM_nil, List.mapM_nil]
      exact pure .nil
  | cons hcd _ ih =>
      rw [List.mapM_cons, List.mapM_cons]
      refine bind (hstep _ _ _ _ _ _ hcd hW) ?_ fun b s' b' t' hb => ?_
      · intro b _ bs _ _ hrest hall
        obtain ⟨_, _, _, hpure⟩ := returns_bind.mp hrest
        obtain ⟨rfl, -⟩ := returns_pure.mp hpure
        exact hall b (by simp)
      · refine bind (ih hb.2) ?_ fun bs s'' bs' t'' hbs => pure (.cons hb.1 hbs)
        intro bs _ _ _ _ hpure hall
        obtain ⟨rfl, -⟩ := returns_pure.mp hpure
        exact fun b hb => hall b (List.mem_cons_of_mem _ hb)

end Follows

/-- A run without a cause to fail follows the other one. -/
theorem Ends.follows {A : β → Prop} {E E' : ε → Prop} {R R' : β → σ → Prop}
    {p q : Except ε β × σ} (hp : Ends E R p) (hq : Ends E' R' q)
    (h : ∀ b s, R b s → A b → ∀ e, ¬E' e) : Follows A (fun b s c t => R b s ∧ R' c t) p q := by
  rintro b s rfl hA
  have hb : R b s := hp.result rfl
  cases hq with
  | ok hc => exact ⟨_, _, rfl, hb, hc⟩
  | error he => exact absurd he (h b s hb hA _)

end Influence
