import Influence.Proofs.Run

/-! # Runs in lockstep

Two runs are in lockstep if both return related values in related states, or both fail for the same
cause.  Computations whose steps are in lockstep are so as a whole (`Lockstep.bind`), and so are
loops (`Lockstep.foldlM`, `Lockstep.mapM`).

The operations on factors are in lockstep on factors with the same table: they make factors with the
same table again, whatever creation numbers the two registries have reached (`Copies`).  A failure
that names the number of a factor would tell the two runs apart, which is why an operation that asks
for an axis asks here that there is one. -/

namespace Influence

variable {ε σ β γ δ : Type}

/-- Both runs return, with related values and states, or both fail for the same cause in states that
are related too. -/
inductive Lockstep (E : σ → σ → Prop) (R : β → σ → β → σ → Prop) :
    Except ε β × σ → Except ε β × σ → Prop
  | ok {b c : β} {s t : σ} : R b s c t → Lockstep E R (.ok b, s) (.ok c, t)
  | error {e : ε} {s t : σ} : E s t → Lockstep E R (.error e, s) (.error e, t)

namespace Lockstep

variable {E E' : σ → σ → Prop} {R R' : β → σ → β → σ → Prop} {Q : γ → σ → γ → σ → Prop}
  {x y : ExceptT ε (StateM σ) β} {s t : σ}

theorem imp {p q : Except ε β × σ} (h : Lockstep E R p q) (hE : ∀ s t, E s t → E' s t)
    (hR : ∀ b s c t, R b s c t → R' b s c t) : Lockstep E' R' p q := by
  cases h with
  | ok h => exact .ok (hR _ _ _ _ h)
  | error h => exact .error (hE _ _ h)

/-- The states that two runs leave. -/
theorem states {p q : Except ε β × σ} (h : Lockstep E R p q) (hR : ∀ b s c t, R b s c t → E s t) :
    E p.2 q.2 := by
  cases h with
  | ok h => exact hR _ _ _ _ h
  | error h => exact h

/-- What is the same in related values is the same in the results. -/
theorem map_eq {p q : Except ε β × σ} (h : Lockstep E R p q) {g : β → γ}
    (hR : ∀ b s c t, R b s c t → g b = g c) : p.1.map g = q.1.map g := by
  cases h with
  | ok h => exact congrArg Except.ok (hR _ _ _ _ h)
  | error h => rfl

theorem and_returns (h : Lockstep E R (runFrom x s) (runFrom y t)) :
    Lockstep E (fun b s' c t' => R b s' c t' ∧ Returns x s b s' ∧ Returns y t c t')
      (runFrom x s) (runFrom y t) := by
  unfold Returns
  revert h
  generalize runFrom x s = p
  generalize runFrom y t = q
  intro h
  cases h with
  | ok h => exact .ok ⟨h, rfl, rfl⟩
  | error h => exact .error h

/-! ### Steps -/

theorem of_returns {b c : β} {s' t' : σ} (hx : Returns x s b s') (hy : Returns y t c t')
    (h : R b s' c t') : Lockstep E R (runFrom x s) (runFrom y t) := by
  rw [hx, hy]
  exact .ok h

theorem pure {b c : β} (h : R b s c t) :
    Lockstep E R (runFrom (Pure.pure b : ExceptT ε (StateM σ) β) s) (runFrom (Pure.pure c) t) :=
  of_returns (returns_pure.mpr ⟨rfl, rfl⟩) (returns_pure.mpr ⟨rfl, rfl⟩) h

theorem bind {f g : β → ExceptT ε (StateM σ) γ} (h : Lockstep E R (runFrom x s) (runFrom y t))
    (hf : ∀ b s' c t', R b s' c t' → Lockstep E Q (runFrom (f b) s') (runFrom (g c) t')) :
    Lockstep E Q (runFrom (x >>= f) s) (runFrom (y >>= g) t) := by
  rw [runFrom_bind, runFrom_bind]
  revert h
  generalize runFrom x s = p
  generalize runFrom y t = q
  intro h
  cases h with
  | ok h => exact hf _ _ _ _ h
  | error h => exact .error h

/-- One computation from one state, and then two that depend on what it returns. -/
theorem bind_same {f g : β → ExceptT ε (StateM σ) γ}
    (h : ∀ b s', Returns x s b s' → Lockstep Eq Q (runFrom (f b) s') (runFrom (g b) s')) :
    Lockstep Eq Q (runFrom (x >>= f) s) (runFrom (x >>= g) s) := by
  rw [runFrom_bind, runFrom_bind]
  match hrun : runFrom x s with
  | (.ok b, s') => exact h b s' hrun
  | (.error e, s') => exact .error rfl

theorem throw {e : ε} (h : E s t) :
    Lockstep E R (runFrom (throw e : ExceptT ε (StateM σ) β) s) (runFrom (throw e) t) := .error h

theorem guard {p q : Prop} [Decidable p] [Decidable q] {e : ε} (hpq : p ↔ q) (hE : E s t)
    (h : ¬p → Lockstep E R (runFrom x s) (runFrom y t)) :
    Lockstep E R
      (runFrom (if p then (MonadExcept.throw e : ExceptT ε (StateM σ) PUnit) >>= fun _ => x else x) s)
      (runFrom (if q then (MonadExcept.throw e : ExceptT ε (StateM σ) PUnit) >>= fun _ => y else y) t) := by
  by_cases hp : p
  · rw [if_pos hp, if_pos (hpq.mp hp)]
    exact bind (R := fun _ _ _ _ => False) (throw hE) fun _ _ _ _ h => h.elim
  · rw [if_neg hp, if_neg (hpq.not.mp hp)]
    exact h hp

/-- A check that does not look at the state. -/
theorem except {z : Except ε β} (hE : E s t) (h : ∀ b, z = .ok b → R b s b t) :
    Lockstep E R (runFrom (liftM z : ExceptT ε (StateM σ) β) s) (runFrom (liftM z) t) := by
  cases z with
  | ok b => exact .ok (h b rfl)
  | error e => exact .error hE

/-! ### Loops -/

/-- A loop over a list, with a relation that may look at what is left of the list. -/
theorem foldlM {I : List γ → β → σ → β → σ → Prop} {f g : β → γ → ExceptT ε (StateM σ) β}
    (hstep : ∀ d l b s c t, I (d :: l) b s c t →
      Lockstep E (I l) (runFrom (f b d) s) (runFrom (g c d) t))
    {l : List γ} {b c : β} (h : I l b s c t) :
    Lockstep E (I []) (runFrom (l.foldlM f b) s) (runFrom (l.foldlM g c) t) := by
  induction l generalizing b c s t with
  | nil => exact pure h
  | cons d l ih =>
      rw [List.foldlM_cons, List.foldlM_cons]
      exact bind (hstep d l b s c t h) fun _ _ _ _ h => ih h

/-- Two lists of computations, related one by one. -/
theorem mapM {W : σ → σ → Prop} {A : γ → δ → Prop} {V : β → β → Prop}
    {f : γ → ExceptT ε (StateM σ) β} {g : δ → ExceptT ε (StateM σ) β}
    (hstep : ∀ c d s t, A c d → W s t →
      Lockstep E (fun b s b' t => V b b' ∧ W s t) (runFrom (f c) s) (runFrom (g d) t))
    {cs : List γ} {ds : List δ} (h : List.Forall₂ A cs ds) (hW : W s t) :
    Lockstep E (fun bs s bs' t => List.Forall₂ V bs bs' ∧ W s t) (runFrom (cs.mapM f) s)
      (runFrom (ds.mapM g) t) := by
  induction h generalizing s t with
  | nil =>
      rw [List.mapM_nil, List.mapM_nil]
      exact pure ⟨.nil, hW⟩
  | cons hcd _ ih =>
      rw [List.mapM_cons, List.mapM_cons]
      refine bind (hstep _ _ _ _ hcd hW) fun b s' b' t' hb => ?_
      refine bind (ih hb.2) fun bs s'' bs' t'' hbs => ?_
      exact pure ⟨.cons hb.1 hbs.1, hbs.2⟩

/-- Two lists of steps, related one by one. -/
theorem forM {W : σ → σ → Prop} {A : γ → δ → Prop} {f : γ → ExceptT ε (StateM σ) PUnit}
    {g : δ → ExceptT ε (StateM σ) PUnit}
    (hstep : ∀ c d s t, A c d → W s t →
      Lockstep E (fun _ s _ t => W s t) (runFrom (f c) s) (runFrom (g d) t))
    {cs : List γ} {ds : List δ} (h : List.Forall₂ A cs ds) (hW : W s t) :
    Lockstep E (fun _ s _ t => W s t) (runFrom (cs.forM f) s) (runFrom (ds.forM g) t) := by
  induction h generalizing s t with
  | nil => exact pure hW
  | cons hcd _ ih =>
      change Lockstep _ _ (runFrom (f _ >>= fun _ => _) s) (runFrom (g _ >>= fun _ => _) t)
      exact bind (hstep _ _ _ _ hcd hW) fun _ _ _ _ hW => ih hW

end Lockstep

/-! ### Registries -/

/-- Two registries have both handed out more creation numbers. -/
def BothLater (r₀ t₀ r t : Registry) : Prop := r₀.Later r ∧ t₀.Later t

theorem BothLater.refl (r t : Registry) : BothLater r t r t := ⟨.refl r, .refl t⟩

theorem BothLater.trans {r₀ t₀ r t r' t' : Registry} (h : BothLater r₀ t₀ r t)
    (h' : BothLater r t r' t') : BothLater r₀ t₀ r' t' := ⟨h.1.trans h'.1, h.2.trans h'.2⟩

/-! ### Operations on factors -/

section

variable {α : Type}

/-- The factor has been made since the earlier registry. -/
structure Factor.IsNew (r₀ : Registry) (f : Factor α) (r : Registry) : Prop where
  later : r₀.Later r
  le : r₀.nextFactor ≤ f.id
  lt : f.id < r.nextFactor

theorem Factor.isNew_after (t : Table α) (r : Registry) :
    (⟨r.nextFactor, t⟩ : Factor α).IsNew r (r.after 1) :=
  ⟨⟨1, rfl⟩, Nat.le_refl _, Nat.lt_succ_self _⟩

theorem Factor.IsNew.later_trans {r₀ r r' : Registry} {f : Factor α} (h : f.IsNew r₀ r)
    (h' : r.Later r') : f.IsNew r₀ r' := ⟨h.later.trans h', h.le, Nat.lt_of_lt_of_le h.lt h'.le⟩

theorem Factor.IsNew.since {r₀ r₁ r : Registry} {f : Factor α} (h : f.IsNew r₁ r)
    (h' : r₀.Later r₁) : f.IsNew r₀ r := ⟨h'.trans h.later, h'.le.trans h.le, h.lt⟩

/-- Two factors of one table, each made since the earlier one of its registries. -/
structure Copies (r₀ t₀ : Registry) (u : Table α) (f : Factor α) (r : Registry) (g : Factor α)
    (t : Registry) : Prop where
  left : f.table = u
  right : g.table = u
  isNew_left : f.IsNew r₀ r
  isNew_right : g.IsNew t₀ t

namespace Copies

variable {r₀ t₀ r t : Registry} {u : Table α} {f g : Factor α}

theorem bothLater (h : Copies r₀ t₀ u f r g t) : BothLater r₀ t₀ r t :=
  ⟨h.isNew_left.later, h.isNew_right.later⟩

theorem later {r' t' : Registry} (h : Copies r₀ t₀ u f r g t) (h' : BothLater r t r' t') :
    Copies r₀ t₀ u f r' g t' :=
  ⟨h.left, h.right, h.isNew_left.later_trans h'.1, h.isNew_right.later_trans h'.2⟩

theorem since {r₁ t₁ : Registry} (h : Copies r₁ t₁ u f r g t) (h' : BothLater r₀ t₀ r₁ t₁) :
    Copies r₀ t₀ u f r g t :=
  ⟨h.left, h.right, h.isNew_left.since h'.1, h.isNew_right.since h'.2⟩

end Copies

/-- Factors with the same tables, one by one, with what holds of each of the tables. -/
theorem forall₂_table {fs gs : List (Factor α)} {us : List (Table α)} {P : Table α → Prop}
    (hfs : fs.map (·.table) = us) (hgs : gs.map (·.table) = us) (hus : ∀ u ∈ us, P u) :
    List.Forall₂ (fun f g => f.table = g.table ∧ P g.table) fs gs := by
  subst hgs
  induction gs generalizing fs with
  | nil =>
      rw [List.map_eq_nil_iff.mp hfs]
      exact .nil
  | cons g gs ih =>
      obtain ⟨f, fs, rfl, hf, hfs⟩ := List.map_eq_cons_iff.mp hfs
      obtain ⟨hg, hgs⟩ := List.forall_mem_cons.mp hus
      exact .cons ⟨hf, hg⟩ (ih hfs hgs)

namespace Lockstep

variable {r₀ t₀ r t : Registry} {f g : Factor α} {u : Table α} {v : Variable}
  {E : Registry → Registry → Prop}

theorem make (h : BothLater r₀ t₀ r t) (u : Table α) :
    Lockstep E (Copies r₀ t₀ u) (runFrom (liftM (Factor.make u) : RegistryM (Factor α)) r)
      (runFrom (liftM (Factor.make u)) t) := by
  refine of_returns (Factor.returns_make.mpr ⟨rfl, rfl⟩) (Factor.returns_make.mpr ⟨rfl, rfl⟩)
    ⟨rfl, rfl, ?_, ?_⟩
  · exact ⟨h.1.after 1, h.1.le, Nat.lt_succ_self _⟩
  · exact ⟨h.2.after 1, h.2.le, Nat.lt_succ_self _⟩

theorem requireAxis (h : BothLater r₀ t₀ r t) (hf : f.table = u) (hg : g.table = u)
    (hv : u.mentions v) :
    Lockstep E (fun _ r _ t => BothLater r₀ t₀ r t) (runFrom (f.requireAxis v) r)
      (runFrom (g.requireAxis v) t) :=
  of_returns (Factor.returns_requireAxis (u := ()).mpr ⟨by rwa [Factor.mentions, hf], rfl⟩)
    (Factor.returns_requireAxis (u := ()).mpr ⟨by rwa [Factor.mentions, hg], rfl⟩) h

variable [Build] [Cell α]

theorem create (h : BothLater r₀ t₀ r t) (axes : Axes) (cells : Array α) :
    Lockstep (BothLater r₀ t₀) (Copies r₀ t₀ ⟨axes, cells⟩)
      (runFrom (Factor.create axes (some cells)) r)
      (runFrom (Factor.create axes (some cells)) t) := by
  unfold Factor.create
  cases Axes.firstRepeat? [] axes with
  | none => exact guard .rfl h fun _ => make h _
  | some u => exact bind (R := fun _ _ _ _ => False) (throw h) fun _ _ _ _ h => h.elim

/-- Whether there is room does not depend on the registry. -/
theorem requireRoom (h : BothLater r₀ t₀ r t) (n : ℕ) :
    Lockstep (BothLater r₀ t₀) (fun _ r _ t => BothLater r₀ t₀ r t)
      (runFrom (Factor.requireRoom n) r) (runFrom (Factor.requireRoom n) t) := by
  unfold Factor.requireRoom
  split
  · exact pure h
  · exact throw h

theorem ones (h : BothLater r₀ t₀ r t) (axes : Axes) :
    Lockstep (BothLater r₀ t₀) (Copies r₀ t₀ (.ones axes))
      (runFrom (Factor.ones axes : RegistryM (Factor α)) r) (runFrom (Factor.ones axes) t) :=
  bind (requireRoom h _) fun _ _ _ _ h => create h _ _

theorem fill (h : BothLater r₀ t₀ r t) (p : Filling α) :
    Lockstep (BothLater r₀ t₀) (Copies r₀ t₀ p.table) (runFrom (Factor.fill p) r)
      (runFrom (Factor.fill p) t) :=
  bind (except (R := fun _ r _ t => BothLater r₀ t₀ r t) h fun _ _ => h) fun _ _ _ _ h => make h _

theorem foldAll (h : BothLater r₀ t₀ r t) (op : Fold) {fs gs : List (Factor α)}
    {us : List (Table α)} (hfs : fs.map (·.table) = us) (hgs : gs.map (·.table) = us) :
    Lockstep (BothLater r₀ t₀) (Copies r₀ t₀ (.foldAll op us))
      (runFrom (Factor.foldAll op fs) r) (runFrom (Factor.foldAll op gs) t) := by
  subst hgs
  have hlength : fs.length = gs.length := by simpa using congrArg List.length hfs
  match fs, gs with
  | [f], [g] =>
      have hfg : f.table = g.table := by simpa using hfs
      change Lockstep _ (Copies r₀ t₀ g.table) (runFrom (liftM (Factor.make f.table)) r) _
      rw [hfg]
      exact make h _
  | [], [] => exact fill h _
  | f :: f' :: fs, g :: g' :: gs =>
      change Lockstep _ _ (runFrom (Factor.fill (Table.joining op (List.map _ (f :: f' :: fs)))) r) _
      rw [hfs]
      exact fill h _

theorem product (h : BothLater r₀ t₀ r t) {fs gs : List (Factor α)} {us : List (Table α)}
    (hfs : fs.map (·.table) = us) (hgs : gs.map (·.table) = us) :
    Lockstep (BothLater r₀ t₀) (Copies r₀ t₀ (.product us))
      (runFrom (Factor.product fs) r) (runFrom (Factor.product gs) t) := foldAll h .product hfs hgs

theorem sum (h : BothLater r₀ t₀ r t) {fs gs : List (Factor α)} {us : List (Table α)}
    (hfs : fs.map (·.table) = us) (hgs : gs.map (·.table) = us) :
    Lockstep (BothLater r₀ t₀) (Copies r₀ t₀ (.sum us))
      (runFrom (Factor.sum fs) r) (runFrom (Factor.sum gs) t) := foldAll h .sum hfs hgs

theorem scale (h : BothLater r₀ t₀ r t) (hf : f.table = u) (hg : g.table = u) (weight : α) :
    Lockstep (BothLater r₀ t₀) (Copies r₀ t₀ (u.scale weight)) (runFrom (f.scale weight) r)
      (runFrom (g.scale weight) t) := by
  refine bind (make h (.scalar weight)) fun a r b t hcopies => ?_
  have hfs : [f, a].map (·.table) = [u, .scalar weight] := by
    rw [List.map_cons, List.map_singleton, hf, hcopies.left]
  have hgs : [g, b].map (·.table) = [u, .scalar weight] := by
    rw [List.map_cons, List.map_singleton, hg, hcopies.right]
  exact (product hcopies.bothLater hfs hgs).imp (fun _ _ => id) fun _ _ _ _ => id

theorem restrict (h : BothLater r₀ t₀ r t) (hf : f.table = u) (hg : g.table = u)
    (hv : u.mentions v) (k : ℕ) :
    Lockstep (BothLater r₀ t₀) (Copies r₀ t₀ (u.restrict v k)) (runFrom (f.restrict v k) r)
      (runFrom (g.restrict v k) t) := by
  unfold Factor.restrict
  refine bind (requireAxis h hf hg hv) ?_
  intro _ r _ t h
  rw [hf, hg]
  exact guard .rfl h fun _ => fill h _

theorem sumOut (h : BothLater r₀ t₀ r t) (hf : f.table = u) (hg : g.table = u)
    (hv : u.mentions v) :
    Lockstep (BothLater r₀ t₀) (Copies r₀ t₀ (u.sumOut v)) (runFrom (f.sumOut v) r)
      (runFrom (g.sumOut v) t) := by
  unfold Factor.sumOut
  refine bind (requireAxis h hf hg hv) ?_
  intro _ r _ t h
  rw [hf, hg]
  exact fill h _

theorem marginal (h : BothLater r₀ t₀ r t) (hf : f.table = u) (hg : g.table = u)
    (hv : u.mentions v) :
    Lockstep (BothLater r₀ t₀) (Copies r₀ t₀ (u.marginal v)) (runFrom (f.marginal v) r)
      (runFrom (g.marginal v) t) := by
  unfold Factor.marginal
  refine bind (requireAxis h hf hg hv) fun _ r _ t h => ?_
  rw [hf, hg]
  exact bind (requireRoom h _) fun _ _ _ _ h => make h _

theorem rearrange (h : BothLater r₀ t₀ r t) (hf : f.table = u) (hg : g.table = u) (order : Axes) :
    Lockstep (BothLater r₀ t₀) (Copies r₀ t₀ (u.rearrange order)) (runFrom (f.rearrange order) r)
      (runFrom (g.rearrange order) t) := by
  unfold Factor.rearrange Factor.isOrder Factor.axes Factor.mentions Table.rearrange
  rw [hf, hg]
  refine guard .rfl h fun _ => ?_
  split
  · exact make h _
  · exact fill h _

end Lockstep

end

end Influence
