import Mathlib
import Influence.Factor

/-! # Runs that return

Computations that can fail keep a state also after a failure.  `Returns x s b s'` says that `x`
started in `s` returns `b` and leaves `s'`.

A run of a composite computation is taken apart by `returns_bind`, and the `returns_` lemmas say
when the single steps return and what they leave.  The second half does this for the operations on
factors: each takes one creation number and changes nothing else in the registry. -/

namespace Influence

variable {ε σ β γ : Type}

/-- What a computation started in `s` gives, with the state that it leaves. -/
def runFrom (x : ExceptT ε (StateM σ) β) (s : σ) : Except ε β × σ := x s

/-- The computation started in `s` returns `b` and leaves `s'`. -/
def Returns (x : ExceptT ε (StateM σ) β) (s : σ) (b : β) (s' : σ) : Prop :=
  runFrom x s = (.ok b, s')

/-- A computation returns at most one value and leaves one state. -/
theorem Returns.unique {x : ExceptT ε (StateM σ) β} {s s₁ s₂ : σ} {b₁ b₂ : β}
    (h₁ : Returns x s b₁ s₁) (h₂ : Returns x s b₂ s₂) : b₁ = b₂ ∧ s₁ = s₂ := by
  have h := h₁.symm.trans h₂
  simp only [Prod.mk.injEq, Except.ok.injEq] at h
  exact h

/-- A result found by evaluation. -/
theorem exists_ok_of_toOption {x : Except ε β} {P : β → Prop} (h : ∃ b ∈ x.toOption, P b) :
    ∃ b, x = .ok b ∧ P b := by
  obtain ⟨b, hb, hP⟩ := h
  cases x with
  | error e => cases hb
  | ok c =>
      cases hb
      exact ⟨_, rfl, hP⟩

theorem exists_returns_of_toOption {x : ExceptT ε (StateM σ) β} {s : σ} {P : β → Prop}
    (h : ∃ b ∈ (runFrom x s).1.toOption, P b) : ∃ b s', Returns x s b s' ∧ P b := by
  obtain ⟨b, hb, hP⟩ := exists_ok_of_toOption h
  exact ⟨b, (runFrom x s).2, Prod.ext hb rfl, hP⟩

/-- A failure found by evaluation. -/
theorem exists_error_of_toOption {x : ExceptT ε (StateM σ) β} {s : σ}
    (h : (runFrom x s).1.toOption = none) : ∃ e s', runFrom x s = (.error e, s') := by
  match hrun : runFrom x s with
  | (.ok b, s') =>
      rw [hrun] at h
      cases h
  | (.error e, s') => exact ⟨e, s', rfl⟩

/-! ### The steps of a computation -/

theorem returns_pure {b b' : β} {s s' : σ} :
    Returns (pure b : ExceptT ε (StateM σ) β) s b' s' ↔ b = b' ∧ s = s' := by
  change ((Except.ok b, s) : Except ε β × σ) = (.ok b', s') ↔ _
  simp

theorem runFrom_bind (x : ExceptT ε (StateM σ) β) (f : β → ExceptT ε (StateM σ) γ) (s : σ) :
    runFrom (x >>= f) s =
      match runFrom x s with
      | (.ok b, s') => runFrom (f b) s'
      | (.error e, s') => (.error e, s') := by
  simp only [runFrom, bind, ExceptT.bind, ExceptT.mk, StateT.bind]
  rcases x s with ⟨_ | b, s'⟩ <;> rfl

theorem returns_bind {x : ExceptT ε (StateM σ) β} {f : β → ExceptT ε (StateM σ) γ} {s s'' : σ}
    {c : γ} :
    Returns (x >>= f) s c s'' ↔ ∃ b s', Returns x s b s' ∧ Returns (f b) s' c s'' := by
  unfold Returns
  rw [runFrom_bind]
  rcases runFrom x s with ⟨_ | b, s'⟩
  · simp
  · simp only [Prod.mk.injEq, Except.ok.injEq]
    constructor
    · intro h
      exact ⟨b, s', ⟨rfl, rfl⟩, h⟩
    · rintro ⟨_, _, ⟨rfl, rfl⟩, h⟩
      exact h

theorem runFrom_bind_of_returns {x : ExceptT ε (StateM σ) β} {f : β → ExceptT ε (StateM σ) γ}
    {s s' : σ} {b : β} (h : Returns x s b s') : runFrom (x >>= f) s = runFrom (f b) s' := by
  rw [runFrom_bind, show runFrom x s = (.ok b, s') from h]

theorem runFrom_bind_of_error {x : ExceptT ε (StateM σ) β} {f : β → ExceptT ε (StateM σ) γ}
    {s s' : σ} {e : ε} (h : runFrom x s = (.error e, s')) : runFrom (x >>= f) s = (.error e, s') := by
  rw [runFrom_bind, h]

theorem returns_get {s b s' : σ} :
    Returns (get : ExceptT ε (StateM σ) σ) s b s' ↔ s = b ∧ s = s' := by
  change ((Except.ok s, s) : Except ε σ × σ) = (.ok b, s') ↔ _
  simp

theorem returns_set {t s s' : σ} {u : PUnit} :
    Returns (set t : ExceptT ε (StateM σ) PUnit) s u s' ↔ s' = t := by
  change ((Except.ok ⟨⟩, t) : Except ε PUnit × σ) = (.ok u, s') ↔ _
  simp [eq_comm]

theorem returns_modify {f : σ → σ} {s s' : σ} {u : PUnit} :
    Returns (modify f : ExceptT ε (StateM σ) PUnit) s u s' ↔ s' = f s := by
  change ((Except.ok ⟨⟩, f s) : Except ε PUnit × σ) = (.ok u, s') ↔ _
  simp [eq_comm]

theorem returns_throw {e : ε} {s s' : σ} {b : β} :
    Returns (throw e : ExceptT ε (StateM σ) β) s b s' ↔ False := by
  change ((Except.error e, s) : Except ε β × σ) = (.ok b, s') ↔ _
  simp

theorem returns_state {x : StateM σ β} {s s' : σ} {b : β} :
    Returns (liftM x : ExceptT ε (StateM σ) β) s b s' ↔ x s = (b, s') := by
  change ((fun p : β × σ => ((Except.ok p.1, p.2) : Except ε β × σ)) (x s)) = (.ok b, s') ↔ _
  rcases x s with ⟨c, t⟩
  change ((Except.ok c, t) : Except ε β × σ) = (.ok b, s') ↔ (c, t) = (b, s')
  simp

theorem returns_except {x : Except ε β} {s s' : σ} {b : β} :
    Returns (liftM x : ExceptT ε (StateM σ) β) s b s' ↔ x = .ok b ∧ s = s' := by
  change ((x, s) : Except ε β × σ) = (.ok b, s') ↔ _
  simp

theorem returns_guard {p : Prop} [Decidable p] {e : ε} {x : ExceptT ε (StateM σ) β} {s s' : σ}
    {b : β} :
    Returns (if p then (throw e : ExceptT ε (StateM σ) PUnit) >>= fun _ => x else x) s b s' ↔ ¬p ∧ Returns x s b s' := by
  split
  next h =>
    rw [returns_bind]
    simp [h, returns_throw]
  next h => simp [h]

/-- A list is gone through element by element. -/
theorem returns_forM_cons {f : β → ExceptT ε (StateM σ) PUnit} {b : β} {bs : List β} {s s'' : σ}
    {u : PUnit} :
    Returns ((b :: bs).forM f) s u s'' ↔
      ∃ s', Returns (f b) s ⟨⟩ s' ∧ Returns (bs.forM f) s' u s'' := by
  change Returns (f b >>= fun _ => bs.forM f) s u s'' ↔ _
  simp only [returns_bind]
  constructor
  · rintro ⟨⟨⟩, s', h⟩
    exact ⟨s', h⟩
  · rintro ⟨s', h⟩
    exact ⟨⟨⟩, s', h⟩

theorem returns_forM_nil {f : β → ExceptT ε (StateM σ) PUnit} {s s' : σ} {u : PUnit} :
    Returns (([] : List β).forM f) s u s' ↔ s = s' := by
  change Returns (pure ⟨⟩) s u s' ↔ _
  simp [returns_pure]

theorem returns_foldlM_cons {f : γ → β → ExceptT ε (StateM σ) γ} {c c'' : γ} {b : β} {bs : List β}
    {s s'' : σ} :
    Returns ((b :: bs).foldlM f c) s c'' s'' ↔
      ∃ c' s', Returns (f c b) s c' s' ∧ Returns (bs.foldlM f c') s' c'' s'' := by
  rw [List.foldlM_cons, returns_bind]

theorem returns_mapM_cons {f : β → ExceptT ε (StateM σ) γ} {b : β} {bs : List β} {cs : List γ}
    {s s'' : σ} :
    Returns ((b :: bs).mapM f) s cs s'' ↔
      ∃ c s' rest, Returns (f b) s c s' ∧ Returns (bs.mapM f) s' rest s'' ∧ cs = c :: rest := by
  simp only [List.mapM_cons, returns_bind, returns_pure]
  constructor
  · rintro ⟨c, s', hc, rest, t, hrest, rfl, rfl⟩
    exact ⟨c, s', rest, hc, hrest, rfl⟩
  · rintro ⟨c, s', rest, hc, hrest, rfl⟩
    exact ⟨c, s', hc, rest, s'', hrest, rfl, rfl⟩

theorem returns_mapM_nil {f : β → ExceptT ε (StateM σ) γ} {cs : List γ} {s s' : σ} :
    Returns (([] : List β).mapM f) s cs s' ↔ cs = [] ∧ s = s' := by
  rw [List.mapM_nil, returns_pure, eq_comm]

/-- A list is gone through part by part. -/
theorem returns_mapM_append {f : β → ExceptT ε (StateM σ) γ} {as bs : List β} {cs : List γ}
    {s s'' : σ} :
    Returns ((as ++ bs).mapM f) s cs s'' ↔ ∃ cs₁ s' cs₂,
      Returns (as.mapM f) s cs₁ s' ∧ Returns (bs.mapM f) s' cs₂ s'' ∧ cs = cs₁ ++ cs₂ := by
  simp only [List.mapM_append, returns_bind, returns_pure]
  constructor
  · rintro ⟨cs₁, s', hfirst, cs₂, _, hrest, rfl, rfl⟩
    exact ⟨cs₁, s', cs₂, hfirst, hrest, rfl⟩
  · rintro ⟨cs₁, s', cs₂, hfirst, hrest, rfl⟩
    exact ⟨cs₁, s', hfirst, cs₂, s'', hrest, rfl, rfl⟩

theorem mapM_congr {f g : β → ExceptT ε (StateM σ) γ} {l : List β} (h : ∀ b ∈ l, f b = g b) :
    l.mapM f = l.mapM g := by
  induction l with
  | nil => rfl
  | cons b l ih =>
      obtain ⟨hb, hl⟩ := List.forall_mem_cons.mp h
      rw [List.mapM_cons, List.mapM_cons, hb, ih hl]

/-- The first element that fails decides. -/
theorem runFrom_mapM_of_error {f : β → ExceptT ε (StateM σ) γ} {as : List β} {cs : List γ} {b : β}
    {s s' s'' : σ} {e : ε} (has : Returns (as.mapM f) s cs s') (hb : runFrom (f b) s' = (.error e, s''))
    (bs : List β) : runFrom ((as ++ b :: bs).mapM f) s = (.error e, s'') := by
  rw [List.mapM_append, runFrom_bind_of_returns has, List.mapM_cons]
  exact runFrom_bind_of_error (runFrom_bind_of_error hb)

theorem exists_left_of_mem {R : β → γ → Prop} {bs : List β} {cs : List γ}
    (h : List.Forall₂ R bs cs) {c : γ} (hc : c ∈ cs) : ∃ b ∈ bs, R b c := by
  induction h with
  | nil => cases hc
  | @cons b c' bs cs hbc _ ih =>
      rcases List.mem_cons.mp hc with rfl | hc
      · exact ⟨b, by simp, hbc⟩
      · obtain ⟨b', hb', hR⟩ := ih hc
        exact ⟨b', by simp [hb'], hR⟩

theorem exists_right_of_mem {R : β → γ → Prop} {bs : List β} {cs : List γ}
    (h : List.Forall₂ R bs cs) {b : β} (hb : b ∈ bs) : ∃ c ∈ cs, R b c :=
  exists_left_of_mem h.flip hb

/-- Two lists that are related to one list are related to each other. -/
theorem forall₂_of_common {δ : Type} {R : β → γ → Prop} {S : β → δ → Prop} {T : γ → δ → Prop}
    {bs : List β} {cs : List γ} {ds : List δ} (hR : List.Forall₂ R bs cs) (hS : List.Forall₂ S bs ds)
    (h : ∀ b ∈ bs, ∀ c d, R b c → S b d → T c d) : List.Forall₂ T cs ds := by
  induction hR generalizing ds with
  | nil =>
      cases hS
      exact .nil
  | @cons b c bs cs hc _ ih =>
      cases hS with
      | cons hd hS =>
          exact .cons (h b List.mem_cons_self _ _ hc hd)
            (ih hS fun b hb => h b (List.mem_cons_of_mem _ hb))

theorem exists_append_of_forall₂ {R : β → γ → Prop} {as bs : List β} {cs : List γ}
    (h : List.Forall₂ R (as ++ bs) cs) :
    ∃ cs₁ cs₂, cs = cs₁ ++ cs₂ ∧ List.Forall₂ R as cs₁ ∧ List.Forall₂ R bs cs₂ := by
  induction as generalizing cs with
  | nil => exact ⟨[], cs, rfl, .nil, h⟩
  | cons a as ih =>
      obtain ⟨c, rest, ha, hrest, rfl⟩ := List.forall₂_cons_left_iff.mp h
      obtain ⟨cs₁, cs₂, rfl, has, hbs⟩ := ih hrest
      exact ⟨c :: cs₁, cs₂, rfl, .cons ha has, hbs⟩

/-- Choices for the elements of a list. -/
theorem exists_forall₂ {R : β → γ → Prop} {bs : List β} (h : ∀ b ∈ bs, ∃ c, R b c) :
    ∃ cs, List.Forall₂ R bs cs := by
  induction bs with
  | nil => exact ⟨[], .nil⟩
  | cons b bs ih =>
      obtain ⟨⟨c, hc⟩, hbs⟩ := List.forall_mem_cons.mp h
      obtain ⟨cs, hcs⟩ := ih hbs
      exact ⟨c :: cs, .cons hc hcs⟩

/-- What a list of computations returns, each has returned in some state. -/
theorem forall₂_of_returns_mapM {f : β → ExceptT ε (StateM σ) γ} {bs : List β} {cs : List γ}
    {s s' : σ} (h : Returns (bs.mapM f) s cs s') :
    List.Forall₂ (fun b c => ∃ t t', Returns (f b) t c t') bs cs := by
  induction bs generalizing s cs with
  | nil =>
      obtain ⟨rfl, -⟩ := returns_mapM_nil.mp h
      exact .nil
  | cons b bs ih =>
      obtain ⟨c, t, rest, hfirst, hrest, rfl⟩ := returns_mapM_cons.mp h
      exact .cons ⟨s, t, hfirst⟩ (ih hrest)

/-- A list of computations returns if each of them returns from every state. -/
theorem exists_returns_mapM {f : β → ExceptT ε (StateM σ) γ} {bs : List β} {s : σ}
    (h : ∀ b ∈ bs, ∀ s, ∃ c s', Returns (f b) s c s') : ∃ cs s', Returns (bs.mapM f) s cs s' := by
  induction bs generalizing s with
  | nil => exact ⟨[], s, returns_mapM_nil.mpr ⟨rfl, rfl⟩⟩
  | cons b bs ih =>
      obtain ⟨hb, hbs⟩ := List.forall_mem_cons.mp h
      obtain ⟨c, s', hfirst⟩ := hb s
      obtain ⟨cs, s'', hrest⟩ := ih hbs (s := s')
      exact ⟨c :: cs, s'', returns_mapM_cons.mpr ⟨c, s', cs, hfirst, hrest, rfl⟩⟩

/-- A list of checks leaves the state as it is. -/
theorem returns_mapM_except {g : β → Except ε γ} {l : List β} {cs : List γ} {s s' : σ} :
    Returns (l.mapM fun b => (liftM (g b) : ExceptT ε (StateM σ) γ)) s cs s' ↔
      List.Forall₂ (fun b c => g b = .ok c) l cs ∧ s = s' := by
  induction l generalizing s cs with
  | nil =>
      rw [returns_mapM_nil]
      exact and_congr_left fun _ => List.forall₂_nil_left_iff.symm
  | cons b l ih =>
      simp only [returns_mapM_cons, returns_except, ih, List.forall₂_cons_left_iff]
      constructor
      · rintro ⟨c, _, rest, ⟨hb, rfl⟩, ⟨hrest, rfl⟩, rfl⟩
        exact ⟨⟨c, rest, hb, hrest, rfl⟩, rfl⟩
      · rintro ⟨⟨c, rest, hb, hrest, rfl⟩, rfl⟩
        exact ⟨c, s, rest, ⟨hb, rfl⟩, ⟨hrest, rfl⟩, rfl⟩

/-- Checks made one after the other are one check. -/
theorem mapM_liftM (g : β → Except ε γ) (l : List β) :
    (l.mapM fun b => (liftM (g b) : ExceptT ε (StateM σ) γ)) = liftM (l.mapM g) := by
  induction l with
  | nil => rfl
  | cons b l ih =>
      rw [List.mapM_cons, List.mapM_cons, ih]
      cases g b with
      | error e => rfl
      | ok c => cases l.mapM g <;> rfl

/-! ### Checks without a state -/

theorem except_bind_eq_ok {x : Except ε β} {f : β → Except ε γ} {c : γ} :
    (x >>= f) = .ok c ↔ ∃ b, x = .ok b ∧ f b = .ok c := by
  cases x <;> simp [bind, Except.bind]

theorem except_guard_eq_ok {p : Prop} [Decidable p] {e : ε} {x : Except ε β} {b : β} :
    (if p then (throw e : Except ε PUnit) >>= fun _ => x else x) = .ok b ↔ ¬p ∧ x = .ok b := by
  split
  next h => simp [h, except_bind_eq_ok, throw, throwThe, MonadExceptOf.throw]
  next h => simp [h]

/-! ### Runs that only the build can stop -/

/-- There are runs that the build stops, at a table that is too large or at a read beyond a table. -/
def Build.CanStop [Build] : Prop := Build.strict ∨ ∃ n, ¬Build.holds n

/-- Unless the build stops it, the computation returns a value and leaves a state as described. -/
def Leads [Build] (x : ExceptT Error (StateM σ) β) (s : σ) (Q : β → σ → Prop) : Prop :=
  match runFrom x s with
  | (.ok b, s') => Q b s'
  | (.error e, _) => e.isFault ∧ Build.CanStop

namespace Leads

section

variable [Build] {x : ExceptT Error (StateM σ) β} {s : σ} {Q Q' : β → σ → Prop}
  {P : γ → σ → Prop}

theorem intro {b : β} {s' : σ} (h : Returns x s b s') (hQ : Q b s') : Leads x s Q := by
  rw [Leads, show runFrom x s = _ from h]
  exact hQ

theorem of_returns {b : β} {s' : σ} (h : Leads x s Q) (hx : Returns x s b s') : Q b s' := by
  rw [Leads, show runFrom x s = _ from hx] at h
  exact h

theorem imp (h : Leads x s Q) (hQ : ∀ b s', Q b s' → Q' b s') : Leads x s Q' := by
  unfold Leads at h ⊢
  split at h
  · exact hQ _ _ h
  · exact h

theorem pure {b : β} (h : Q b s) : Leads (Pure.pure b : ExceptT Error (StateM σ) β) s Q :=
  intro (returns_pure.mpr ⟨rfl, rfl⟩) h

theorem bind {f : β → ExceptT Error (StateM σ) γ} (h : Leads x s Q)
    (hf : ∀ b s', Q b s' → Leads (f b) s' P) : Leads (x >>= f) s P := by
  unfold Leads at h
  unfold Leads
  rw [runFrom_bind]
  split at h
  next hx =>
    rw [hx]
    exact hf _ _ h
  next hx =>
    rw [hx]
    exact h

/-- A step that returns, and then the rest. -/
theorem after {f : β → ExceptT Error (StateM σ) γ} {b : β} {t : σ} (h : Returns x s b t)
    (hf : Leads (f b) t P) : Leads (x >>= f) s P :=
  bind (Q := fun c s' => c = b ∧ s' = t) (intro h ⟨rfl, rfl⟩) fun _ _ ⟨hb, hs⟩ => hb ▸ hs ▸ hf

end

/-- No run is stopped where every table can be made. -/
theorem exists_returns {x : ExceptT Error (StateM σ) β} {s : σ} {Q : β → σ → Prop}
    (h : @Leads σ β Exact.build x s Q) : ∃ b s', Returns x s b s' ∧ Q b s' := by
  unfold Leads at h
  unfold Returns
  split at h
  next hx => exact ⟨_, _, hx, h⟩
  next => simp [Build.CanStop] at h

end Leads

/-! ### Creation numbers -/

namespace Registry

/-- The registry after `n` more creation numbers have been handed out. -/
def after (r : Registry) (n : ℕ) : Registry := { r with nextFactor := r.nextFactor + n }

@[simp] theorem after_handles (r : Registry) (n : ℕ) : (r.after n).handles = r.handles := rfl

@[simp] theorem after_nextFactor (r : Registry) (n : ℕ) :
    (r.after n).nextFactor = r.nextFactor + n := rfl

@[simp] theorem after_after (r : Registry) (m n : ℕ) : (r.after m).after n = r.after (m + n) := by
  simp [after, Nat.add_assoc]

@[simp] theorem kindOf_after (r : Registry) (n : ℕ) (v : Variable) :
    (r.after n).kindOf v = r.kindOf v := rfl

/-- The registry has handed out more creation numbers. -/
def Later (r r' : Registry) : Prop := ∃ k, r' = r.after k

namespace Later

variable {r r' r'' : Registry}

theorem refl (r : Registry) : r.Later r := ⟨0, rfl⟩

theorem after (h : r.Later r') (k : ℕ) : r.Later (r'.after k) := by
  obtain ⟨j, rfl⟩ := h
  exact ⟨j + k, after_after r j k⟩

theorem trans (h : r.Later r') (h' : r'.Later r'') : r.Later r'' := by
  obtain ⟨k, rfl⟩ := h'
  exact h.after k

theorem handles (h : r.Later r') : r'.handles = r.handles := by
  obtain ⟨k, rfl⟩ := h
  rfl

theorem kindOf (h : r.Later r') (v : Variable) : r'.kindOf v = r.kindOf v := by
  obtain ⟨k, rfl⟩ := h
  rfl

theorem le (h : r.Later r') : r.nextFactor ≤ r'.nextFactor := by
  obtain ⟨k, rfl⟩ := h
  exact Nat.le_add_right _ k

end Later

/-! ### Resolved decisions -/

theorem returns_relabelAsChance {v w : Variable} {r r' : Registry}
    (h : Returns (relabelAsChance v) r w r') :
    r.kindOf v = .decision ∧ v.id ∈ Axes.ids r.handles ∧ r' = r.withChance v := by
  unfold relabelAsChance at h
  simp only [returns_bind, returns_get] at h
  obtain ⟨_, _, ⟨rfl, rfl⟩, h⟩ := h
  cases hfind : r.find? v.id with
  | none =>
      simp only [hfind, returns_throw] at h
  | some u =>
      simp only [hfind, returns_guard, returns_bind, returns_set, returns_pure, not_not] at h
      obtain ⟨hkind, _, _, rfl, -, rfl⟩ := h
      have hid : u.id = v.id := by simpa using List.find?_some hfind
      refine ⟨by simp [kindOf, hfind, hkind], ?_, rfl⟩
      rw [← hid]
      exact List.mem_map_of_mem (List.mem_of_find?_eq_some hfind)

theorem exists_returns_relabelAsChance {v : Variable} {r : Registry} (hkind : r.kindOf v = .decision)
    (hv : v.id ∈ Axes.ids r.handles) : ∃ w, Returns (relabelAsChance v) r w (r.withChance v) := by
  unfold relabelAsChance
  cases hfind : r.find? v.id with
  | none =>
      obtain ⟨w, hw, hid⟩ := List.mem_map.mp hv
      exact absurd (List.find?_eq_none.mp hfind w hw) (by simp [hid])
  | some u =>
      have hu : u.kind = .decision := by simpa [kindOf, hfind] using hkind
      refine ⟨{ u with kind := .chance }, returns_bind.mpr ⟨r, r, returns_get.mpr ⟨rfl, rfl⟩, ?_⟩⟩
      simp only [hfind, returns_guard, returns_bind, returns_set, returns_pure, not_not]
      exact ⟨hu, (), r.withChance v, rfl, trivial, rfl⟩

/-- An issued variable has one current kind, whatever handle it is asked for with. -/
theorem kindOf_of_issued {r : Registry} {v w : Variable} (h : v.id ∈ Axes.ids r.handles)
    (hid : w.id = v.id) : r.kindOf w = r.kindOf v := by
  obtain ⟨u, hu⟩ : ∃ u, r.find? v.id = some u := by
    obtain ⟨u, hu, huv⟩ := List.mem_map.mp h
    exact Option.isSome_iff_exists.mp (List.find?_isSome.mpr ⟨u, hu, by simp [huv]⟩)
  rw [kindOf, kindOf, hid, hu]
  rfl

theorem ids_withChance (r : Registry) (v : Variable) :
    Axes.ids (r.withChance v).handles = Axes.ids r.handles := by
  simp only [withChance, Axes.ids, List.map_map]
  refine List.map_congr_left fun w _ => ?_
  rw [Function.comp_apply]
  split <;> rfl

theorem find?_withChance (r : Registry) (v : Variable) (id : VariableId) :
    (r.withChance v).find? id =
      (r.find? id).map fun w => if w.id == v.id then { w with kind := .chance } else w := by
  have hid : ∀ w : Variable, (if w.id == v.id then { w with kind := .chance } else w).id = w.id :=
    fun w => by split <;> rfl
  unfold find? withChance
  rw [List.find?_map]
  simp only [Function.comp_def, hid]

/-- A resolved decision counts as a chance variable, and nothing else changes its kind. -/
theorem kindOf_withChance {r : Registry} {v : Variable} (hv : v.id ∈ Axes.ids r.handles)
    (u : Variable) :
    (r.withChance v).kindOf u = if u.id = v.id then .chance else r.kindOf u := by
  unfold kindOf
  rw [find?_withChance]
  cases hu : r.find? u.id with
  | none =>
      by_cases hid : u.id = v.id
      · obtain ⟨w, hw, hwid⟩ := List.mem_map.mp hv
        exact absurd (List.find?_eq_none.mp hu w hw) (by simp [hwid, hid])
      · rw [if_neg hid]
        rfl
  | some w =>
      have hwid : w.id = u.id := by simpa using List.find?_some hu
      simp only [Option.map_some, Option.getD_some, hwid]
      by_cases hid : u.id = v.id
      · simp [hid]
      · simp [hid]

end Registry

/-! ### Operations on factors -/

namespace Factor

variable {α : Type} {f g : Factor α} {fs : List (Factor α)} {r r' : Registry} {v : Variable}

theorem returns_make {t : Table α} :
    Returns (liftM (make t) : RegistryM (Factor α)) r g r' ↔
      g = ⟨r.nextFactor, t⟩ ∧ r' = r.after 1 := by
  rw [returns_state]
  change ((⟨r.nextFactor, t⟩, r.after 1) : Factor α × Registry) = (g, r') ↔ _
  simp [eq_comm]

theorem returns_requireAxis {u : Unit} :
    Returns (f.requireAxis v) r u r' ↔ f.mentions v ∧ r = r' := by
  unfold requireAxis
  split
  next h => simp [h, returns_pure]
  next h => simp [h, returns_throw]

section

variable [Build]

theorem returns_requireRoom {n : ℕ} {u : Unit} :
    Returns (requireRoom n) r u r' ↔ Build.holds n ∧ r = r' := by
  unfold requireRoom
  split
  next h => simp [h, returns_pure]
  next h => simp [h, returns_throw]

variable [Cell α]

/-- A table is filled if its check succeeds. -/
theorem returns_fill {p : Filling α} :
    Returns (fill p) r g r' ↔
      p.check = .ok () ∧ g = ⟨r.nextFactor, p.table⟩ ∧ r' = r.after 1 := by
  unfold fill
  simp only [returns_bind, returns_except, returns_make]
  constructor
  · rintro ⟨_, _, ⟨hcheck, rfl⟩, h⟩
    exact ⟨hcheck, h⟩
  · rintro ⟨hcheck, h⟩
    exact ⟨(), r, ⟨hcheck, rfl⟩, h⟩

/-! An operation that returns has made the table of its name, in whatever build. -/

theorem of_returns_restrict {k : ℕ} (h : Returns (f.restrict v k) r g r') :
    f.mentions v ∧ k < v.arity ∧ g = ⟨r.nextFactor, f.table.restrict v k⟩ ∧ r' = r.after 1 := by
  unfold restrict at h
  simp only [returns_bind, returns_requireAxis, returns_guard, returns_fill, Nat.not_le] at h
  obtain ⟨_, _, ⟨hv, rfl⟩, hk, -, h⟩ := h
  exact ⟨hv, hk, h⟩

theorem of_returns_sumOut (h : Returns (f.sumOut v) r g r') :
    f.mentions v ∧ g = ⟨r.nextFactor, f.table.sumOut v⟩ ∧ r' = r.after 1 := by
  unfold sumOut at h
  simp only [returns_bind, returns_requireAxis, returns_fill] at h
  obtain ⟨_, _, ⟨hv, rfl⟩, -, h⟩ := h
  exact ⟨hv, h⟩

theorem of_returns_foldAll {op : Fold} (h : Returns (foldAll op fs) r g r') :
    g = ⟨r.nextFactor, .foldAll op (fs.map (·.table))⟩ ∧ r' = r.after 1 := by
  match fs with
  | [f] => exact returns_make.mp h
  | [] | f :: f' :: fs => exact (returns_fill.mp h).2

theorem of_returns_product (h : Returns (product fs) r g r') :
    g = ⟨r.nextFactor, .product (fs.map (·.table))⟩ ∧ r' = r.after 1 := of_returns_foldAll h

theorem of_returns_sum (h : Returns (sum fs) r g r') :
    g = ⟨r.nextFactor, .sum (fs.map (·.table))⟩ ∧ r' = r.after 1 := of_returns_foldAll h

theorem of_returns_scale {weight : α} (h : Returns (f.scale weight) r g r') :
    g = ⟨r.nextFactor + 1, f.table.scale weight⟩ ∧ r' = r.after 2 := by
  obtain ⟨w, _, hw, h⟩ := returns_bind.mp h
  obtain ⟨rfl, rfl⟩ := returns_make.mp hw
  exact of_returns_product h

theorem of_returns_marginal (h : Returns (f.marginal v) r g r') :
    f.mentions v ∧ g = ⟨r.nextFactor, f.table.marginal v⟩ ∧ r' = r.after 1 := by
  unfold marginal at h
  simp only [returns_bind, returns_requireAxis, returns_requireRoom, returns_make] at h
  obtain ⟨_, _, ⟨hv, rfl⟩, _, _, ⟨-, rfl⟩, h⟩ := h
  exact ⟨hv, h⟩

theorem of_returns_rearrange {order : Axes} (h : Returns (f.rearrange order) r g r') :
    f.isOrder order ∧ g = ⟨r.nextFactor, f.table.rearrange order⟩ ∧ r' = r.after 1 := by
  unfold rearrange axes at h
  simp only [returns_guard, Bool.not_eq_true', Bool.not_eq_false] at h
  refine ⟨h.1, ?_⟩
  unfold Table.rearrange
  split at h
  next hids => rw [if_pos hids]; exact returns_make.mp h.2
  next hids => rw [if_neg hids]; exact (returns_fill.mp h.2).2

/-! With good arguments it returns, unless the build stops it. -/

theorem leads_requireRoom (n : ℕ) : Leads (requireRoom n) r fun _ r' => r = r' := by
  unfold requireRoom
  split
  · exact Leads.pure rfl
  next hn => exact ⟨rfl, .inr ⟨n, hn⟩⟩

theorem leads_fill (p : Filling α) :
    Leads (fill p) r fun g r' => g = ⟨r.nextFactor, p.table⟩ ∧ r' = r.after 1 := by
  have hcheck : Leads (liftM p.check : RegistryM Unit) r fun _ r' => r = r' := by
    unfold Filling.check
    split
    next h => exact ⟨rfl, .inr ⟨_, by simpa using h⟩⟩
    · split
      next h =>
        rw [Bool.and_eq_true] at h
        exact ⟨rfl, .inl h.1⟩
      next => exact Leads.pure rfl
  refine Leads.bind hcheck ?_
  rintro _ _ rfl
  exact Leads.intro (returns_make.mpr ⟨rfl, rfl⟩) ⟨rfl, rfl⟩

theorem leads_restrict {k : ℕ} (hv : f.mentions v) (hk : k < v.arity) :
    Leads (f.restrict v k) r fun g r' =>
      g = ⟨r.nextFactor, f.table.restrict v k⟩ ∧ r' = r.after 1 := by
  unfold restrict
  refine Leads.after (returns_requireAxis (u := ()).mpr ⟨hv, rfl⟩) ?_
  rw [if_neg (Nat.not_le.mpr hk)]
  exact leads_fill _

theorem leads_sumOut (hv : f.mentions v) :
    Leads (f.sumOut v) r fun g r' => g = ⟨r.nextFactor, f.table.sumOut v⟩ ∧ r' = r.after 1 :=
  Leads.after (returns_requireAxis (u := ()).mpr ⟨hv, rfl⟩) (leads_fill _)

theorem leads_foldAll (op : Fold) (fs : List (Factor α)) :
    Leads (foldAll op fs) r fun g r' =>
      g = ⟨r.nextFactor, .foldAll op (fs.map (·.table))⟩ ∧ r' = r.after 1 := by
  match fs with
  | [f] => exact Leads.intro (returns_make.mpr ⟨rfl, rfl⟩) ⟨rfl, rfl⟩
  | [] | f :: f' :: fs => exact leads_fill _

theorem leads_scale (f : Factor α) (weight : α) :
    Leads (f.scale weight) r fun g r' =>
      g = ⟨r.nextFactor + 1, f.table.scale weight⟩ ∧ r' = r.after 2 :=
  Leads.after (returns_make.mpr ⟨rfl, rfl⟩) (leads_foldAll .product _)

theorem leads_marginal (hv : f.mentions v) :
    Leads (f.marginal v) r fun g r' => g = ⟨r.nextFactor, f.table.marginal v⟩ ∧ r' = r.after 1 := by
  refine Leads.after (returns_requireAxis (u := ()).mpr ⟨hv, rfl⟩) (Leads.bind (leads_requireRoom _) ?_)
  rintro _ _ rfl
  exact Leads.intro (returns_make.mpr ⟨rfl, rfl⟩) ⟨rfl, rfl⟩

theorem leads_rearrange {order : Axes} (horder : f.isOrder order) :
    Leads (f.rearrange order) r fun g r' =>
      g = ⟨r.nextFactor, f.table.rearrange order⟩ ∧ r' = r.after 1 := by
  unfold rearrange axes
  rw [if_neg (by simp [horder])]
  unfold Table.rearrange
  split
  · exact Leads.intro (returns_make.mpr ⟨rfl, rfl⟩) ⟨rfl, rfl⟩
  · exact leads_fill _

end

/-! In the exact build nothing but the arguments can make an operation fail. -/

section

open scoped Exact

variable [Cell α]

theorem returns_restrict {k : ℕ} :
    Returns (f.restrict v k) r g r' ↔
      f.mentions v ∧ k < v.arity ∧ g = ⟨r.nextFactor, f.table.restrict v k⟩ ∧ r' = r.after 1 := by
  refine ⟨of_returns_restrict, fun ⟨hv, hk, h⟩ => ?_⟩
  obtain ⟨_, _, hreturns, rfl, rfl⟩ := (leads_restrict (r := r) hv hk).exists_returns
  exact h.1 ▸ h.2 ▸ hreturns

theorem returns_sumOut :
    Returns (f.sumOut v) r g r' ↔
      f.mentions v ∧ g = ⟨r.nextFactor, f.table.sumOut v⟩ ∧ r' = r.after 1 := by
  refine ⟨of_returns_sumOut, fun ⟨hv, h⟩ => ?_⟩
  obtain ⟨_, _, hreturns, rfl, rfl⟩ := (leads_sumOut (r := r) hv).exists_returns
  exact h.1 ▸ h.2 ▸ hreturns

theorem returns_foldAll {op : Fold} :
    Returns (foldAll op fs) r g r' ↔
      g = ⟨r.nextFactor, .foldAll op (fs.map (·.table))⟩ ∧ r' = r.after 1 := by
  refine ⟨of_returns_foldAll, fun h => ?_⟩
  obtain ⟨_, _, hreturns, rfl, rfl⟩ := (leads_foldAll (r := r) op fs).exists_returns
  exact h.1 ▸ h.2 ▸ hreturns

theorem returns_product :
    Returns (product fs) r g r' ↔
      g = ⟨r.nextFactor, .product (fs.map (·.table))⟩ ∧ r' = r.after 1 := returns_foldAll

theorem returns_marginal :
    Returns (f.marginal v) r g r' ↔
      f.mentions v ∧ g = ⟨r.nextFactor, f.table.marginal v⟩ ∧ r' = r.after 1 := by
  refine ⟨of_returns_marginal, fun ⟨hv, h⟩ => ?_⟩
  obtain ⟨_, _, hreturns, rfl, rfl⟩ := (leads_marginal (r := r) hv).exists_returns
  exact h.1 ▸ h.2 ▸ hreturns

theorem returns_rearrange {order : Axes} :
    Returns (f.rearrange order) r g r' ↔
      f.isOrder order ∧ g = ⟨r.nextFactor, f.table.rearrange order⟩ ∧ r' = r.after 1 := by
  refine ⟨of_returns_rearrange, fun ⟨horder, h⟩ => ?_⟩
  obtain ⟨_, _, hreturns, rfl, rfl⟩ := (leads_rearrange (r := r) horder).exists_returns
  exact h.1 ▸ h.2 ▸ hreturns

end

end Factor

end Influence
