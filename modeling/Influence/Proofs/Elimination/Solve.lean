import Influence.Proofs.Elimination.Weight

/-! # Elimination is enumeration

A question to a pool is answered by `StepM.solve`.  Read off the pool without any elimination, the
answer is an enumeration: `Workspace.integrand` multiplies the cells that the target asks for, and
the joint outcomes of the hidden variables are added up.

* `weight_prepare` and `mem_ids_prepare` say what is left after the observations and the handling of
  the utilities.
* `exists_returns_solve` is the run: it returns, and its result `IsEnumeration`.
* `exists_isEnumeration` says so for a workspace that is started from a registry and factors.

All this is in the build without limits. -/

namespace Influence

open scoped Exact

variable {sizes : VariableId → ℕ} {x : Assignment}

/-! ### What a target keeps -/

/-- Whether a table takes part in the answer for a target. -/
def Target.keeps {α : Type} (r : Registry) : Target → Table α → Bool
  | .probability, t => !Tables.isUtility r t
  | .totalUtility, _ => true
  | .utilityTerm v, t => !Tables.isDropped r (some v) t

namespace Tables

/-- What the tables contribute to the answer at an assignment of all variables.  The weights of
observed variables do not count. -/
def integrand (s : Setting ℚ) (r : Registry) (evidence : List Observation) (ts : List (Table ℚ)) :
    Target → Assignment → ℚ
  | .totalUtility, x =>
    let unobserved (axes : Axes) := axes.filter fun v => !Axes.mentions (evidence.map (·.subject)) v
    weight (ts.filter (!isUtility r ·)) x *
      ((ts.filter (isUtility r)).map fun t => s.weightOf (unobserved t.axes) * t.valueAt x).sum
  | target, x => weight (ts.filter (target.keeps r)) x

/-- No observation is one of a utility. -/
def Unobserved (r : Registry) (evidence : List Observation) (ts : List (Table ℚ)) : Prop :=
  ∀ o ∈ evidence, ∀ t ∈ ts, ∀ v ∈ t.axes, v.id = o.subject.id → r.kindOf v ≠ .utility

section

variable {r : Registry} {evidence : List Observation} {ts : List (Table ℚ)}

theorem isDropped_none {α : Type} (r : Registry) (t : Table α) :
    isDropped r none t = isUtility r t := by
  simp [isDropped, isUtility_eq]

theorem utilities_observed (hobserved : Unobserved r evidence ts) {t : Table ℚ} (ht : t ∈ ts)
    (hfits : t.Fits sizes) :
    ((observed evidence t).axes.filter fun v => r.kindOf v == .utility) =
      t.axes.filter fun v => r.kindOf v == .utility := by
  rw [axes_observed hfits, List.filter_filter]
  refine List.filter_congr fun v hv => ?_
  by_cases hkind : r.kindOf v = .utility
  · have hfree : ¬Axes.mentions (evidence.map (·.subject)) v := by
      intro h
      obtain ⟨u, hu, hid⟩ := Axes.mem_ids.mp (Axes.mentions_iff.mp h)
      obtain ⟨o, ho, rfl⟩ := List.mem_map.mp hu
      exact hobserved o ho t ht v hv hid.symm hkind
    simp [hkind, hfree]
  · simp [hkind]

theorem isUtility_observed (hobserved : Unobserved r evidence ts) {t : Table ℚ} (ht : t ∈ ts)
    (hfits : t.Fits sizes) : isUtility r (observed evidence t) = isUtility r t := by
  rw [isUtility_eq, isUtility_eq, utilities_observed hobserved ht hfits]

theorem isDropped_observed (hobserved : Unobserved r evidence ts) {t : Table ℚ} (ht : t ∈ ts)
    (hfits : t.Fits sizes) (keep : Option Variable) :
    isDropped r keep (observed evidence t) = isDropped r keep t := by
  rw [isDropped, isDropped, utilities_observed hobserved ht hfits]

/-! ### Observed pools -/

/-- A test that observations do not change selects the observations of the selected tables. -/
theorem perm_filter_observeAll {p : Table ℚ → Bool}
    (h : ∀ t ∈ ts, p (observed evidence t) = p t) :
    ((observeAll evidence ts).filter p).Perm ((ts.filter p).map (observed evidence)) := by
  refine ((perm_observeAll evidence ts).filter p).trans (.of_eq ?_)
  rw [List.filter_map]
  exact congrArg _ (List.filter_congr h)

theorem fits_observeAll (hts : ∀ t ∈ ts, t.Fits sizes) :
    ∀ t ∈ observeAll evidence ts, t.Fits sizes := by
  intro t ht
  obtain ⟨u, hu, rfl⟩ := List.mem_map.mp ((perm_observeAll evidence ts).mem_iff.mp ht)
  exact fits_observed (hts u hu) evidence

theorem weight_map_observed (hts : ∀ t ∈ ts, t.Fits sizes)
    (houtcome : ∀ o ∈ evidence, o.outcome < sizes o.subject.id) (hx : x.Valid sizes) :
    weight (ts.map (observed evidence)) x = weight ts (x.observing evidence) := by
  rw [weight, weight, List.map_map]
  exact congrArg _ (List.map_congr_left fun t ht => valueAt_observed (hts t ht) evidence houtcome hx)

theorem mem_ids_observed {t : Table ℚ} (ht : t.Fits sizes) {id : VariableId} :
    id ∈ (observed evidence t).axes.ids ↔
      id ∈ t.axes.ids ∧ id ∉ Axes.ids (evidence.map (·.subject)) := by
  rw [axes_observed ht, Axes.mem_ids_filter_mentions]

/-! ### Prepared pools -/

theorem utilityAt_observeAll (s : Setting ℚ) (hts : ∀ t ∈ ts, t.Fits sizes)
    (houtcome : ∀ o ∈ evidence, o.outcome < sizes o.subject.id)
    (hobserved : Unobserved r evidence ts) (hx : x.Valid sizes) :
    utilityAt s r (observeAll evidence ts) x =
      ((ts.filter (isUtility r)).map fun t =>
        s.weightOf (t.axes.filter fun v => !Axes.mentions (evidence.map (·.subject)) v) *
          t.valueAt (x.observing evidence)).sum := by
  have hutility : ∀ t ∈ ts, isUtility r (observed evidence t) = isUtility r t := fun t ht =>
    isUtility_observed hobserved ht (hts t ht)
  have hperm := perm_filter_observeAll hutility
  rw [utilityAt, (hperm.map _).sum_eq, List.map_map]
  refine congrArg _ (List.map_congr_left fun t ht => ?_)
  have hfits := hts t (List.mem_of_mem_filter ht)
  rw [Function.comp_apply, axes_observed hfits, valueAt_observed hfits evidence houtcome hx]

theorem weight_filter_observeAll {p : Table ℚ → Bool} (hts : ∀ t ∈ ts, t.Fits sizes)
    (houtcome : ∀ o ∈ evidence, o.outcome < sizes o.subject.id)
    (h : ∀ t ∈ ts, p (observed evidence t) = p t) (hx : x.Valid sizes) :
    weight ((observeAll evidence ts).filter p) x = weight (ts.filter p) (x.observing evidence) := by
  rw [weight_perm (perm_filter_observeAll h),
    weight_map_observed (fun t ht => hts t (List.mem_of_mem_filter ht)) houtcome hx]

theorem keeps_observed (hts : ∀ t ∈ ts, t.Fits sizes) (hobserved : Unobserved r evidence ts)
    (target : Target) :
    ∀ t ∈ ts, target.keeps r (observed evidence t) = target.keeps r t := by
  intro t ht
  cases target with
  | probability => simp only [Target.keeps, isUtility_observed hobserved ht (hts t ht)]
  | totalUtility => rfl
  | utilityTerm v => simp only [Target.keeps, isDropped_observed hobserved ht (hts t ht)]

theorem prepare_of_ne {α : Type} [Cell α] (s : Setting α) (r : Registry) (ts : List (Table α))
    {target : Target} (h : target ≠ .totalUtility) :
    prepare s r ts target = ts.filter (target.keeps r) := by
  cases target with
  | probability =>
      simp only [prepare, isDropped_none]
      rfl
  | totalUtility => exact absurd rfl h
  | utilityTerm v => rfl

theorem integrand_of_ne (s : Setting ℚ) {target : Target} (h : target ≠ .totalUtility) :
    integrand s r evidence ts target x = weight (ts.filter (target.keeps r)) x := by
  cases target with
  | totalUtility => exact absurd rfl h
  | _ => rfl

theorem arity_observeAll (hts : ∀ t ∈ ts, t.Fits sizes)
    (hone : ∀ t ∈ ts, ∀ v ∈ t.axes, r.kindOf v = .utility → v.arity = 1) :
    ∀ t ∈ observeAll evidence ts, ∀ v ∈ t.axes, r.kindOf v = .utility → v.arity = 1 := by
  intro t ht v hv
  obtain ⟨u, hu, rfl⟩ := List.mem_map.mp ((perm_observeAll evidence ts).mem_iff.mp ht)
  rw [axes_observed (hts u hu)] at hv
  exact hone u hu v (List.mem_of_mem_filter hv)

theorem fits_prepare (s : Setting ℚ) (hts : ∀ t ∈ ts, t.Fits sizes) (target : Target) :
    ∀ t ∈ prepare s r ts target, t.Fits sizes := by
  by_cases h : target = .totalUtility
  · rw [h]
    exact fits_sumUtilities s r hts
  · rw [prepare_of_ne s r ts h]
    exact fun t ht => hts t (List.mem_of_mem_filter ht)

/-- What the prepared tables weigh is what the target asks for, with the observed outcomes set. -/
theorem weight_prepare (s : Setting ℚ) (hts : ∀ t ∈ ts, t.Fits sizes)
    (hone : ∀ t ∈ ts, ∀ v ∈ t.axes, r.kindOf v = .utility → v.arity = 1)
    (houtcome : ∀ o ∈ evidence, o.outcome < sizes o.subject.id)
    (hobserved : Unobserved r evidence ts) {target : Target}
    (htarget : target = .totalUtility → ∃ t ∈ ts, isUtility r t) (hx : x.Valid sizes) :
    weight (prepare s r (observeAll evidence ts) target) x =
      integrand s r evidence ts target (x.observing evidence) := by
  by_cases h : target = .totalUtility
  · subst h
    obtain ⟨t, ht, hutility⟩ := htarget rfl
    have hany : ∃ u ∈ observeAll evidence ts, isUtility r u :=
      ⟨observed evidence t, (perm_observeAll evidence ts).mem_iff.mpr (List.mem_map_of_mem ht), by
        rw [isUtility_observed hobserved ht (hts t ht), hutility]⟩
    have hother : ∀ t ∈ ts, (!isUtility r (observed evidence t)) = !isUtility r t := fun t ht => by
      rw [isUtility_observed hobserved ht (hts t ht)]
    rw [prepare, weight_sumUtilities s r (fits_observeAll hts) (arity_observeAll hts hone) hany hx,
      weight_filter_observeAll hts houtcome hother hx,
      utilityAt_observeAll s hts houtcome hobserved hx]
    rfl
  · rw [prepare_of_ne s r _ h, integrand_of_ne s h,
      weight_filter_observeAll hts houtcome (keeps_observed hts hobserved target) hx]

/-- The variables that are left after the observations and the handling of the utilities. -/
theorem mem_ids_prepare (s : Setting ℚ) (hts : ∀ t ∈ ts, t.Fits sizes)
    (hone : ∀ t ∈ ts, ∀ v ∈ t.axes, r.kindOf v = .utility → v.arity = 1)
    (hobserved : Unobserved r evidence ts) (target : Target) {id : VariableId} :
    id ∈ (axes (prepare s r (observeAll evidence ts) target)).ids ↔
      id ∉ Axes.ids (evidence.map (·.subject)) ∧
        ∃ t ∈ ts, target.keeps r t ∧ id ∈ t.axes.ids ∧
          (target = .totalUtility → isUtility r t →
            id ∉ (summedUtilities s r (observeAll evidence ts)).ids) := by
  have hmem : ∀ u, u ∈ observeAll evidence ts ↔ ∃ t ∈ ts, observed evidence t = u := fun u => by
    rw [(perm_observeAll evidence ts).mem_iff, List.mem_map]
  by_cases h : target = .totalUtility
  · subst h
    rw [prepare, mem_ids_sumUtilities s r (fits_observeAll hts) (arity_observeAll hts hone)]
    constructor
    · rintro ⟨u, hu, hid, hout⟩
      obtain ⟨t, ht, rfl⟩ := (hmem u).mp hu
      obtain ⟨hid, hfree⟩ := (mem_ids_observed (hts t ht)).mp hid
      rw [isUtility_observed hobserved ht (hts t ht)] at hout
      exact ⟨hfree, t, ht, rfl, hid, fun _ => hout⟩
    · rintro ⟨hfree, t, ht, -, hid, hout⟩
      refine ⟨observed evidence t, (hmem _).mpr ⟨t, ht, rfl⟩,
        (mem_ids_observed (hts t ht)).mpr ⟨hid, hfree⟩, ?_⟩
      rw [isUtility_observed hobserved ht (hts t ht)]
      exact hout rfl
  · rw [prepare_of_ne s r _ h, mem_ids_axes]
    constructor
    · rintro ⟨u, hu, hid⟩
      obtain ⟨hu, hkeep⟩ := List.mem_filter.mp hu
      obtain ⟨t, ht, rfl⟩ := (hmem u).mp hu
      obtain ⟨hid, hfree⟩ := (mem_ids_observed (hts t ht)).mp hid
      rw [keeps_observed hts hobserved target t ht] at hkeep
      exact ⟨hfree, t, ht, hkeep, hid, fun h' => absurd h' h⟩
    · rintro ⟨hfree, t, ht, hkeep, hid, -⟩
      refine ⟨observed evidence t, List.mem_filter.mpr ⟨(hmem _).mpr ⟨t, ht, rfl⟩, ?_⟩,
        (mem_ids_observed (hts t ht)).mpr ⟨hid, hfree⟩⟩
      rw [keeps_observed hts hobserved target t ht, hkeep]

end

end Tables

/-! ### Hidden variables -/

namespace Workspace

variable {α : Type} {w : Workspace α} {s : Setting α} {evidence : List Observation}
  {query : List Variable} {single : Bool}

theorem sized_hidden (hts : ∀ t ∈ w.tables, t.Fits sizes) :
    Axes.Sized sizes (w.hidden s evidence query single) := by
  have hsized : (Tables.axes w.tables).Sized sizes := by
    intro v hv
    obtain ⟨t, ht, hv⟩ := List.mem_flatMap.mp hv
    exact (hts t ht).sized v hv
  exact fun v hv => hsized.union v (mem_hidden.mp hv).1

theorem notMem_required_iff {id : VariableId} :
    id ∉ Axes.ids (w.required s false) ↔
      ∀ d ∈ s.decisionOrder, w.registry.kindOf d = .decision →
        id ∉ Axes.ids (s.dependencies.parents d) := by
  simp [required, undecided, Axes.mem_ids_flatMap]

end Workspace

/-- Eliminating the hidden variables enumerates their joint outcomes, in whatever order the
heuristic takes them. -/
theorem Tables.weight_eliminateHidden {w : Workspace ℚ} (hts : ∀ t ∈ w.tables, t.Fits sizes)
    (s : Setting ℚ) (evidence : List Observation) (query : List Variable) (single : Bool) :
    let ts := eliminateAll (s.heuristic.order (w.hidden s evidence query single) w.pool) w.tables
    (∀ t ∈ ts, t.Fits sizes) ∧
      (∀ id, id ∈ (axes ts).ids ↔ id ∈ (axes w.tables).ids ∧
        id ∉ Axes.ids (w.hidden s evidence query single)) ∧
      ∀ x : Assignment, x.Valid sizes →
        weight ts x = Axes.sumOver (w.hidden s evidence query single) (weight w.tables) x := by
  have hperm := s.heuristic.perm_order (w.hidden s evidence query single) w.pool
  have hids : ∀ id, id ∈ Axes.ids (s.heuristic.order (w.hidden s evidence query single) w.pool) ↔
      id ∈ Axes.ids (w.hidden s evidence query single) := fun id => (hperm.map _).mem_iff
  have hnodup : (Axes.ids (s.heuristic.order (w.hidden s evidence query single) w.pool)).Nodup :=
    (hperm.map _).nodup_iff.mpr Workspace.nodup_hidden
  obtain ⟨hfits, hleft, hvalue⟩ := weight_eliminateAll hts hnodup
    (fun v hv => Workspace.sized_hidden hts v (hperm.mem_iff.mp hv))
    (fun id hid => Workspace.hidden_subset ((hids id).mp hid))
  refine ⟨hfits, fun id => by rw [hleft, hids], fun x hx => ?_⟩
  rw [hvalue x hx, Axes.sumOver_perm hperm hnodup]

/-! ### The run -/

namespace StepM

/-- A run returns the product of the prepared tables without the hidden variables. -/
theorem exists_returns_solve {w : Workspace ℚ} (hw : w.Numbered)
    (hts : ∀ t ∈ w.tables, t.Fits sizes) (s : Setting ℚ) {evidence : List Observation}
    (houtcome : ∀ o ∈ evidence, o.outcome < o.subject.arity) (query : List Variable)
    (target : Target) :
    ∃ w₁ f w₂,
      Returns (observe evidence >>= fun _ => prepare s target) w ⟨⟩ w₁ ∧
      Returns (solve s evidence query target) w f w₂ ∧
      w.Reaches w₁ (Tables.prepare s w.registry (Tables.observeAll evidence w.tables) target) ∧
      (∀ id, id ∈ w₁.eliminated ↔ id ∈ w.eliminated ∨ target = .totalUtility ∧
        id ∈ (Tables.summedUtilities s w.registry (Tables.observeAll evidence w.tables)).ids) ∧
      f.table = .product (Tables.eliminateAll
        (s.heuristic.order (w₁.hidden s evidence query false) w₁.pool) w₁.tables) := by
  obtain ⟨_, w₀, hobserve, hreach₀, helim₀⟩ := (leads_observe hw houtcome).exists_returns
  have hnodup : ∀ t ∈ w₀.tables, t.axes.ids.Nodup := fun t ht => by
    rw [hreach₀.tables_eq] at ht
    exact (Tables.fits_observeAll hts t ht).wellFormed.nodup
  obtain ⟨_, w₁, hprepare, hreach₁, helim₁⟩ :=
    (leads_prepare hreach₀.numbered s target hnodup).exists_returns
  obtain ⟨_, w₂, hhidden, hreach₂⟩ :=
    (leads_eliminateHidden hreach₁.numbered s evidence query false).exists_returns
  obtain ⟨f, w₃, hcollapse, hf⟩ := (leads_collapse w₂).exists_returns
  obtain ⟨n, hregistry⟩ := hreach₀.registry
  have hkinds : ∀ ts : List (Table ℚ), Tables.prepare s w₀.registry ts target =
      Tables.prepare s w.registry ts target := fun ts => by
    rw [hregistry]
    cases target <;> rfl
  have hsummed : ∀ ts : List (Table ℚ), Tables.summedUtilities s w₀.registry ts =
      Tables.summedUtilities s w.registry ts := fun ts => by
    rw [hregistry]
    rfl
  refine ⟨w₁, f, w₃, ?_, ?_, ?_, fun id => ?_, ?_⟩
  · exact returns_bind.mpr ⟨_, w₀, hobserve, hprepare⟩
  · unfold solve
    simp only [returns_bind]
    exact ⟨_, w₀, hobserve, _, w₁, hprepare, _, w₂, hhidden, hcollapse⟩
  · rw [hkinds, hreach₀.tables_eq] at hreach₁
    exact hreach₀.trans hreach₁
  · rw [helim₁, helim₀, hsummed, hreach₀.tables_eq]
  · rw [hf, hreach₂.tables_eq]

end StepM

theorem sumOver_observing {evidence : List Observation} {vars : Axes}
    (h : ∀ v ∈ vars, v.id ∉ Axes.ids (evidence.map (·.subject))) (F : Assignment → ℚ) :
    Axes.sumOver vars (fun y => F (y.observing evidence)) x =
      Axes.sumOver vars F (x.observing evidence) := by
  induction evidence generalizing F with
  | nil => rfl
  | cons o evidence ih =>
      have hfree : o.subject.id ∉ vars.ids := by
        intro hid
        obtain ⟨v, hv, hid⟩ := Axes.mem_ids.mp hid
        exact h v hv (by simp [hid])
      have hrest : ∀ v ∈ vars, v.id ∉ Axes.ids (evidence.map (·.subject)) := fun v hv hid =>
        h v hv (List.mem_cons_of_mem _ hid)
      exact (ih hrest fun y => F (y.set o.subject o.outcome)).trans
        (Axes.sumOver_set hfree F _ o.outcome).symm

/-- The product of the prepared tables without the hidden variables enumerates those. -/
theorem Tables.answer {w w₁ : Workspace ℚ} {s : Setting ℚ} {evidence : List Observation}
    {query : List Variable} {target : Target} {t : Table ℚ}
    (hts : ∀ t ∈ w.tables, t.Fits sizes)
    (hone : ∀ t ∈ w.tables, ∀ v ∈ t.axes, w.registry.kindOf v = .utility → v.arity = 1)
    (houtcome : ∀ o ∈ evidence, o.outcome < sizes o.subject.id)
    (hobserved : Unobserved w.registry evidence w.tables)
    (htarget : target = .totalUtility → ∃ t ∈ w.tables, isUtility w.registry t)
    (hreach : w.Reaches w₁ (prepare s w.registry (observeAll evidence w.tables) target))
    (ht : t = .product (eliminateAll
      (s.heuristic.order (w₁.hidden s evidence query false) w₁.pool) w₁.tables)) :
    t.Fits sizes ∧
      (∀ id, id ∈ t.axes.ids ↔ id ∈ (axes w₁.tables).ids ∧
        id ∉ Axes.ids (w₁.hidden s evidence query false)) ∧
      ∀ x : Assignment, x.Valid sizes →
        t.valueAt x = Axes.sumOver (w₁.hidden s evidence query false)
          (integrand s w.registry evidence w.tables target) (x.observing evidence) := by
  have hprepared : ∀ t ∈ w₁.tables, t.Fits sizes := by
    rw [hreach.tables_eq]
    exact fits_prepare s (fits_observeAll hts) target
  obtain ⟨hfits, hids, hvalue⟩ := weight_eliminateHidden hprepared s evidence query false
  subst ht
  refine ⟨Table.fits_foldAll hfits, fun id => ?_, fun x hx => ?_⟩
  · rw [Table.product, Table.mem_ids_foldAll, ← hids, mem_ids_axes]
  · rw [Table.Fits.valueAt_product hfits hx, ← weight, hvalue x hx, hreach.tables_eq,
      ← sumOver_observing fun v hv => (Workspace.mem_hidden.mp hv).2.2.2.1]
    exact Axes.sumOver_congr (Workspace.sized_hidden hprepared) hx fun y hy _ =>
      weight_prepare s hts hone houtcome hobserved htarget hy

/-- What an answer has to be.  `w₁` is the workspace after the observations and the handling of the
utilities. -/
structure IsEnumeration [Build] (w w₁ : Workspace ℚ) (s : Setting ℚ) (evidence : List Observation)
    (query : List Variable) (target : Target) (f : Factor ℚ) : Prop where
  wellFormed : f.table.WellFormed
  /-- The variables that are left are those of the tables that the target keeps, without the
  observed ones and the utilities that have been summed out. -/
  left : ∀ id, id ∈ (Tables.axes w₁.tables).ids ↔
    id ∉ Axes.ids (evidence.map (·.subject)) ∧
      ∃ t ∈ w.tables, target.keeps w.registry t ∧ id ∈ t.axes.ids ∧
        (Tables.isUtility w.registry t → id ∉ w₁.eliminated)
  /-- Only utilities have been summed out, and only for the whole utility. -/
  eliminated : ∀ id ∈ w₁.eliminated, target = .totalUtility ∧
    ∃ t ∈ w.tables, ∃ v ∈ t.axes, v.id = id ∧ w.registry.kindOf v = .utility
  /-- The hidden variables are chance variables that are neither observed nor queried nor observed
  by an open decision. -/
  hidden : ∀ v, v ∈ w₁.hidden s evidence query false ↔
    v ∈ Axes.union [] (Tables.axes w₁.tables) ∧ w.registry.kindOf v = .chance ∧
      v.id ∉ w₁.eliminated ∧ v.id ∉ Axes.ids (evidence.map (·.subject)) ∧ v.id ∉ Axes.ids query ∧
      ∀ d ∈ s.decisionOrder, w.registry.kindOf d = .decision →
        v.id ∉ Axes.ids (s.dependencies.parents d)
  /-- The answer has the axes that are left and not hidden. -/
  axes : ∀ id, id ∈ f.axes.ids ↔ id ∈ (Tables.axes w₁.tables).ids ∧
    id ∉ Axes.ids (w₁.hidden s evidence query false)
  /-- Its cells add up what the tables contribute over all joint outcomes of the hidden
  variables. -/
  value : ∀ x : Assignment, x.InRange (Tables.axes w.tables) →
    f.table.valueAt x = Axes.sumOver (w₁.hidden s evidence query false)
      (Tables.integrand s w.registry evidence w.tables target) (x.observing evidence)

/-! ### Runs from a registry and factors -/

namespace StepM

/-- **Elimination is enumeration.**  A question to well-formed factors is answered, whatever the
heuristic is, and the answer adds up what the factors contribute over all joint outcomes of the
hidden variables. -/
theorem exists_isEnumeration (s : Setting ℚ) (r : Registry) (fs : List (Factor ℚ))
    (evidence : List Observation) (query : List Variable) (target : Target)
    (hwellFormed : ∀ f ∈ fs, f.table.WellFormed) (hnumber : ∀ f ∈ fs, f.id < r.nextFactor)
    (hagree : Axes.Agree (fs.flatMap (·.axes) ++ evidence.map (·.subject)))
    (hone : ∀ f ∈ fs, ∀ v ∈ f.axes, r.kindOf v = .utility → v.arity = 1)
    (houtcome : ∀ o ∈ evidence, o.outcome < o.subject.arity)
    (hobserved : ∀ o ∈ evidence, ∀ f ∈ fs, ∀ v ∈ f.axes, v.id = o.subject.id →
      r.kindOf v ≠ .utility)
    (htarget : target = .totalUtility →
      ∃ t ∈ (Workspace.start r fs).tables, Tables.isUtility r t) :
    ∃ w₁ f w₂,
      Returns (observe evidence >>= fun _ => prepare s target) (.start r fs) ⟨⟩ w₁ ∧
      Returns (solve s evidence query target) (.start r fs) f w₂ ∧
      IsEnumeration (.start r fs) w₁ s evidence query target f := by
  let handles : Axes := Tables.axes (Workspace.start r fs).tables
  have hhandles : handles ⊆ fs.flatMap (·.axes) := by
    intro v hv
    obtain ⟨t, ht, hv⟩ := List.mem_flatMap.mp hv
    obtain ⟨f, hf, rfl⟩ := Workspace.mem_tables_start ht
    exact List.mem_flatMap.mpr ⟨f, hf, hv⟩
  have hsized : ∀ other, handles.Sized (handles.sizes other) :=
    (hagree.subset (List.subset_append_of_subset_left _ hhandles)).sized
  have hfits : ∀ other, ∀ t ∈ (Workspace.start r fs).tables, t.Fits (handles.sizes other) :=
    fun other t ht => ⟨Workspace.forall_tables_start hwellFormed r t ht,
      fun v hv => hsized other v (List.mem_flatMap.mpr ⟨t, ht, hv⟩)⟩
  have hone' : ∀ t ∈ (Workspace.start r fs).tables, ∀ v ∈ t.axes, r.kindOf v = .utility →
      v.arity = 1 := Workspace.forall_tables_start hone r
  have hobserved' : Tables.Unobserved r evidence (Workspace.start r fs).tables := fun o ho =>
    Workspace.forall_tables_start (hobserved o ho) r
  -- outside the handles the numbers of outcomes are free, so they are chosen to fit `x`
  let other (x : Assignment) : VariableId → ℕ := fun id => x id + (evidence.map (·.outcome)).sum + 1
  have houtcome' : ∀ x, ∀ o ∈ evidence, o.outcome < handles.sizes (other x) o.subject.id := by
    intro x o ho
    by_cases h : o.subject.id ∈ handles.ids
    · obtain ⟨v, hv, hid⟩ := Axes.mem_ids.mp h
      rw [← hid, ← hsized (other x) v hv, hagree v (List.mem_append_left _ (hhandles hv)) o.subject
          (List.mem_append_right _ (List.mem_map_of_mem ho)) hid]
      exact houtcome o ho
    · rw [Axes.sizes_of_notMem h]
      have := List.le_sum_of_mem (List.mem_map_of_mem (f := (·.outcome)) ho)
      simp only [other]
      omega
  obtain ⟨w₁, f, w₂, hprepare, hsolve, hreach, helim, htable⟩ := exists_returns_solve
    (Workspace.numbered_start hnumber) (hfits fun _ => 1) s houtcome query target
  have hanswer := fun x => Tables.answer (hfits (other x)) hone' (houtcome' x) hobserved' htarget
    hreach htable
  have hsummed : ∀ id, id ∈ w₁.eliminated ↔ target = .totalUtility ∧
      id ∈ (Tables.summedUtilities s r
        (Tables.observeAll evidence (Workspace.start r fs).tables)).ids := fun id => by
    rw [helim]
    exact or_iff_right List.not_mem_nil
  refine ⟨w₁, f, w₂, hprepare, hsolve, ?_⟩
  constructor
  case wellFormed => exact (hanswer fun _ => 0).1.wellFormed
  case left =>
    intro id
    rw [hreach.tables_eq]
    refine (Tables.mem_ids_prepare s (hfits fun _ => 1) hone' hobserved' target).trans ?_
    constructor
    · rintro ⟨hfree, t, ht, hkeep, hid, hout⟩
      refine ⟨hfree, t, ht, hkeep, hid, fun hutility helim => ?_⟩
      obtain ⟨htotal, hid⟩ := (hsummed id).mp helim
      exact hout htotal hutility hid
    · rintro ⟨hfree, t, ht, hkeep, hid, hout⟩
      exact ⟨hfree, t, ht, hkeep, hid, fun htotal hutility hid =>
        hout hutility ((hsummed id).mpr ⟨htotal, hid⟩)⟩
  case eliminated =>
    intro id hid
    obtain ⟨htotal, hid⟩ := (hsummed id).mp hid
    obtain ⟨v, hv, rfl⟩ := Axes.mem_ids.mp hid
    obtain ⟨hkind, t, ht, hv⟩ := Tables.mem_summedUtilities hv
    obtain ⟨u, hu, rfl⟩ := List.mem_map.mp ((Tables.perm_observeAll evidence _).mem_iff.mp ht)
    rw [Tables.axes_observed (hfits (fun _ => 1) u hu)] at hv
    exact ⟨htotal, u, hu, v, List.mem_of_mem_filter hv, rfl, hkind⟩
  case hidden =>
    intro v
    rw [Workspace.mem_hidden, Workspace.notMem_required_iff, hreach.kindOf_eq]
  case axes => exact (hanswer fun _ => 0).2.1
  case value =>
    intro x hx
    refine (hanswer x).2.2 x fun id => ?_
    by_cases h : id ∈ handles.ids
    · obtain ⟨v, hv, rfl⟩ := Axes.mem_ids.mp h
      rw [← hsized (other x) v hv]
      exact hx v hv
    · rw [Axes.sizes_of_notMem h]
      simp only [other]
      omega

end StepM

end Influence
