import Influence.Proofs.Elimination.Axes
import Influence.Proofs.Elimination.Scratch
import Influence.Proofs.Lockstep

/-! # Runs with other creation numbers

A run adds every factor behind those of its pool, because creation numbers ascend.  So a run depends
on the tables of its pool in their order, on the current kinds and on what has been eliminated, but
not on the creation numbers themselves.

`Workspace.Alike` relates two workspaces that agree on these.  The steps of a question give the same
tables in both, or fail for the same cause (`Lockstep.solve`).  Distinct axes go through every step
(`Tables.Distinct`), so that no step asks a factor for an axis that it lacks. -/

namespace Influence

variable {α : Type}

theorem Registry.kindOf_congr {r t : Registry} (h : r.handles = t.handles) : r.kindOf = t.kindOf := by
  funext v
  unfold kindOf find?
  rw [h]

theorem Heuristic.order_congr (h : Heuristic) (hidden : List Variable) {fs gs : List (Factor α)}
    (htables : fs.map (·.table) = gs.map (·.table)) : h.order hidden fs = h.order hidden gs := by
  have hmentioning : ∀ (fs : List (Factor α)) (v : Variable),
      (fs.filter (·.mentions v)).flatMap (·.axes) =
        ((fs.map (·.table)).filter (·.mentions v)).flatMap (·.axes) := by
    intro fs v
    rw [List.filter_map, List.flatMap_map]
    rfl
  have hdegree : degree fs = degree gs := by
    funext v
    rw [degree, degree, hmentioning, hmentioning, htables]
  unfold order
  rw [hdegree]

/-! ### Current kinds -/

namespace Tables

variable {ts : List (Table α)} {r : Registry}

theorem isUtility_congr {t : Registry} (h : r.kindOf = t.kindOf) :
    (isUtility r : Table α → Bool) = isUtility t := by
  unfold isUtility
  rw [h]

variable [Build] [Cell α]

/-- A table that mentions no utility stays, whatever is asked for. -/
theorem HasTable.prepare {v : Variable} (h : HasTable r v ts) (s : Setting α) (target : Target) :
    ∃ t ∈ prepare s r ts target, v.id ∈ t.axes.ids := by
  obtain ⟨t, ht, hid, hutility⟩ := h
  refine ⟨t, ?_, hid⟩
  have hdropped : ∀ keep, isDropped r keep t = false := fun keep => by
    rw [isUtility_eq, Bool.not_eq_false'] at hutility
    rw [isDropped, hutility, Bool.not_true, Bool.false_and]
  cases target with
  | probability => exact List.mem_filter.mpr ⟨ht, by rw [hdropped, Bool.not_false]⟩
  | totalUtility =>
      exact List.mem_append_left _ (List.mem_filter.mpr ⟨ht, by rw [hutility, Bool.not_false]⟩)
  | utilityTerm u => exact List.mem_filter.mpr ⟨ht, by rw [hdropped, Bool.not_false]⟩

end Tables

/-- The answer to a question mentions the unobserved query variables that have a table. -/
theorem StepM.leads_solve [Build] [Cell α] {w : Workspace α} (hw : w.Numbered)
    (hdistinct : Tables.Distinct w.tables) (s : Setting α) {evidence : List Observation}
    (houtcome : ∀ o ∈ evidence, o.outcome < o.subject.arity) (query : List Variable)
    (target : Target) :
    Leads (StepM.solve s evidence query target) w fun f _ => f.axes.ids.Nodup ∧
      ∀ v ∈ query, v.id ∉ Axes.ids (evidence.map (·.subject)) →
        Tables.HasTable w.registry v w.tables → f.mentions v := by
  refine Leads.bind (leads_observe hw houtcome) fun _ w₁ ⟨hreach₁, _⟩ => ?_
  have hdistinct₁ : Tables.Distinct w₁.tables := by
    rw [hreach₁.tables_eq]
    exact hdistinct.observeAll evidence
  refine Leads.bind (leads_prepare hreach₁.numbered s target hdistinct₁) fun _ w₂ ⟨hreach₂, _⟩ => ?_
  have hdistinct₂ : Tables.Distinct w₂.tables := by
    rw [hreach₂.tables_eq]
    exact hdistinct₁.prepare s target
  refine Leads.bind (leads_eliminateHidden hreach₂.numbered s evidence query false)
    fun _ w₃ hreach₃ => ?_
  refine (leads_collapse w₃).imp fun f _ hf => ?_
  rw [hreach₃.tables_eq] at hf
  refine ⟨?_, fun v hv hfree htable => ?_⟩
  · rw [Factor.axes, hf]
    exact Table.nodup_foldAll (hdistinct₂.eliminateAll _)
  · -- its table is restricted at most, is kept, and keeps the variable, which is not hidden
    have hobserved := htable.observeAll hdistinct hfree
    rw [← hreach₁.tables_eq, Tables.HasTable, ← Tables.isUtility_congr hreach₁.kindOf_eq] at hobserved
    obtain ⟨t, hkept, hid⟩ := Tables.HasTable.prepare hobserved s target
    rw [← hreach₂.tables_eq] at hkept
    rw [Factor.mentions, hf]
    refine Table.mentions_iff.mpr ?_
    rw [Table.product, Table.mem_ids_foldAll, ← Tables.mem_ids_axes,
      Tables.mem_ids_eliminateAll hdistinct₂]
    refine ⟨Tables.mem_ids_axes.mpr ⟨t, hkept, hid⟩, fun hhidden => ?_⟩
    obtain ⟨u, hu, huv⟩ := Axes.mem_ids.mp (((s.heuristic.perm_order _ _).map _).subset hhidden)
    refine (Workspace.mem_hidden.mp hu).2.2.2.2.1 ?_
    rw [huv]
    exact Axes.mem_ids_of_mem hv

/-! ### Workspaces that agree on all but the numbers -/

/-- The workspaces agree on all that a run depends on, and each has its numbers in order. -/
structure Workspace.Alike (w w' : Workspace α) : Prop where
  left : w.Numbered
  right : w'.Numbered
  tables : w.tables = w'.tables
  distinct : Tables.Distinct w.tables
  handles : w.registry.handles = w'.registry.handles
  eliminated : ∀ id, id ∈ w.eliminated ↔ id ∈ w'.eliminated

namespace Workspace.Alike

variable {w w' w₁ w₁' : Workspace α} {ts : List (Table α)}

theorem kindOf (h : w.Alike w') : w.registry.kindOf = w'.registry.kindOf :=
  Registry.kindOf_congr h.handles

/-- Steps that reach the same tables lead to workspaces that are alike again. -/
theorem reaches (h : w.Alike w') (hw : w.Reaches w₁ ts) (hw' : w'.Reaches w₁' ts)
    (hts : Tables.Distinct ts) (helim : ∀ id, id ∈ w₁.eliminated ↔ id ∈ w₁'.eliminated) :
    w₁.Alike w₁' where
  left := hw.numbered
  right := hw'.numbered
  tables := hw.tables_eq.trans hw'.tables_eq.symm
  distinct := by rwa [hw.tables_eq]
  handles := by
    obtain ⟨j, hj⟩ := hw.registry
    obtain ⟨k, hk⟩ := hw'.registry
    rw [hj, hk]
    exact h.handles
  eliminated := helim

/-- The hidden variables are the same, in the same order. -/
theorem order_hidden (h : w.Alike w') (s : Setting α) (evidence : List Observation)
    (query : List Variable) (single : Bool) :
    s.heuristic.order (w.hidden s evidence query single) w.pool =
      s.heuristic.order (w'.hidden s evidence query single) w'.pool := by
  have hrequired : w.required s single = w'.required s single := by
    unfold required undecided
    rw [h.kindOf]
  have heliminated : w.isEliminated = w'.isEliminated := by
    funext v
    rw [Bool.eq_iff_iff, isEliminated, isEliminated, List.contains_iff_mem, List.contains_iff_mem,
      h.eliminated]
  have hhidden : w.hidden s evidence query single = w'.hidden s evidence query single := by
    unfold hidden
    rw [← axes_tables, ← axes_tables, h.tables, hrequired, h.kindOf, heliminated]
  rw [hhidden]
  exact Heuristic.order_congr _ _ h.tables

/-- The same factors are taken out. -/
theorem filter (h : w.Alike w') (p : Table α → Bool) :
    Alike { w with pool := w.pool.filter fun f => p f.table }
      { w' with pool := w'.pool.filter fun f => p f.table } :=
  h.reaches (StepM.reaches_filter h.left rfl rfl)
    (h.tables ▸ StepM.reaches_filter h.right rfl rfl) (h.distinct.filter p) h.eliminated

theorem mark (h : w.Alike w') (v : Variable) : (w.markEliminated v).Alike (w'.markEliminated v) where
  left := h.left
  right := h.right
  tables := h.tables
  distinct := h.distinct
  handles := h.handles
  eliminated := fun id => by
    rw [mem_eliminated_markEliminated, mem_eliminated_markEliminated, h.eliminated]

/-- New factors of the same table are put in. -/
theorem insert_new {u : Table α} {f g : Factor α} {r r' : Registry} (h : w.Alike w')
    (hf : Copies w.registry w'.registry u f r g r') (hu : u.axes.ids.Nodup) :
    (Workspace.insert { w with registry := r } f).Alike
      (Workspace.insert { w' with registry := r' } g) := by
  have hinsert := reaches_insert_new h.left hf.isNew_left
  have hinsert' := reaches_insert_new h.right hf.isNew_right
  rw [hf.left] at hinsert
  rw [hf.right, ← h.tables] at hinsert'
  exact h.reaches hinsert hinsert' (h.distinct.append (Tables.distinct_singleton hu)) h.eliminated

end Workspace.Alike

/-! ### Steps in lockstep -/

namespace Lockstep

section

variable {β : Type} {w w' : Workspace α} {E : Registry → Registry → Prop}

theorem onRegistry {R : β → Registry → β → Registry → Prop} {x y : RegistryM β}
    (h : Lockstep E R (runFrom x w.registry) (runFrom y w'.registry)) :
    Lockstep (fun _ _ => True) (fun b s c t => ∃ r r', R b r c r' ∧ s = { w with registry := r } ∧
        t = { w' with registry := r' })
      (runFrom (StepM.onRegistry x) w) (runFrom (StepM.onRegistry y) w') := by
  change Lockstep _ _ ((runFrom x w.registry).1, { w with registry := (runFrom x w.registry).2 })
    ((runFrom y w'.registry).1, { w' with registry := (runFrom y w'.registry).2 })
  revert h
  generalize runFrom x w.registry = p
  generalize runFrom y w'.registry = q
  intro h
  cases h with
  | ok h => exact .ok ⟨_, _, h, rfl, rfl⟩
  | error h => exact .error trivial

theorem inScratch {F : Workspace α → Workspace α → Prop}
    {R : β → Workspace α → β → Workspace α → Prop} {x y : StepM α β}
    (h : Lockstep F R (runFrom x w) (runFrom y w')) :
    Lockstep (fun _ _ => True) (fun b s c t => ∃ a a', R b a c a' ∧
        s = { w with registry := a.registry } ∧ t = { w' with registry := a'.registry })
      (runFrom (StepM.inScratch x) w) (runFrom (StepM.inScratch y) w') := by
  change Lockstep _ _ ((runFrom x w).1, { w with registry := (runFrom x w).2.registry })
    ((runFrom y w').1, { w' with registry := (runFrom y w').2.registry })
  revert h
  generalize runFrom x w = p
  generalize runFrom y w' = q
  intro h
  cases h with
  | ok h => exact .ok ⟨_, _, h, rfl, rfl⟩
  | error h => exact .error trivial

/-- Factors are taken out by a test of their tables. -/
theorem take (h : w.Alike w') (p : Table α → Bool) :
    Lockstep (fun _ _ => True) (fun fs s gs t => fs.map (·.table) = w.tables.filter p ∧
        gs.map (·.table) = w.tables.filter p ∧
        s = { w with pool := w.pool.filter fun f => !p f.table } ∧
        t = { w' with pool := w'.pool.filter fun f => !p f.table })
      (runFrom (StepM.take fun f => p f.table) w) (runFrom (StepM.take fun f => p f.table) w') := by
  refine of_returns (StepM.returns_take.mpr ⟨rfl, rfl⟩) (StepM.returns_take.mpr ⟨rfl, rfl⟩)
    ⟨?_, ?_, rfl, rfl⟩
  · rw [Workspace.filter_tables]
  · rw [h.tables, Workspace.filter_tables]

/-- Both workspaces are alike but for the numbers that have been handed out since. -/
def AlikeSince (r₀ t₀ : Registry) (w w' : Workspace α) : Prop :=
  Workspace.Alike { w with registry := r₀ } { w' with registry := t₀ } ∧
    BothLater r₀ t₀ w.registry w'.registry

theorem AlikeSince.kindOf {r₀ t₀ : Registry} (h : AlikeSince r₀ t₀ w w') :
    w.registry.kindOf = w'.registry.kindOf :=
  Registry.kindOf_congr (h.2.1.handles.trans (h.1.handles.trans h.2.2.handles.symm))

/-- A factor that has been made since joins both pools. -/
theorem insert_new {r₀ t₀ : Registry} {u : Table α} {f g : Factor α} (h : AlikeSince r₀ t₀ w w')
    (hf : Copies r₀ t₀ u f w.registry g w'.registry) (hu : u.axes.ids.Nodup) :
    Lockstep (fun _ _ => True) (fun _ s _ t => s.Alike t)
      (runFrom (StepM.insert f) w) (runFrom (StepM.insert g) w') :=
  of_returns (StepM.returns_insert (u := ()).mpr rfl) (StepM.returns_insert (u := ()).mpr rfl)
    (h.1.insert_new hf hu)

end

/-! ### Questions in lockstep -/

section

variable [Build] [Cell α] {w w' : Workspace α} {s : Setting α}

theorem observe (h : w.Alike w') (evidence : List Observation) :
    Lockstep (fun _ _ => True) (fun _ s _ t => s.Alike t) (runFrom (StepM.observe evidence) w)
      (runFrom (StepM.observe evidence) w') := by
  refine forM (A := Eq) (fun o _ w w' ho h => ?_) (List.forall₂_same.mpr fun _ _ => rfl) h
  subst ho
  refine bind (take h (·.mentions o.subject)) ?_
  rintro fs _ gs _ ⟨hfs, hgs, rfl, rfl⟩
  have hall := forall₂_table (P := fun t => t.mentions o.subject ∧ t.axes.ids.Nodup) hfs hgs
    fun u hu => ⟨(List.mem_filter.mp hu).2, h.distinct u (List.mem_of_mem_filter hu)⟩
  refine forM (fun f g w w' hfg h => ?_) hall (h.filter (!·.mentions o.subject))
  obtain ⟨htable, hmentions, hnodup⟩ := hfg
  refine bind (onRegistry (restrict (.refl _ _) htable rfl hmentions _)) ?_
  rintro f' _ g' _ ⟨r, r', hcopies, rfl, rfl⟩
  exact insert_new ⟨h, hcopies.bothLater⟩ hcopies (Axes.nodup_without hnodup _)

theorem weigh {r₀ t₀ : Registry} {f g : Factor α} (h : AlikeSince r₀ t₀ w w')
    (hfg : f.table = g.table) (hnodup : g.table.axes.ids.Nodup) :
    Lockstep (fun _ _ => True)
      (fun f s g t => (f.table = g.table ∧ f.axes.ids.Nodup) ∧ AlikeSince r₀ t₀ s t)
      (runFrom (StepM.weigh s f) w) (runFrom (StepM.weigh s g) w') := by
  unfold StepM.weigh Factor.axes
  rw [hfg]
  dsimp only
  split
  · exact pure ⟨⟨hfg, hfg ▸ hnodup⟩, h⟩
  · refine (onRegistry (scale (.refl _ _) hfg rfl _)).imp (fun _ _ => id) ?_
    rintro f' _ g' _ ⟨r, r', hcopies, rfl, rfl⟩
    refine ⟨⟨hcopies.left.trans hcopies.right.symm, ?_⟩, h.1, h.2.trans hcopies.bothLater⟩
    rw [hcopies.left]
    exact Table.nodup_foldAll (by simpa using ⟨hnodup, by simp [Table.scalar]⟩)

/-- Utilities are summed out of two factors with the same table, one after the other. -/
theorem sumOutUtilities {r₀ t₀ : Registry} {u : Table α} {f g : Factor α} {us : Axes}
    (h : AlikeSince r₀ t₀ w w') (hf : Copies r₀ t₀ u f w.registry g w'.registry)
    (hu : u.axes.ids.Nodup) (hus : us.ids.Nodup) (hmem : us.ids ⊆ u.axes.ids) :
    Lockstep (fun _ _ => True) (fun f s g t => AlikeSince r₀ t₀ s t ∧
        ∃ u, Copies r₀ t₀ u f s.registry g t.registry ∧ u.axes.ids.Nodup)
      (runFrom (us.foldlM StepM.sumOutUtility f) w)
      (runFrom (us.foldlM StepM.sumOutUtility g) w') := by
  induction us generalizing u f g w w' with
  | nil => exact pure ⟨h, u, hf, hu⟩
  | cons v us ih =>
      obtain ⟨hv, hus⟩ := Axes.nodup_ids_cons.mp hus
      rw [Axes.ids_cons, List.cons_subset] at hmem
      rw [List.foldlM_cons, List.foldlM_cons]
      refine bind (R := fun f s g t => AlikeSince r₀ t₀ s t ∧
        Copies r₀ t₀ (u.sumOut v) f s.registry g t.registry) ?_ ?_
      · refine bind (onRegistry (sumOut (.refl _ _) hf.left hf.right
          (Table.mentions_iff.mpr hmem.1))) ?_
        rintro f' _ g' _ ⟨r, r', hcopies, rfl, rfl⟩
        refine bind (R := fun _ s _ t => s = _ ∧ t = _) (of_returns (returns_modify (u := ⟨⟩).mpr rfl)
          (returns_modify (u := ⟨⟩).mpr rfl) ⟨rfl, rfl⟩) ?_
        rintro _ _ _ _ ⟨rfl, rfl⟩
        exact pure ⟨⟨h.1.mark v, h.2.trans hcopies.bothLater⟩, hcopies.since h.2⟩
      · rintro f' s g' t ⟨h, hf'⟩
        refine ih h hf' (Axes.nodup_without hu v) hus fun id hid => ?_
        exact (Axes.mem_ids_without hu).mpr ⟨hmem.2 hid, fun heq => hv (heq ▸ hid)⟩

theorem sumUtilities (h : w.Alike w') :
    Lockstep (fun _ _ => True) (fun _ s _ t => s.Alike t) (runFrom (StepM.sumUtilities s) w)
      (runFrom (StepM.sumUtilities s) w') := by
  have htest : w'.mentionsUtility = fun f => Tables.isUtility w.registry f.table := by
    rw [Tables.isUtility_congr h.kindOf]
    rfl
  unfold StepM.sumUtilities
  refine bind (R := fun a s b t => a = w ∧ b = w' ∧ s = w ∧ t = w')
    (of_returns (returns_get.mpr ⟨rfl, rfl⟩) (returns_get.mpr ⟨rfl, rfl⟩) ⟨rfl, rfl, rfl, rfl⟩) ?_
  rintro _ _ _ _ ⟨rfl, rfl, rfl, rfl⟩
  rename_i w w'
  rw [htest]
  refine bind (take h (Tables.isUtility w.registry)) ?_
  rintro fs _ gs _ ⟨hfs, hgs, rfl, rfl⟩
  have hrest := h.filter (!Tables.isUtility w.registry ·)
  have hempty : fs.isEmpty = gs.isEmpty := by
    rw [← List.isEmpty_map (f := (·.table)), hfs, ← hgs, List.isEmpty_map]
  rw [hempty]
  split
  · refine bind (mapM (V := fun f g => f.table = g.table ∧ f.axes.ids.Nodup)
      (W := AlikeSince w.registry w'.registry) (fun f g _ _ hfg h => weigh h hfg.1 hfg.2)
      (forall₂_table (P := fun t => t.axes.ids.Nodup) hfs hgs fun u hu =>
        h.distinct u (List.mem_of_mem_filter hu)) ⟨hrest, .refl _ _⟩) ?_
    rintro fs' w₁ gs' w₁' ⟨hweighed, h₁⟩
    have htables : fs'.map (·.table) = gs'.map (·.table) :=
      List.forall₂_eq_eq_eq ▸ List.forall₂_map_left_iff.mpr
        (List.forall₂_map_right_iff.mpr (hweighed.imp fun _ _ h => h.1))
    refine bind (onRegistry (sum h₁.2 htables rfl)) ?_
    rintro f _ g _ ⟨r, r', hcopies, rfl, rfl⟩
    have hnodup : (Table.sum (gs'.map (·.table))).axes.ids.Nodup := by
      refine Table.nodup_foldAll fun t ht => ?_
      rw [← htables] at ht
      obtain ⟨f, hf, rfl⟩ := List.mem_map.mp ht
      obtain ⟨g, -, -, hfnodup⟩ := exists_right_of_mem hweighed hf
      exact hfnodup
    have h₂ : AlikeSince w.registry w'.registry { w₁ with registry := r }
        { w₁' with registry := r' } := ⟨h₁.1, hcopies.bothLater⟩
    have hus : Workspace.utilitiesOf { w₁ with registry := r } f.axes =
        Workspace.utilitiesOf { w₁' with registry := r' } g.axes := by
      unfold Workspace.utilitiesOf
      rw [h₂.kindOf, Factor.axes, Factor.axes, hcopies.left, hcopies.right]
    refine bind (R := fun a s b t => s = a ∧ t = b ∧ s = { w₁ with registry := r } ∧
      t = { w₁' with registry := r' }) (of_returns (returns_get.mpr ⟨rfl, rfl⟩)
      (returns_get.mpr ⟨rfl, rfl⟩) ⟨rfl, rfl, rfl, rfl⟩) ?_
    rintro _ _ _ _ ⟨rfl, rfl, rfl, rfl⟩
    rw [hus]
    refine bind (sumOutUtilities h₂ hcopies hnodup ?_ ?_) ?_
    · rw [← hcopies.right] at hnodup
      exact Axes.nodup_ids_filter hnodup _
    · rw [← hcopies.right]
      exact (Axes.ids_filter_sublist _ _).subset
    · rintro f' s g' t ⟨h₃, u, hf', hu⟩
      exact insert_new h₃ hf' hu
  · exact pure hrest

theorem prepare (h : w.Alike w') (target : Target) :
    Lockstep (fun _ _ => True) (fun _ s _ t => s.Alike t) (runFrom (StepM.prepare s target) w)
      (runFrom (StepM.prepare s target) w') := by
  have hdropped : ∀ keep, Lockstep (fun _ _ => True) (fun _ s _ t => s.Alike t)
      (runFrom (StepM.dropUtilities keep) w) (runFrom (StepM.dropUtilities keep) w') := by
    intro keep
    obtain ⟨w₁, hreturns, hreach, helim⟩ := StepM.returns_dropUtilities h.left keep
    obtain ⟨w₁', hreturns', hreach', helim'⟩ := StepM.returns_dropUtilities h.right keep
    have hcongr : (Tables.isDropped w'.registry keep : Table α → Bool) =
        Tables.isDropped w.registry keep := by
      unfold Tables.isDropped
      rw [h.kindOf]
    rw [← h.tables, hcongr] at hreach'
    refine of_returns hreturns hreturns' (h.reaches hreach hreach' (h.distinct.filter _) fun id => ?_)
    rw [helim, helim', h.eliminated]
  cases target with
  | probability => exact hdropped none
  | totalUtility => exact sumUtilities h
  | utilityTerm v => exact hdropped (some v)

theorem eliminate (h : w.Alike w') (v : Variable) :
    Lockstep (fun _ _ => True) (fun _ s _ t => s.Alike t) (runFrom (StepM.eliminate v) w)
      (runFrom (StepM.eliminate v) w') := by
  refine bind (take h (·.mentions v)) ?_
  rintro fs _ gs _ ⟨hfs, hgs, rfl, rfl⟩
  refine bind (R := fun _ s _ t => s = _ ∧ t = _) (of_returns (returns_modify (u := ⟨⟩).mpr rfl)
    (returns_modify (u := ⟨⟩).mpr rfl) ⟨rfl, rfl⟩) ?_
  rintro _ _ _ _ ⟨rfl, rfl⟩
  have hrest := (h.filter (!·.mentions v)).mark v
  have hempty : fs.isEmpty = gs.isEmpty := by
    rw [← List.isEmpty_map (f := (·.table)), hfs, ← hgs, List.isEmpty_map]
  rw [hempty]
  split
  next hne =>
    refine bind (onRegistry (product (.refl _ _) hfs hgs)) ?_
    rintro f _ g _ ⟨r, r', hcopies, rfl, rfl⟩
    have hmentions : (Table.product (w.tables.filter (·.mentions v))).mentions v := by
      obtain ⟨f, hf⟩ := List.exists_mem_of_ne_nil gs
        (List.isEmpty_eq_false_iff.mp (Bool.not_eq_true' _ ▸ hne))
      have hmem : f.table ∈ w.tables.filter (·.mentions v) := hgs ▸ List.mem_map_of_mem hf
      rw [← hgs]
      exact StepM.mentions_product ⟨f, hf, (List.mem_filter.mp hmem).2⟩
    refine bind (onRegistry (sumOut (.refl _ _) hcopies.left hcopies.right hmentions)) ?_
    rintro f' _ g' _ ⟨r₂, r₂', hcopies', rfl, rfl⟩
    exact insert_new ⟨hrest, hcopies.bothLater.trans hcopies'.bothLater⟩
      (hcopies'.since hcopies.bothLater)
      (Axes.nodup_without (Table.nodup_foldAll (h.distinct.filter _)) v)
  next => exact pure hrest

theorem eliminateHidden (h : w.Alike w') (evidence : List Observation) (query : List Variable)
    (single : Bool) :
    Lockstep (fun _ _ => True) (fun _ s _ t => s.Alike t)
      (runFrom (StepM.eliminateHidden s evidence query single) w)
      (runFrom (StepM.eliminateHidden s evidence query single) w') := by
  refine bind (R := fun a s b t => a = w ∧ b = w' ∧ s = w ∧ t = w')
    (of_returns (returns_get.mpr ⟨rfl, rfl⟩) (returns_get.mpr ⟨rfl, rfl⟩) ⟨rfl, rfl, rfl, rfl⟩) ?_
  rintro _ _ _ _ ⟨rfl, rfl, rfl, rfl⟩
  rw [h.order_hidden]
  refine forM (A := Eq) (fun v _ w w' hv h => ?_) (List.forall₂_same.mpr fun _ _ => rfl) h
  subst hv
  exact eliminate h v

theorem collapse (h : w.Alike w') :
    Lockstep (fun _ _ => True) (fun f _ g _ => f.table = g.table)
      (runFrom StepM.collapse w) (runFrom StepM.collapse w') := by
  refine bind (take h fun _ => true) ?_
  rintro fs _ gs _ ⟨hfs, hgs, rfl, rfl⟩
  refine bind (onRegistry (product (.refl _ _) hfs hgs)) ?_
  rintro f _ g _ ⟨r, r', hcopies, rfl, rfl⟩
  refine bind (of_returns (R := fun _ _ _ _ => True) (StepM.returns_insert (u := ()).mpr rfl)
    (StepM.returns_insert (u := ()).mpr rfl) trivial) fun _ _ _ _ _ => ?_
  exact pure (hcopies.left.trans hcopies.right.symm)

/-- **A question gives the same table in workspaces that are alike.** -/
theorem solve (h : w.Alike w') (evidence : List Observation) (query : List Variable)
    (target : Target) :
    Lockstep (fun _ _ => True) (fun f _ g _ => f.table = g.table)
      (runFrom (StepM.solve s evidence query target) w)
      (runFrom (StepM.solve s evidence query target) w') :=
  bind (observe h evidence) fun _ _ _ _ h => bind (prepare h target) fun _ _ _ _ h =>
    bind (eliminateHidden h evidence query false) fun _ _ _ _ h => collapse h

end

end Lockstep

end Influence
