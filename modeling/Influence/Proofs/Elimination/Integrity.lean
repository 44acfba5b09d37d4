import Influence.Proofs.Elimination.Discipline

/-! # Integrity of the workspace

No sequence of operations breaks the pool of a workspace, whether they succeed or fail: its numbers
ascend and have been handed out, its tables have as many cells as the build counts joint outcomes of
their axes, they mention nothing that has been eliminated and nothing that was not there at the start, and
no factor ever replaces another (`Workspace.isIntact_afterOperations`).  This is the discipline
`Discipline.intact`.

Summing the utilities eliminates a variable if a handle of it is a utility, but only takes out the factors
with such a handle.  Hence the handles of one variable have to agree on it (`Registry.AgreesOnUtility`),
which they still do when a decision has been relabelled.  And the number of the joint outcomes is kept in a
word, so that a table may have fewer cells than there are joint outcomes
(`Workspace.exists_afterOperations_not_isIntact`). -/

namespace Influence

variable {α : Type}

/-! ### Kinds -/

namespace Registry

variable {r : Registry} {handles : Axes}

/-- Handles of one variable agree on whether it is a utility at present. -/
def AgreesOnUtility (r : Registry) (handles : Axes) : Prop :=
  ∀ u ∈ handles, ∀ v ∈ handles, u.id = v.id → (r.kindOf u = .utility ↔ r.kindOf v = .utility)

instance : Decidable (r.AgreesOnUtility handles) :=
  inferInstanceAs (Decidable (∀ u ∈ handles, ∀ v ∈ handles, u.id = v.id →
    (r.kindOf u = .utility ↔ r.kindOf v = .utility)))

theorem AgreesOnUtility.subset {handles' : Axes} (h : r.AgreesOnUtility handles)
    (hsub : handles' ⊆ handles) : r.AgreesOnUtility handles' :=
  fun u hu v hv => h u (hsub hu) v (hsub hv)

theorem AgreesOnUtility.withChance (h : r.AgreesOnUtility handles) {d : Variable}
    (hd : d.id ∈ Axes.ids r.handles) : (r.withChance d).AgreesOnUtility handles := by
  intro u hu v hv huv
  rw [kindOf_withChance hd, kindOf_withChance hd, huv]
  split
  · exact Iff.rfl
  · exact h u hu v hv huv

end Registry

/-! ### Handles that a run may come across -/

namespace Setting

/-- The handles of the factors and of the decisions. -/
def handles (s : Setting α) (factors : List (Factor α)) : Axes :=
  factors.flatMap (·.axes) ++ s.decisionOrder

/-- Those of a variable of the factors. -/
def known (s : Setting α) (factors : List (Factor α)) : Axes :=
  (s.handles factors).filter (Axes.mentions (factors.flatMap (·.axes)))

variable {s : Setting α} {factors : List (Factor α)}

theorem known_subset : s.known factors ⊆ s.handles factors := List.filter_sublist.subset

theorem ids_known_subset : (s.known factors).ids ⊆ Axes.ids (factors.flatMap (·.axes)) := by
  intro id hid
  obtain ⟨v, hv, rfl⟩ := Axes.mem_ids.mp hid
  exact Axes.mentions_iff.mp (List.mem_filter.mp hv).2

theorem mem_known_of_mem {d : Variable} (hd : d ∈ s.decisionOrder)
    (hid : d.id ∈ (s.known factors).ids) : d ∈ s.known factors :=
  List.mem_filter.mpr ⟨List.mem_append_right _ hd, Axes.mentions_iff.mpr (ids_known_subset hid)⟩

theorem axes_subset_known {f : Factor α} (hf : f ∈ factors) : f.axes ⊆ s.known factors := by
  intro v hv
  have hmem : v ∈ factors.flatMap (·.axes) := List.mem_flatMap.mpr ⟨f, hf, hv⟩
  exact List.mem_filter.mpr
    ⟨List.mem_append_left _ hmem, Axes.mentions_iff.mpr (Axes.mem_ids_of_mem hmem)⟩

/-- Handles that agree on their arities have outcomes if the factors have them. -/
theorem arity_pos_of_mem_known (hsizes : (s.handles factors).Agree)
    (hpos : ∀ f ∈ factors, ∀ v ∈ f.axes, 0 < v.arity) {v : Variable} (hv : v ∈ s.known factors) :
    0 < v.arity := by
  obtain ⟨u, hu, hid⟩ := Axes.mem_ids.mp (ids_known_subset (Axes.mem_ids_of_mem hv))
  obtain ⟨f, hf, huf⟩ := List.mem_flatMap.mp hu
  rw [hsizes v (known_subset hv) u (List.mem_append_left _ hu) hid.symm]
  exact hpos f hf u huf

end Setting

/-! ### The discipline -/

section

variable [Build] [Cell α]

/-- Tables are shaped and mention nothing that has been eliminated.  The run is compared with one that adds
factors to the pool in another way. -/
def Discipline.intact (s : Setting α) (put : Factor α → StepM α Unit) (hput : StepM.InsertsNew put)
    (factors : List (Factor α)) (hpos : ∀ v ∈ s.known factors, 0 < v.arity) :
    Discipline ‹Build› ‹Build› s put where
  stops := fun _ => False
  known := s.known factors
  knows := fun _ => True
  knows_of_mem := fun _ _ => trivial
  foreign := []
  exempt := fun _ => False
  holds := fun r => r.AgreesOnUtility (s.known factors)
  base := Table.Shaped
  holds_after := by
    rintro r r' ⟨k, rfl⟩ h
    exact h
  holds_withChance := fun hd h => h.withChance hd
  exempt_of_utility := fun hr hu hv hid hutility hother => hother ((hr _ hu _ hv hid.symm).mp hutility)
  runFrom_put := fun f w h => hput f w fun g hg => (h g hg).resolve_right List.not_mem_nil
  restrict := fun k hf _ => .of_returns fun g r r' h => by
    obtain ⟨-, -, rfl, -⟩ := Factor.of_returns_restrict h
    exact hf.restrict _ k
  sumOut := fun hf _ => .of_returns fun g r r' h => by
    obtain ⟨-, rfl, -⟩ := Factor.of_returns_sumOut h
    exact hf.sumOut _
  foldAll := fun op _ hfs => .of_returns fun g r r' h => by
    obtain ⟨rfl, -⟩ := Factor.of_returns_foldAll h
    exact Table.Shaped.foldAll (List.forall_mem_map.mpr hfs)
  scale := fun c hf => .of_returns fun g r r' h => by
    obtain ⟨rfl, -⟩ := Factor.of_returns_scale h
    exact hf.scale c
  rule := fun hf hmem => .of_returns fun g r r' h => by
    obtain ⟨hmentions, hrule, -⟩ := Factor.of_returns_rule h
    exact hf.of_rule hmentions (hpos _ (hmem hmentions)) hrule

end

/-! ### Whole runs -/

namespace Workspace

/-- The factors of the pool are distinct and have been made, their tables are shaped, and they mention
only variables of `scope` that have not been eliminated. -/
structure IsIntact [Build] (scope : List VariableId) (w : Workspace α) : Prop where
  ascending : w.pool.Pairwise (·.id < ·.id)
  numbered : w.Numbered
  shaped : ∀ f ∈ w.pool, f.table.Shaped
  live : ∀ f ∈ w.pool, ∀ v ∈ f.axes, ¬w.isEliminated v
  scope : ∀ f ∈ w.pool, f.axes.ids ⊆ scope

section

variable [Build] [Cell α] {w₀ w : Workspace α} {s : Setting α} {put : Factor α → StepM α Unit}
  {hput : StepM.InsertsNew put} {r : Registry} {factors : List (Factor α)}
  {hpos : ∀ v ∈ s.known factors, 0 < v.arity}

theorem isIntact_of_governs (h : (Discipline.intact s put hput factors hpos).Governs w₀ w) :
    w.IsIntact (Axes.ids (factors.flatMap (·.axes))) where
  ascending := h.ascending
  numbered := fun f hf => (h.made f hf).resolve_right List.not_mem_nil
  shaped := fun f hf => (h.admits f hf).base
  live := fun f hf v hv hgone => (h.admits f hf).covers.exempt v.id (Axes.mem_ids_of_mem hv)
    (List.contains_iff_mem.mp hgone)
  scope := fun f hf => List.Subset.trans (List.map_subset _ (h.admits f hf).covers.known)
    Setting.ids_known_subset

theorem isClosed_intact : (Discipline.intact s put hput factors hpos).IsClosed :=
  fun _ => Setting.mem_known_of_mem

theorem governs_start (hnumbered : ∀ f ∈ factors, f.id < r.nextFactor)
    (hshaped : ∀ f ∈ factors, f.table.Shaped) (hutility : r.AgreesOnUtility (s.handles factors)) :
    (Discipline.intact s put hput factors hpos).Governs (start r factors) (start r factors) where
  since := ⟨Nat.le_refl _, List.Subset.refl _⟩
  ascending := Pool.pairwise_ofList factors
  made := fun f hf => .inl (numbered_start hnumbered f hf)
  admits := fun f hf =>
    have hmem := Pool.mem_ofList hf
    ⟨hshaped f hmem, (hshaped f hmem).nodup, Setting.axes_subset_known hmem, fun _ _ => nofun⟩
  holds := hutility.subset Setting.known_subset

end

variable [Cell α]

/-- **No sequence of operations breaks the workspace.**  The factors with which it starts are all there,
and after any operations, failed ones among them, it is intact.  No factor has ever been replaced by
another: the next operation would do the same with any insertion that is right for new factors. -/
theorem isIntact_afterOperations (s : Setting α) (r : Registry) (factors : List (Factor α))
    (hdistinct : (factors.map (·.id)).Nodup) (hnumbered : ∀ f ∈ factors, f.id < r.nextFactor)
    (hwellFormed : ∀ f ∈ factors, f.table.WellFormed) (hsizes : (s.handles factors).Agree)
    (hutility : r.AgreesOnUtility (s.handles factors)) :
    (start r factors).pool.Perm factors ∧ ∀ cs : List Operation,
      ((start r factors).afterOperations s cs).IsIntact (Axes.ids (factors.flatMap (·.axes))) ∧
      ∀ put : Factor α → StepM α Unit, StepM.InsertsNew put → ∀ c : Operation,
        runFrom (c.runWith put s) ((start r factors).afterOperations s cs) =
          runFrom (c.run s) ((start r factors).afterOperations s cs) := by
  have hpos : ∀ v ∈ s.known factors, 0 < v.arity := fun v hv =>
    Setting.arity_pos_of_mem_known hsizes (fun f hf => (hwellFormed f hf).arity_pos) hv
  have hgoverns : ∀ put (hput : StepM.InsertsNew put) (cs : List Operation),
      (Discipline.intact s put hput factors hpos).Governs (start r factors)
        ((start r factors).afterOperations s cs) := fun put hput =>
    (governs_start hnumbered (fun f hf => (hwellFormed f hf).shaped) hutility).afterOperations
      isClosed_intact (fun _ => trivial) fun _ => id
  refine ⟨Pool.perm_ofList hdistinct, fun cs => ⟨?_, fun put hput c => ?_⟩⟩
  · exact isIntact_of_governs (hgoverns StepM.insert StepM.insertsNew_insert cs)
  · exact (Discipline.agree_run isClosed_intact (fun _ => trivial) c (hgoverns put hput cs)).eq fun _ _ => id

/-- Whether to take an umbrella: the decision is resolved, an outcome that there is not is observed, and
what is left is multiplied without any factor being refused. -/
theorem isIntact_afterOperations_umbrella :
    let rain : Variable := ⟨0, 2, .chance⟩
    let umbrella : Variable := ⟨1, 2, .decision⟩
    let comfort : Variable := ⟨2, 1, .utility⟩
    let factors : List (Factor ℚ) :=
      [⟨0, [rain], #[3 / 10, 7 / 10]⟩, ⟨1, [rain, umbrella, comfort], #[70, 0, 20, 100]⟩]
    let s : Setting ℚ := ⟨⟨[(umbrella, [])]⟩, [umbrella], [], .minDegree⟩
    let start := Workspace.start ⟨[rain, umbrella, comfort], 3, 2⟩ factors
    let later := start.afterOperations s [.solveDecisions, .observe [⟨rain, 2⟩]]
    start.pool.Perm factors ∧ later.IsIntact [0, 0, 1, 2] ∧ later.eliminated = [2] ∧
      later.pool.map (·.axes) = [[umbrella]] ∧
      (∀ e, runFrom (Operation.collapse.runWith (StepM.refuse e) s) later =
        runFrom (Operation.collapse.run s) later) ∧
      (runFrom (Operation.collapse.run s) later).1.toOption.isSome := by
  intro rain umbrella comfort factors s start later
  obtain ⟨hperm, hruns⟩ := isIntact_afterOperations s ⟨[rain, umbrella, comfort], 3, 2⟩ factors
    (by decide) (by decide) (by decide) (by decide) (by decide)
  obtain ⟨hintact, hput⟩ := hruns [.solveDecisions, .observe [⟨rain, 2⟩]]
  exact ⟨hperm, hintact, by decide +kernel, by decide +kernel,
    fun e => hput _ (StepM.insertsNew_refuse e) _, by decide +kernel⟩

/-- A factor is left that mentions an eliminated variable if two handles of that variable disagree on
whether it is a utility.  And a table has too few cells if the number of its joint outcomes is a multiple of
`2 ^ 64`: a hub with sixteen neighbours of sixteen outcomes each is eliminated, which leaves one table over
the neighbours. -/
theorem exists_afterOperations_not_isIntact :
    (∃ (s : Setting ℚ) (r : Registry) (factors : List (Factor ℚ)) (cs : List Operation),
      (factors.map (·.id)).Nodup ∧ (∀ f ∈ factors, f.id < r.nextFactor) ∧
      (∀ f ∈ factors, f.table.WellFormed) ∧ (s.handles factors).Agree ∧
      ∃ f ∈ ((start r factors).afterOperations s cs).pool, ∃ v ∈ f.axes,
        ((start r factors).afterOperations s cs).isEliminated v) ∧
    ∃ (s : Setting ℚ) (r : Registry) (factors : List (Factor ℚ)) (cs : List Operation),
      (factors.map (·.id)).Nodup ∧ (∀ f ∈ factors, f.id < r.nextFactor) ∧
      (∀ f ∈ factors, f.table.WellFormed) ∧ (s.handles factors).Agree ∧
      r.AgreesOnUtility (s.handles factors) ∧
      ∃ f ∈ ((start r factors).afterOperations s cs).pool,
        f.cells.size = 0 ∧ f.axes.count = 2 ^ 64 := by
  constructor
  · let coin : Variable := ⟨0, 1, .chance⟩
    let payoff : Variable := ⟨0, 1, .utility⟩
    exact ⟨⟨{}, [], [], .minDegree⟩, ⟨[], 0, 2⟩, [⟨0, [coin], #[1]⟩, ⟨1, [payoff], #[2]⟩],
      [.sumUtilities], by decide, by decide, by decide, by decide, by decide +kernel⟩
  · let hub : Variable := ⟨0, 1, .chance⟩
    let neighbours : List Variable := (List.range 16).map fun i => ⟨i.toUInt32 + 1, 16, .chance⟩
    exact ⟨⟨{}, [], [], .minDegree⟩, ⟨hub :: neighbours, 17, 16⟩,
      neighbours.zipIdx.map fun p => ⟨p.2, [hub, p.1], Array.replicate 16 1⟩, [.eliminate hub],
      by decide +kernel, by decide +kernel, by decide +kernel, by decide +kernel, by decide +kernel,
      by decide +kernel⟩

end Workspace

end Influence
