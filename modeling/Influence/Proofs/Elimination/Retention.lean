import Influence.Proofs.Elimination.Axes
import Influence.Proofs.Elimination.Scratch
import Influence.Proofs.Table.Builds

/-! # Backward induction keeps the pool

Resolving the decisions takes nothing out of the pool but the utilities, which are summed at the start.
`Workspace.HasResolved` says what is there when some decisions have been resolved: all other factors as
they were, one factor for the utilities, and the rules.

* **Steps.** It holds once the utilities have been summed (`StepM.hasResolved_of_returns_sumUtilities`),
  and every decision that is resolved keeps it (`Workspace.HasResolved.resolve`).
* **Runs.** So it holds after any number of decisions (`Workspace.HasResolved.resolveAll`), when all have
  been resolved and also when one of them fails (`StepM.hasResolved_solveDecisions`). -/

namespace Influence

section

variable {α : Type} [Build] [Cell α] {s : Setting α} {w w' w₁ w₂ : Workspace α} {d : Variable}
  {res : Resolved α} {rs rs' : List (Resolved α)} {ds : List Variable} {f g : Factor α}

/-! ### What is kept -/

/-- The factor is the weighted sum of the utilities of the pool, with the utility axes summed out.  It is
what the build computes, which is what there is without limits if there is room for the sum. -/
structure Workspace.IsUtilitySum (s : Setting α) (w : Workspace α) (f : Factor α) : Prop where
  table : f.table = (Tables.summedUtilities s w.registry w.tables).foldl Table.sumOut
    (Tables.utilitySum s w.registry w.tables)
  axes : Tables.Distinct w.tables → f.axes =
    (Tables.utilitySum s w.registry w.tables).axes.filter fun v => w.registry.kindOf v != .utility
  unlimited : ∀ sizes, (∀ t ∈ w.tables, Tables.isUtility w.registry t → t.Small sizes) →
    (Tables.utilitySum s w.registry w.tables).axes.count < Build.room →
    f.table = (@Tables.summedUtilities α Exact.build _ s w.registry w.tables).foldl
      (@Table.sumOut α Exact.build _) (@Tables.utilitySum α Exact.build _ s w.registry w.tables)

/-- The later workspace is the earlier one in which the utilities have been summed and some decisions
have been resolved. -/
structure Workspace.HasResolved (s : Setting α) (w : Workspace α) (rs : List (Resolved α))
    (w' : Workspace α) : Prop where
  /-- The factors without utilities, the sum of the others if there are any, and the rules. -/
  pool : ∃ sum : Option (Factor α), sum.isSome = w.pool.any w.mentionsUtility ∧
    (∀ f ∈ sum, w.IsUtilitySum s f) ∧
    w'.pool = w.pool.filter (!w.mentionsUtility ·) ++ sum.toList ++ rs.map (·.rule)
  numbered : w'.Numbered
  ascending : w.pool.Pairwise (·.id < ·.id) → w'.pool.Pairwise (·.id < ·.id)
  eliminated : ∀ id, id ∈ w'.eliminated ↔
    id ∈ w.eliminated ∨ id ∈ (Tables.summedUtilities s w.registry w.tables).ids
  /-- The resolved decisions have been decisions. -/
  decisions : ∀ res ∈ rs, res.decision.id ∈ Axes.ids w.registry.handles ∧
    w.registry.kindOf res.decision = .decision
  /-- They are chance variables now, and otherwise the variables are as they were. -/
  handles : w'.registry.handles = w.registry.handles.map fun v =>
    if v.id ∈ Axes.ids (rs.map (·.decision)) then { v with kind := .chance } else v
  kindOf : ∀ v, w'.registry.kindOf v =
    if v.id ∈ Axes.ids (rs.map (·.decision)) then .chance else w.registry.kindOf v

/-! ### Summing the utilities -/

/-- The utility axes are all that is taken from the sum. -/
theorem Tables.axes_sumUtilities {r : Registry} {ts : List (Table α)} (hts : Tables.Distinct ts) :
    ((summedUtilities s r ts).foldl Table.sumOut (utilitySum s r ts)).axes =
      (utilitySum s r ts).axes.filter fun v => r.kindOf v != .utility := by
  have hnodup : (utilitySum s r ts).axes.ids.Nodup := by
    refine Table.nodup_foldAll fun t ht => ?_
    obtain ⟨u, hu, rfl⟩ := List.mem_map.mp ht
    exact StepM.nodup_weigh s (hts u (List.mem_of_mem_filter hu))
  rw [axes_foldl_sumOut, Axes.foldl_without hnodup]
  refine List.filter_congr fun v hv => ?_
  rw [Bool.eq_iff_iff, Bool.not_eq_true', Axes.mentions_eq_false_iff, bne_iff_ne, ne_eq, not_iff_not]
  constructor
  · intro hid
    obtain ⟨u, hu, huv⟩ := Axes.mem_ids.mp hid
    obtain ⟨hu, hkind⟩ := List.mem_filter.mp hu
    obtain rfl := Axes.eq_of_id_eq hnodup hu hv huv
    exact beq_iff_eq.mp hkind
  · intro hkind
    exact Axes.mem_ids_of_mem (List.mem_filter.mpr ⟨hv, beq_iff_eq.mpr hkind⟩)

omit [Build] in
/-- With room for the sum of the utilities it is the same in every build. -/
theorem Tables.sumOutAll_utilitySum_eq (B B' : Build) {r : Registry} {ts : List (Table α)}
    {sizes : VariableId → ℕ} (hts : ∀ t ∈ ts, isUtility r t → t.Small sizes)
    (hroom : (@utilitySum α B _ s r ts).axes.count < Build.room) :
    (@summedUtilities α B _ s r ts).foldl (@Table.sumOut α B _) (@utilitySum α B _ s r ts) =
      (@summedUtilities α B' _ s r ts).foldl (@Table.sumOut α B' _) (@utilitySum α B' _ s r ts) := by
  have hweigh : ∀ t ∈ ts.filter (isUtility r), (@weigh α B _ s t).Small sizes ∧
      @weigh α B _ s t = @weigh α B' _ s t := by
    intro t ht
    have hsmall := hts t (List.mem_of_mem_filter ht) (List.mem_filter.mp ht).2
    unfold weigh
    split
    · exact ⟨hsmall, rfl⟩
    · exact ⟨hsmall.scale (B := B) _, hsmall.scale_eq B B' _⟩
  have hweighed : ∀ t ∈ (ts.filter (isUtility r)).map (@weigh α B _ s), t.Small sizes :=
    List.forall_mem_map.mpr fun t ht => (hweigh t ht).1
  have hsum : @utilitySum α B _ s r ts = @utilitySum α B' _ s r ts := by
    have hmap : (ts.filter (isUtility r)).map (@weigh α B _ s) =
        (ts.filter (isUtility r)).map (@weigh α B' _ s) := List.map_congr_left fun t ht => (hweigh t ht).2
    unfold utilitySum
    rw [← hmap]
    exact Table.Small.foldAll_eq B B' hweighed hroom
  have hsmall : (@utilitySum α B _ s r ts).Small sizes := .foldAll (B := B) hweighed hroom
  have hus : (Axes.ids (@summedUtilities α B _ s r ts)).Nodup :=
    (List.filter_sublist.map _).nodup hsmall.nodup
  have hsummed : @summedUtilities α B _ s r ts = @summedUtilities α B' _ s r ts := by
    unfold summedUtilities
    rw [hsum]
  rw [← hsummed, ← hsum]
  exact hsmall.foldl_sumOut_eq B B' hus (List.filter_subset_self _)

namespace StepM

open Workspace

/-- Utilities are summed out of a factor one after the other, and only numbers and the eliminated
variables change. -/
theorem of_returns_sumOutUtilities {us : Axes} {r : Registry} (hf : f.IsNew r w.registry)
    (h : Returns (us.foldlM sumOutUtility f) w g w') :
    g.table = us.foldl Table.sumOut f.table ∧ g.IsNew r w'.registry ∧ w'.pool = w.pool ∧
      w'.registry.handles = w.registry.handles ∧
      ∀ id, id ∈ w'.eliminated ↔ id ∈ w.eliminated ∨ id ∈ us.ids := by
  induction us generalizing f w with
  | nil =>
      obtain ⟨rfl, rfl⟩ := returns_pure.mp h
      exact ⟨rfl, hf, rfl, rfl, by simp⟩
  | cons u us ih =>
      obtain ⟨f₁, w₁, hfirst, hrest⟩ := returns_foldlM_cons.mp h
      unfold sumOutUtility at hfirst
      simp only [returns_bind, returns_onRegistry, returns_modify, returns_pure] at hfirst
      obtain ⟨_, _, ⟨_, hsum, rfl⟩, _, _, rfl, rfl, rfl⟩ := hfirst
      obtain ⟨-, rfl, rfl⟩ := Factor.of_returns_sumOut hsum
      obtain ⟨htable, hnew, hpool, hhandles, helim⟩ :=
        ih ((Factor.isNew_after _ w.registry).since hf.later) hrest
      refine ⟨htable, hnew, hpool, hhandles, fun id => ?_⟩
      rw [helim, Axes.ids_cons, List.mem_cons, ← or_assoc]
      exact or_congr_left mem_eliminated_markEliminated

/-- Once the utilities have been summed, no decision has been resolved yet. -/
theorem hasResolved_of_returns_sumUtilities (hw : w.Numbered) {u : Unit}
    (h : Returns (sumUtilities s) w u w') : w.HasResolved s [] w' := by
  let terms := w.pool.filter w.mentionsUtility
  let rest : Workspace α := { w with pool := w.pool.filter (!w.mentionsUtility ·) }
  have hrest : rest.Numbered := fun f hf => hw f (List.mem_of_mem_filter hf)
  have hterms : terms.map (·.table) = w.tables.filter (Tables.isUtility w.registry) :=
    (filter_tables (Tables.isUtility w.registry) w).symm
  have hany : w.pool.any w.mentionsUtility = !terms.isEmpty := by
    rw [Bool.eq_iff_iff, List.any_eq_true, Bool.not_eq_true', List.isEmpty_eq_false_iff_exists_mem]
    simp [terms]
  unfold sumUtilities at h
  simp only [returns_bind, returns_get, returns_take] at h
  obtain ⟨_, _, ⟨rfl, rfl⟩, _, _, ⟨rfl, rfl⟩, h⟩ := h
  split at h
  next hne =>
    simp only [returns_bind, returns_onRegistry, returns_get, returns_insert] at h
    obtain ⟨_, _, hweighed, combined, _, ⟨_, hsum, rfl⟩, _, _, ⟨rfl, rfl⟩, g, w₁, hfold, rfl⟩ := h
    obtain ⟨htables, n, rfl⟩ := (leads_weighAll (w := rest) s terms).of_returns hweighed
    obtain ⟨rfl, rfl⟩ := Factor.of_returns_sum hsum
    rw [htables, hterms] at hfold
    have hlater : w.registry.Later (w.registry.after n) := ⟨n, rfl⟩
    have hcombined := (Factor.isNew_after (Tables.utilitySum s w.registry w.tables)
      (w.registry.after n)).since hlater
    obtain ⟨htable, hnew, hpool, hhandles, helim⟩ := of_returns_sumOutUtilities hcombined hfold
    have hinsert : w₁.insert g = { w₁ with pool := rest.pool ++ [g] } := by
      unfold Workspace.insert
      rw [hpool, Pool.insert_of_forall_lt fun k hk => (hrest k hk).trans_le hnew.le]
    rw [hinsert]
    constructor
    case pool =>
      refine ⟨some g, by rw [hany, hne]; rfl, fun k hk => ?_, (List.append_nil _).symm⟩
      obtain rfl := Option.some.inj hk
      refine ⟨htable, fun hdistinct => ?_, fun sizes hts hroom => ?_⟩
      · rw [Factor.axes, htable]
        exact Tables.axes_sumUtilities hdistinct
      · exact htable.trans (Tables.sumOutAll_utilitySum_eq _ Exact.build hts hroom)
    case numbered => exact hrest.append_new hnew
    case ascending => exact fun h => hrest.pairwise_append_new hnew (h.filter _)
    case eliminated => exact helim
    case decisions => exact fun _ hres => absurd hres List.not_mem_nil
    case handles => simpa using hhandles
    case kindOf => exact fun v => hnew.later.kindOf v
  next hempty =>
    obtain ⟨-, rfl⟩ := returns_pure.mp h
    rw [Bool.not_eq_true, Bool.not_eq_false'] at hempty
    have hnone : w.tables.filter (Tables.isUtility w.registry) = [] := by
      rw [← hterms, List.map_eq_nil_iff]
      exact List.isEmpty_iff.mp hempty
    have hsummed : Tables.summedUtilities s w.registry w.tables = [] := by
      rw [Tables.summedUtilities, Tables.utilitySum, hnone]
      rfl
    constructor
    case pool =>
      refine ⟨none, ?_, fun _ hk => absurd hk (Option.not_mem_none _), by simp⟩
      rw [hany, hempty]
      rfl
    case numbered => exact hrest
    case ascending => exact fun h => h.filter _
    case eliminated =>
      intro id
      rw [hsummed]
      simp
    case decisions => exact fun _ hres => absurd hres List.not_mem_nil
    case handles => simp
    case kindOf => exact fun v => rfl

end StepM

/-! ### Resolving decisions -/

namespace Workspace.HasResolved

theorem later {r : Registry} (h : w.HasResolved s rs w₁) (hr : w₁.registry.Later r) :
    w.HasResolved s rs { w₁ with registry := r } :=
  { h with
    numbered := fun f hf => (h.numbered f hf).trans_le hr.le
    handles := hr.handles.trans h.handles
    kindOf := fun v => (hr.kindOf v).trans (h.kindOf v) }

/-- **Resolving one more decision adds its rule and changes its kind.** -/
theorem resolve (h : w.HasResolved s rs w₁) (hres : Returns (StepM.resolve s d) w₁ res w₂) :
    w.HasResolved s (rs ++ [res]) w₂ := by
  obtain ⟨rfl, hkind, hmem, after, hdecide, rfl⟩ := StepM.of_returns_resolve h.numbered hres
  have hnew := StepM.isNew_of_returns_decideHere hdecide
  have hids : Axes.ids w₁.registry.handles = Axes.ids w.registry.handles := by
    rw [h.handles, Axes.ids, Axes.ids, List.map_map]
    refine List.map_congr_left fun v _ => ?_
    rw [Function.comp_apply]
    split <;> rfl
  have hdecisions : Axes.ids ((rs ++ [res]).map (·.decision)) =
      Axes.ids (rs.map (·.decision)) ++ [res.decision.id] := by simp [Axes.ids]
  constructor
  case pool =>
    obtain ⟨sum, hsome, hsum, hpool⟩ := h.pool
    refine ⟨sum, hsome, hsum, ?_⟩
    rw [hpool, List.map_append, List.append_assoc _ (rs.map _)]
    rfl
  case numbered => exact fun f hf => h.numbered.append_new hnew f hf
  case ascending => exact fun hw => h.numbered.pairwise_append_new hnew (h.ascending hw)
  case eliminated => exact h.eliminated
  case decisions =>
    intro res' hres'
    rcases List.mem_append.mp hres' with hres' | hres'
    · exact h.decisions res' hres'
    · obtain rfl := List.mem_singleton.mp hres'
      refine ⟨hids ▸ hmem, ?_⟩
      rw [h.kindOf] at hkind
      split at hkind
      · cases hkind
      · exact hkind
  case handles =>
    rw [Registry.withChance, hnew.later.handles, h.handles, List.map_map, hdecisions]
    refine List.map_congr_left fun v _ => ?_
    by_cases hv : v.id ∈ Axes.ids (rs.map (·.decision))
    · simp [hv]
    · simp [hv]
  case kindOf =>
    intro v
    rw [← hnew.later.handles] at hmem
    refine (Registry.kindOf_withChance hmem v).trans ?_
    rw [hnew.later.kindOf, h.kindOf, hdecisions]
    by_cases hv : v.id = res.decision.id
    · simp [hv]
    · simp [hv]

theorem resolveAll (h : w.HasResolved s rs w₁) (hrun : Returns (ds.mapM (StepM.resolve s)) w₁ rs' w₂) :
    w.HasResolved s (rs ++ rs') w₂ := by
  induction ds generalizing rs rs' w₁ with
  | nil =>
      obtain ⟨rfl, rfl⟩ := returns_mapM_nil.mp hrun
      rwa [List.append_nil]
  | cons d ds ih =>
      obtain ⟨res, w₁, rest, hfirst, hrest, rfl⟩ := returns_mapM_cons.mp hrun
      have hlast := ih (h.resolve hfirst) hrest
      rwa [List.append_assoc] at hlast

end Workspace.HasResolved

namespace StepM

theorem hasResolved_of_returns (hw : w.Numbered)
    (h : Returns (sumUtilities s >>= fun _ => ds.mapM (resolve s)) w rs w₁) : w.HasResolved s rs w₁ := by
  obtain ⟨_, w₀, hsum, hrun⟩ := returns_bind.mp h
  exact (hasResolved_of_returns_sumUtilities hw hsum).resolveAll hrun

/-- **Backward induction never consumes the pool.**  When all decisions have been resolved, the pool holds
the factors without utilities as they were, one factor for the utilities if there are any, and the rules
of the decisions, which are chance variables now.  That factor is the sum of the utilities, as far as
there is room for it (`exists_sum_without_cells`).  When no rule is found for a decision, the run fails
there, and the pool and the eliminated variables are those that the decisions after it have left. -/
theorem hasResolved_solveDecisions (hw : w.Numbered) (hdecisions : s.decisionOrder ≠ []) :
    (∀ rs w', Returns (solveDecisions s) w rs w' →
      rs.map (·.decision) = s.decisionOrder ∧ w.HasResolved s rs.reverse w') ∧
    ∀ before d after, s.decisionOrder = before ++ d :: after → ∀ rs w₁ e w₂,
      Returns (sumUtilities s >>= fun _ => after.reverse.mapM (resolve s)) w rs w₁ →
      runFrom (inScratch (decideHere s d)) w₁ = (.error e, w₂) →
      runFrom (solveDecisions s) w = (.error e, w₂) ∧ w₂.pool = w₁.pool ∧
        w₂.eliminated = w₁.eliminated ∧ w.HasResolved s rs w₂ := by
  have hopen : ¬s.decisionOrder.isEmpty := by simpa using hdecisions
  constructor
  · intro rs w' h
    refine ⟨decision_of_returns_solveDecisions h, ?_⟩
    unfold solveDecisions at h
    rw [if_neg hopen] at h
    obtain ⟨_, w₀, hsum, h⟩ := returns_bind.mp h
    obtain ⟨resolved, _, hrun, h⟩ := returns_bind.mp h
    obtain ⟨rfl, rfl⟩ := returns_pure.mp h
    rw [List.reverse_reverse]
    exact hasResolved_of_returns hw (returns_bind.mpr ⟨_, w₀, hsum, hrun⟩)
  · intro before d after horder rs w₁ e w₂ hrun hfail
    have hresolved := hasResolved_of_returns hw hrun
    obtain rfl : { w₁ with registry := (runFrom (decideHere s d) w₁).2.registry } = w₂ :=
      congrArg Prod.snd hfail
    refine ⟨?_, rfl, rfl, hresolved.later (Keeps.decideHere s d w₁)⟩
    obtain ⟨_, w₀, hsum, hrun⟩ := returns_bind.mp hrun
    have hresolve : runFrom (resolve s d) w₁ = (.error e, _) := runFrom_bind_of_error hfail
    have hreverse : s.decisionOrder.reverse = after.reverse ++ d :: before.reverse := by simp [horder]
    unfold solveDecisions
    rw [if_neg hopen, runFrom_bind_of_returns hsum, hreverse]
    exact runFrom_bind_of_error (runFrom_mapM_of_error hrun hresolve _)

end StepM

end

namespace StepM

/-- Whether to take an umbrella: the pool keeps the weather and gains what is felt and the rule.  A hat
that nothing depends on has no rule, and the umbrella keeps its own. -/
theorem hasResolved_solveDecisions_umbrella :
    let rain : Variable := ⟨0, 2, .chance⟩
    let umbrella : Variable := ⟨1, 2, .decision⟩
    let comfort : Variable := ⟨2, 1, .utility⟩
    let hat : Variable := ⟨3, 2, .decision⟩
    let w : Workspace ℚ := .start ⟨[rain, umbrella, comfort, hat], 4, 2⟩
      [⟨0, [rain], #[3 / 10, 7 / 10]⟩, ⟨1, [rain, umbrella, comfort], #[70, 0, 20, 100]⟩]
    let one : Setting ℚ := ⟨⟨[(umbrella, [])]⟩, [umbrella], [], .minDegree⟩
    let two : Setting ℚ := ⟨⟨[(hat, []), (umbrella, [])]⟩, [hat, umbrella], [], .minDegree⟩
    w.Numbered ∧
    (∃ rs w', Returns (solveDecisions one) w rs w' ∧ rs.map (·.decision) = [umbrella] ∧
      w.HasResolved one rs.reverse w') ∧
    ∃ rs e w', runFrom (solveDecisions two) w = (.error e, w') ∧ rs.map (·.decision) = [umbrella] ∧
      w.HasResolved two rs w' := by
  intro rain umbrella comfort hat w one two
  have hw : w.Numbered := Workspace.numbered_start (by decide)
  obtain ⟨rs, w', hreturns, -⟩ := exists_returns_of_toOption (x := solveDecisions one) (s := w)
    (P := fun _ => True) (by decide +kernel)
  obtain ⟨rs₁, w₁, hrun, hfail⟩ := exists_returns_of_toOption (s := w)
    (x := sumUtilities two >>= fun _ => [umbrella].reverse.mapM (resolve two))
    (P := fun _ => (runFrom (inScratch (decideHere two hat)) (runFrom
      (sumUtilities two >>= fun _ => [umbrella].reverse.mapM (resolve two)) w).2).1.toOption = none)
    (by decide +kernel)
  rw [show (runFrom _ w).2 = w₁ from congrArg Prod.snd hrun] at hfail
  obtain ⟨e, w₂, hfail⟩ := exists_error_of_toOption hfail
  refine ⟨hw, ⟨rs, w', hreturns, ?_⟩, rs₁, e, w₂, ?_⟩
  · exact (hasResolved_solveDecisions hw (s := one) (by simp [one])).1 rs w' hreturns
  · obtain ⟨hfails, -, -, hresolved⟩ := (hasResolved_solveDecisions hw (s := two) (by simp [two])).2
      [] hat [umbrella] rfl rs₁ w₁ e w₂ hrun hfail
    obtain ⟨_, _, -, hrun⟩ := returns_bind.mp hrun
    exact ⟨hfails, decision_of_returns_resolveAll hrun, hresolved⟩

/-- Sixteen payoffs that depend on a die each, and one that depends on a decision after seeing all dice.
There is no room for their sum, and what is left of it has no cells. -/
theorem exists_sum_without_cells : ∃ (s : Setting ℚ) (w : Workspace ℚ), w.Numbered ∧
    (∀ f ∈ w.pool, f.table.WellFormed) ∧ s.decisionOrder ≠ [] ∧
    ∃ rs w', Returns (solveDecisions s) w rs w' ∧
      ∃ f ∈ w'.pool, f.axes = s.decisionOrder.flatMap (fun d => s.dependencies.parents d ++ [d]) ∧
        f.axes.count = 2 ^ 65 ∧ f.cells = #[] := by
  let dice : List Variable := (List.range 16).map fun i => ⟨i.toUInt32, 16, .chance⟩
  let stake : Variable := ⟨16, 2, .decision⟩
  let prize : Variable := ⟨17, 1, .utility⟩
  let s : Setting ℚ := ⟨⟨[(stake, dice)]⟩, [stake], [], .minDegree⟩
  let w : Workspace ℚ := .start ⟨dice ++ [stake, prize], 18, 17⟩
    (dice.map (fun v => ⟨v.id.toNat, [v, prize], Array.replicate 16 1⟩) ++ [⟨16, [stake, prize], #[0, 1]⟩])
  obtain ⟨rs, w', hreturns, hpool⟩ := exists_returns_of_toOption (x := solveDecisions s) (s := w)
    (P := fun _ => ∃ f ∈ (runFrom (solveDecisions s) w).2.pool,
      f.axes = s.decisionOrder.flatMap (fun d => s.dependencies.parents d ++ [d]) ∧
      f.axes.count = 2 ^ 65 ∧ f.cells = #[]) (by decide +kernel)
  rw [show (runFrom (solveDecisions s) w).2 = w' from congrArg Prod.snd hreturns] at hpool
  exact ⟨s, w, Workspace.numbered_start (by decide), by decide, by decide, rs, w', hreturns, hpool⟩

end StepM

end Influence
