import Influence.Proofs.Elimination.Order
import Influence.Proofs.Elimination.Tidy

/-! # The elimination of the hidden variables

The hidden variables and their order are fixed before the pass begins, while each elimination merges
factors.  `Workspace.Sheds` says what the elimination of some variables leaves: these and no others are
marked, and the factors mention some of the variables that were there, but none of these.  It holds for
one variable whatever the pool is (`StepM.sheds_of_returns_eliminate`), and is composed along the pass.

No variable becomes hidden on the way, and none that is not hidden gets lost
(`Workspace.eliminateHidden_complete`), unless two handles of one variable have different kinds or a
factor of another registry has a number that is handed out once more
(`Workspace.exists_eliminateHidden_incomplete`).  Handles with different numbers of outcomes make the pass
read beyond a table, which stops it; nothing is said of such a run. -/

namespace Influence

variable {α : Type}

/-! ### Eliminated variables leave the pool -/

namespace Workspace

/-- What is left when some variables have been eliminated. -/
structure Sheds (vars : List Variable) (w w' : Workspace α) : Prop where
  later : w.Later w'
  eliminated : ∀ id, id ∈ w'.eliminated ↔ id ∈ w.eliminated ∨ id ∈ Axes.ids vars
  distinct : ∀ g ∈ w'.pool, g.axes.ids.Nodup
  shed : ∀ g ∈ w'.pool, ∀ u ∈ g.axes, u ∈ w.pool.flatMap (·.axes) ∧ u.id ∉ Axes.ids vars

theorem Sheds.refl {w : Workspace α} (hdistinct : ∀ f ∈ w.pool, f.axes.ids.Nodup) :
    w.Sheds [] w where
  later := refl_of Workspace.Later w
  eliminated := by simp
  distinct := hdistinct
  shed := fun g hg u hu => ⟨List.mem_flatMap.mpr ⟨g, hg, hu⟩, List.not_mem_nil⟩

theorem Sheds.cons {v : Variable} {vars : List Variable} {w w' w'' : Workspace α}
    (h : w.Sheds [v] w') (h' : w'.Sheds vars w'') : w.Sheds (v :: vars) w'' where
  later := trans_of Workspace.Later h.later h'.later
  eliminated := fun id => by
    rw [h'.eliminated, h.eliminated, or_assoc, Axes.ids_cons, Axes.ids_cons, List.mem_cons,
      List.mem_cons]
    simp
  distinct := h'.distinct
  shed := by
    intro g hg u hu
    obtain ⟨hold, hvars⟩ := h'.shed g hg u hu
    obtain ⟨f, hf, huf⟩ := List.mem_flatMap.mp hold
    obtain ⟨hfirst, hv⟩ := h.shed f hf u huf
    refine ⟨hfirst, fun hmem => ?_⟩
    rcases List.mem_cons.mp hmem with heq | hmem
    · exact hv (List.mem_singleton.mpr heq)
    · exact hvars hmem

end Workspace

namespace StepM

open Workspace

variable [Build] [Cell α] {w w' : Workspace α} {s : Setting α} {v : Variable}

/-- The sum over a variable takes the place of the factors that mention it. -/
theorem of_returns_eliminate (h : Returns (eliminate v) w () w') :
    w.Later w' ∧ w'.eliminated = (w.markEliminated v).eliminated ∧
      ∀ g ∈ w'.pool, g ∈ w.pool ∧ ¬g.mentions v ∨ g.table = Tables.summand v w.tables := by
  have hlater := (Keeps.eliminate v).of_returns h
  let rest : Workspace α :=
    { w.markEliminated v with pool := w.pool.filter fun f => !f.table.mentions v }
  have hrest : ∀ g ∈ rest.pool, g ∈ w.pool ∧ ¬g.mentions v := by
    intro g hg
    obtain ⟨hg, hno⟩ := List.mem_filter.mp hg
    rw [Bool.not_eq_true', ← Bool.not_eq_true] at hno
    exact ⟨hg, hno⟩
  unfold eliminate at h
  simp only [returns_bind, returns_take, returns_modify] at h
  obtain ⟨_, _, ⟨rfl, rfl⟩, _, _, rfl, h⟩ := h
  split at h
  · simp only [returns_bind, returns_onRegistry, returns_insert] at h
    obtain ⟨joint, _, ⟨_, hjoint, rfl⟩, f, _, ⟨_, hf, rfl⟩, rfl⟩ := h
    obtain ⟨rfl, rfl⟩ := Factor.of_returns_product hjoint
    obtain ⟨-, rfl, rfl⟩ := Factor.of_returns_sumOut hf
    refine ⟨hlater, rfl, fun g hg => ?_⟩
    rcases Pool.mem_insert hg with rfl | hg
    · refine .inr ?_
      rw [Tables.summand, filter_tables]
      rfl
    · exact .inl (hrest g hg)
  · obtain ⟨-, rfl⟩ := returns_pure.mp h
    exact ⟨hlater, rfl, fun g hg => .inl (hrest g hg)⟩

theorem sheds_of_returns_eliminate (hdistinct : ∀ f ∈ w.pool, f.axes.ids.Nodup)
    (h : Returns (eliminate v) w () w') : w.Sheds [v] w' := by
  obtain ⟨hlater, heliminated, hpool⟩ := of_returns_eliminate h
  have hproduct : (Table.product (w.tables.filter (·.mentions v))).axes.ids.Nodup := by
    refine Table.nodup_foldAll fun t ht => ?_
    obtain ⟨f, hf, rfl⟩ := List.mem_map.mp (List.mem_of_mem_filter ht)
    exact hdistinct f hf
  have haxes : (Tables.summand v w.tables).axes =
      Axes.without (Table.product (w.tables.filter (·.mentions v))).axes v := Table.axes_sumOut _ _
  refine ⟨hlater, fun id => ?_, fun g hg => ?_, fun g hg u hu => ?_⟩
  · rw [heliminated, mem_eliminated_markEliminated, Axes.ids_cons, List.mem_cons]
    simp
  · rcases hpool g hg with ⟨hg, -⟩ | hg
    · exact hdistinct g hg
    · rw [Factor.axes, hg, haxes]
      exact Axes.nodup_without hproduct v
  · rcases hpool g hg with ⟨hg, hno⟩ | hg
    · refine ⟨List.mem_flatMap.mpr ⟨g, hg, hu⟩, fun hmem => hno ?_⟩
      rw [Axes.ids_cons, List.mem_cons] at hmem
      exact Table.mentions_iff.mpr (hmem.resolve_right List.not_mem_nil ▸ Axes.mem_ids_of_mem hu)
    · rw [Factor.axes, hg, haxes] at hu
      obtain ⟨t, ht, hut⟩ := Table.axes_foldAll_subset (Axes.mem_of_mem_without hu)
      obtain ⟨f, hf, rfl⟩ := List.mem_map.mp (List.mem_of_mem_filter ht)
      refine ⟨List.mem_flatMap.mpr ⟨f, hf, hut⟩, fun hmem => ?_⟩
      rw [Axes.ids_cons, List.mem_cons] at hmem
      exact ((Axes.mem_ids_without hproduct).mp (Axes.mem_ids_of_mem hu)).2
        (hmem.resolve_right List.not_mem_nil)

theorem sheds_of_returns_eliminateAll {vars : List Variable}
    (hdistinct : ∀ f ∈ w.pool, f.axes.ids.Nodup) (h : Returns (vars.forM eliminate) w ⟨⟩ w') :
    w.Sheds vars w' := by
  induction vars generalizing w with
  | nil =>
      obtain rfl := returns_forM_nil.mp h
      exact .refl hdistinct
  | cons v vars ih =>
      obtain ⟨w₁, hfirst, hrest⟩ := returns_forM_cons.mp h
      have hsheds := sheds_of_returns_eliminate hdistinct hfirst
      exact hsheds.cons (ih hsheds.distinct hrest)

theorem sheds_of_returns_eliminateHidden {evidence : List Observation} {query : List Variable}
    {single : Bool} (hdistinct : ∀ f ∈ w.pool, f.axes.ids.Nodup)
    (h : Returns (eliminateHidden s evidence query single) w () w') :
    w.Sheds (s.heuristic.order (w.hidden s evidence query single) w.pool) w' := by
  unfold eliminateHidden at h
  simp only [returns_bind, returns_get] at h
  obtain ⟨_, _, ⟨rfl, rfl⟩, hall⟩ := h
  exact sheds_of_returns_eliminateAll hdistinct hall

end StepM

/-! ### The pass is complete -/

namespace Workspace

section

variable [Build] [Cell α] {w₀ w w' : Workspace α} {s : Setting α} {r : Registry}
  {factors : List (Factor α)} {evidence : List Observation} {query : List Variable} {single : Bool}
  {v : Variable}

/-- A chance variable of a tidy pool is hidden, unless the evidence, the query or an open decision needs
it. -/
theorem mem_ids_hidden_of_tidy (h : (Discipline.tidy s r factors).Governs w₀ w)
    (hagrees : r.AgreesOnChance (s.handles factors)) (hv : v ∈ w.pool.flatMap (·.axes))
    (hkind : w.registry.kindOf v = .chance)
    (hevidence : v.id ∉ Axes.ids (evidence.map (·.subject))) (hquery : v.id ∉ Axes.ids query)
    (hrequired : v.id ∉ Axes.ids (w.required s single)) :
    v.id ∈ Axes.ids (w.hidden s evidence query single) := by
  have hknown : w.pool.flatMap (·.axes) ⊆ s.handles factors := by
    intro u hu
    obtain ⟨f, hf, huf⟩ := List.mem_flatMap.mp hu
    exact (h.admits f hf).covers.known huf
  -- the pass looks at the handle that comes first, which is one of the same kind
  obtain ⟨u, hu, hid⟩ := Axes.mem_ids.mp (Axes.mem_ids_union.mpr (.inr (Axes.mem_ids_of_mem hv)) :
    v.id ∈ (Axes.union [] (w.pool.flatMap (·.axes))).ids)
  have huknown : u ∈ s.handles factors :=
    hknown ((Axes.mem_of_mem_union hu).resolve_left List.not_mem_nil)
  have hukind : w.registry.kindOf u = .chance :=
    (h.holds.agrees hagrees v (hknown hv) u huknown hid.symm).mp hkind
  have hlive : v.id ∉ w.eliminated := by
    intro hgone
    obtain ⟨f, hf, hvf⟩ := List.mem_flatMap.mp hv
    have hnever := (h.admits f hf).covers.exempt v.id (Axes.mem_ids_of_mem hvf) hgone hagrees
    exact (hnever.continues h.holds).kindOf_ne (hknown hv) hkind
  rw [← hid] at hlive hevidence hquery hrequired ⊢
  rw [← axes_tables] at hu
  exact Axes.mem_ids_of_mem (mem_hidden.mpr ⟨hu, hukind, hlive, hevidence, hquery, hrequired⟩)

omit [Build] [Cell α] in
theorem required_congr (h : w'.registry.kindOf = w.registry.kindOf) :
    w'.required s single = w.required s single := by
  simp only [required, undecided, h]

end

variable [Cell α]

/-- **The hidden variables are eliminated, and no others.**  An order of elimination lists each variable
once, in strictly ascending order, and does not depend on how variables and factors are listed.  If in a
workspace that any operations have led to the elimination of the hidden variables returns, it has marked
exactly these.  If the handles of a variable agree on chance, no chance variable is left that is not
needed, and if the factors have numbers that have been handed out, all other variables are left. -/
theorem eliminateHidden_complete (s : Setting α) (r : Registry) (factors : List (Factor α))
    (hdistinct : ∀ f ∈ factors, f.axes.ids.Nodup) :
    (∀ (h : Heuristic) (hidden : List Variable) (fs : List (Factor α)), (Axes.ids hidden).Nodup →
      (h.order hidden fs).Perm hidden ∧ (h.order hidden fs).Pairwise (h.Before fs) ∧
      ∀ hidden' fs', hidden'.Perm hidden → fs'.Perm fs → h.order hidden' fs' = h.order hidden fs) ∧
    ∀ (cs : List Operation) (evidence : List Observation) (query : List Variable) (single : Bool)
      (w' : Workspace α), let w := (start r factors).afterOperations s cs
      Returns (StepM.eliminateHidden s evidence query single) w () w' →
        (∀ id, id ∈ w'.eliminated ↔
          id ∈ w.eliminated ∨ id ∈ Axes.ids (w.hidden s evidence query single)) ∧
        (r.AgreesOnChance (s.handles factors) → ∀ f ∈ w'.pool, ∀ v ∈ f.axes,
          w'.registry.kindOf v = .chance → v.id ∈ Axes.ids (evidence.map (·.subject)) ∨
            v.id ∈ Axes.ids query ∨ v.id ∈ Axes.ids (w'.required s single)) ∧
        ((∀ f ∈ factors, f.id < r.nextFactor) → ∀ id,
          id ∈ Axes.ids (w'.pool.flatMap (·.axes)) ↔ id ∈ Axes.ids (w.pool.flatMap (·.axes)) ∧
            id ∉ Axes.ids (w.hidden s evidence query single)) := by
  refine ⟨fun h hidden fs hnodup => ⟨h.perm_order hidden fs, Heuristic.pairwise_order hnodup,
    fun _ _ => Heuristic.order_eq_of_perm hnodup⟩, ?_⟩
  intro cs evidence query single w' w hreturns
  have htidy : (Discipline.tidy s r factors).Governs (start r factors) w :=
    Discipline.tidy_afterOperations s r hdistinct cs
  have hsheds := StepM.sheds_of_returns_eliminateHidden
    (fun f hf => (htidy.admits f hf).covers.distinct) hreturns
  have hids : ∀ id, id ∈ Axes.ids (s.heuristic.order (w.hidden s evidence query single) w.pool) ↔
      id ∈ Axes.ids (w.hidden s evidence query single) := fun id =>
    ((s.heuristic.perm_order (w.hidden s evidence query single) w.pool).map (·.id)).mem_iff
  refine ⟨fun id => ?_, fun hagrees f hf v hv hkind => ?_, fun hnumbered id => ?_⟩
  · rw [hsheds.eliminated, hids]
  · have hkinds : w'.registry.kindOf = w.registry.kindOf := funext hsheds.later.kindOf
    rw [hkinds] at hkind
    rw [required_congr hkinds]
    obtain ⟨hold, hshed⟩ := hsheds.shed f hf v hv
    rw [hids] at hshed
    by_contra hneeded
    obtain ⟨hevidence, hquery, hrequired⟩ := not_or.mp hneeded |>.imp_right not_or.mp
    exact hshed (mem_ids_hidden_of_tidy htidy hagrees hold hkind hevidence hquery hrequired)
  · have hw : w.Numbered := fun f hf => (htidy.made f hf).elim (fun h => h) fun hf =>
      (hnumbered f (Pool.mem_ofList hf)).trans_le htidy.holds.le
    have htables : Tables.Distinct w.tables := fun t ht => by
      obtain ⟨f, hf, rfl⟩ := List.mem_map.mp ht
      exact (htidy.admits f hf).covers.distinct
    have hreach := (StepM.leads_eliminateHidden hw s evidence query single).of_returns hreturns
    rw [← axes_tables, ← axes_tables, hreach.tables_eq, Tables.mem_ids_eliminateAll htables, hids]

/-- Whether to take an umbrella, knowing the forecast: the utility is summed, and of the chance variables
only the rain is hidden. -/
theorem eliminateHidden_complete_umbrella :
    let rain : Variable := ⟨0, 2, .chance⟩
    let forecast : Variable := ⟨1, 2, .chance⟩
    let umbrella : Variable := ⟨2, 2, .decision⟩
    let comfort : Variable := ⟨3, 1, .utility⟩
    let factors : List (Factor ℚ) := [⟨0, [rain], #[3 / 10, 7 / 10]⟩,
      ⟨1, [rain, forecast], #[4 / 5, 1 / 5, 1 / 4, 3 / 4]⟩,
      ⟨2, [rain, umbrella, comfort], #[70, 0, 20, 100]⟩]
    let s : Setting ℚ := ⟨⟨[(umbrella, [forecast])]⟩, [umbrella], [], .minDegree⟩
    let r : Registry := ⟨[rain, forecast, umbrella, comfort], 4, 3⟩
    let w := (start r factors).afterOperations s [.sumUtilities]
    (∀ f ∈ factors, f.axes.ids.Nodup) ∧ (Axes.ids [rain, forecast]).Nodup ∧
      r.AgreesOnChance (s.handles factors) ∧ (∀ f ∈ factors, f.id < r.nextFactor) ∧
      Heuristic.minDegree.order [rain, forecast] factors = [forecast, rain] ∧
      Heuristic.minDegree.order [forecast, rain] factors.reverse = [forecast, rain] ∧
      ∃ w', Returns (StepM.eliminateHidden s [] [] false) w () w' ∧
        (∀ id, id ∈ w'.eliminated ↔ id ∈ [3] ∨ id ∈ [0]) ∧
        (∀ f ∈ w'.pool, ∀ v ∈ f.axes, w'.registry.kindOf v = .chance →
          v.id ∈ Axes.ids (w'.required s false)) ∧
        ∀ id, id ∈ Axes.ids (w'.pool.flatMap (·.axes)) ↔ id ∈ [0, 0, 1, 0, 2] ∧ id ∉ [0] := by
  intro rain forecast umbrella comfort factors s r w
  obtain ⟨horder, hpass⟩ := eliminateHidden_complete s r factors (by decide)
  obtain ⟨-, -, hsame⟩ := horder .minDegree [rain, forecast] factors (by decide)
  have hfirst : Heuristic.minDegree.order [rain, forecast] factors = [forecast, rain] := by
    decide +kernel
  have hsecond := hsame [forecast, rain] factors.reverse (.swap _ _ _) (List.reverse_perm factors)
  obtain ⟨_, w', hreturns, -⟩ := exists_returns_of_toOption (P := fun _ => True)
    (x := StepM.eliminateHidden s [] [] false) (s := w) (by decide +kernel)
  obtain ⟨heliminated, hchance, hids⟩ := hpass [.sumUtilities] [] [] false w' hreturns
  have hhidden : Axes.ids (w.hidden s [] [] false) = [0] := by decide +kernel
  have hgone : w.eliminated = [3] := by decide +kernel
  have hpool : Axes.ids (w.pool.flatMap (·.axes)) = [0, 0, 1, 0, 2] := by decide +kernel
  refine ⟨by decide, by decide, by decide +kernel, by decide, hfirst, hsecond.trans hfirst, w', hreturns,
    fun id => ?_, fun f hf v hv hkind => ?_, fun id => ?_⟩
  · rw [heliminated, hhidden, hgone]
  · have hneeded := hchance (by decide +kernel) f hf v hv hkind
    exact (hneeded.resolve_left List.not_mem_nil).resolve_left List.not_mem_nil
  · rw [hids (by decide), hhidden, hpool]

/-- A chance variable stays in the pool if an unknown variable has a handle of another kind, which comes
first, and a variable that is not hidden gets lost if the number of its only factor is handed out once
more. -/
theorem exists_eliminateHidden_incomplete :
    (∃ (s : Setting ℚ) (r : Registry) (factors : List (Factor ℚ)) (w' : Workspace ℚ),
      (∀ f ∈ factors, f.table.WellFormed) ∧ (∀ f ∈ factors, f.id < r.nextFactor) ∧
      Returns (StepM.eliminateHidden s [] [] false) (start r factors) () w' ∧
      w'.required s false = [] ∧ ∃ f ∈ w'.pool, ∃ v ∈ f.axes, w'.registry.kindOf v = .chance) ∧
    ∃ (s : Setting ℚ) (r : Registry) (factors : List (Factor ℚ)) (b : Variable) (w' : Workspace ℚ),
      (∀ f ∈ factors, f.table.WellFormed) ∧ r.AgreesOnChance (s.handles factors) ∧
      Returns (StepM.eliminateHidden s [] [b] false) (start r factors) () w' ∧
      (∃ f ∈ (start r factors).pool, f.mentions b) ∧
      b ∉ (start r factors).hidden s [] [b] false ∧ ∀ f ∈ w'.pool, ¬f.mentions b := by
  let coin : Variable := ⟨0, 1, .chance⟩
  let payoff : Variable := ⟨0, 1, .utility⟩
  let guess : Variable := ⟨1, 1, .chance⟩
  let s : Setting ℚ := ⟨{}, [], [], .minDegree⟩
  constructor
  · let w : Workspace ℚ := start ⟨[], 0, 2⟩ [⟨0, [payoff], #[2]⟩, ⟨1, [coin], #[1]⟩]
    obtain ⟨_, w', hreturns, -⟩ := exists_returns_of_toOption (P := fun _ => True)
      (x := StepM.eliminateHidden s [] [] false) (s := w) (by decide +kernel)
    obtain rfl : (runFrom (StepM.eliminateHidden s [] [] false) w).2 = w' :=
      congrArg Prod.snd hreturns
    exact ⟨s, _, _, _, by decide, by decide, hreturns, by decide +kernel, by decide +kernel⟩
  · let w : Workspace ℚ := start ⟨[coin, guess], 2, 1⟩ [⟨0, [coin], #[1]⟩, ⟨2, [guess], #[1]⟩]
    obtain ⟨_, w', hreturns, -⟩ := exists_returns_of_toOption (P := fun _ => True)
      (x := StepM.eliminateHidden s [] [guess] false) (s := w) (by decide +kernel)
    obtain rfl : (runFrom (StepM.eliminateHidden s [] [guess] false) w).2 = w' :=
      congrArg Prod.snd hreturns
    exact ⟨s, _, _, guess, _, by decide, by decide +kernel, hreturns, by decide +kernel,
      by decide +kernel, by decide +kernel⟩

end Workspace

end Influence
