import Influence.Proofs.Elimination.Reordering

/-! # One table of a pool

An elimination multiplies a table by some tables of its pool and sums over some variables.  Which
ones depends only on the variables that the table mentions, not on its cells: the rest of the pool
is a `Surrounding` of the table (`Tables.exists_surrounding`).  So an elimination is linear in each
table. -/

namespace Influence

open scoped Exact

variable {sizes : VariableId → ℕ}

/-- What an elimination does to one table of a pool. -/
structure Surrounding where
  /-- The tables made of the others alone. -/
  rest : List (Table ℚ)
  /-- The variables summed out of the table. -/
  summed : Axes
  /-- The tables that it is multiplied by. -/
  factors : List (Table ℚ)

namespace Surrounding

open Tables

/-- The second table is what becomes of the first one. -/
structure Turns (sizes : VariableId → ℕ) (c : Surrounding) (u t : Table ℚ) : Prop where
  fits : t.Fits sizes
  ids : ∀ id, id ∈ t.axes.ids ↔
    (id ∈ u.axes.ids ∨ id ∈ (Tables.axes c.factors).ids) ∧ id ∉ c.summed.ids
  value : ∀ x : Assignment, x.Valid sizes →
    t.valueAt x = Axes.sumOver c.summed (fun y => Tables.weight c.factors y * u.valueAt y) x

variable {c : Surrounding} {u t : Table ℚ} {ts : List (Table ℚ)} {v : Variable}
  {x : Assignment}

theorem Turns.value_linear {t₁ t₂ u₁ u₂ : Table ℚ} {a b : ℚ} (h : c.Turns sizes u t)
    (h₁ : c.Turns sizes u₁ t₁) (h₂ : c.Turns sizes u₂ t₂) (hsized : c.summed.Sized sizes)
    (hvalue : ∀ y : Assignment, y.Valid sizes →
      u.valueAt y = a * u₁.valueAt y + b * u₂.valueAt y) (hx : x.Valid sizes) :
    t.valueAt x = a * t₁.valueAt x + b * t₂.valueAt x := by
  have hconst : ∀ k : ℚ, Ignores (fun _ => k) c.summed := fun _ _ _ _ => rfl
  rw [h.value x hx, h₁.value x hx, h₂.value x hx, ← Axes.sumOver_mul_left (hconst a),
    ← Axes.sumOver_mul_left (hconst b), ← Axes.sumOver_add]
  refine Axes.sumOver_congr hsized hx fun y hy _ => ?_
  rw [hvalue y hy]
  ring

/-- Multiplying a table by others and summing a variable out of the product. -/
theorem turns_sumOut (hts : ∀ t ∈ ts, t.Fits sizes) (hu : u.Fits sizes) (hmem : u.mentions v)
    (hsize : v.arity = sizes v.id) :
    Turns sizes ⟨[], [v], ts⟩ u ((Table.product (u :: ts)).sumOut v) := by
  have hall : ∀ t ∈ u :: ts, t.Fits sizes := List.forall_mem_cons.mpr ⟨hu, hts⟩
  have hproduct : (Table.product (u :: ts)).Fits sizes := Table.fits_foldAll hall
  constructor
  case fits => exact hproduct.sumOut v
  case ids =>
    intro id
    refine (Axes.mem_ids_without hproduct.wellFormed.nodup).trans ?_
    rw [Table.product, Table.mem_ids_foldAll, mem_ids_axes]
    simp
  case value =>
    intro x hx
    rw [valueAt_sumOut_product hall ⟨u, by simp, hmem⟩ hsize hx]
    refine Finset.sum_congr rfl fun k _ => ?_
    rw [weight_cons, mul_comm]
    rfl

/-- Turning a table twice. -/
theorem Turns.trans {c' : Surrounding} {s : Table ℚ} (h : c.Turns sizes u t)
    (h' : c'.Turns sizes t s)
    (hfree : ∀ id ∈ c.summed.ids, id ∉ (axes c'.factors).ids ∧ id ∉ c'.summed.ids)
    (hsized : c'.summed.Sized sizes) :
    Turns sizes ⟨c'.rest, c'.summed ++ c.summed, c'.factors ++ c.factors⟩ u s := by
  constructor
  case fits => exact h'.fits
  case ids =>
    intro id
    have := hfree id
    rw [h'.ids, h.ids, mem_ids_axes_append, Axes.ids_append, List.mem_append]
    tauto
  case value =>
    intro x hx
    have hignores : Ignores (weight c'.factors) c.summed := by
      refine ignores_weight fun t ht v hv hid => (hfree v.id (Axes.mem_ids_of_mem hv)).1 ?_
      exact mem_ids_axes.mpr ⟨t, ht, hid⟩
    rw [h'.value x hx, Axes.sumOver_append]
    refine Axes.sumOver_congr hsized hx fun y hy _ => ?_
    rw [h.value y hy, ← Axes.sumOver_mul_left hignores]
    refine congrArg (fun F => Axes.sumOver _ F y) (funext fun z => ?_)
    rw [weight_append, mul_assoc]

end Surrounding

namespace Tables

open Surrounding

variable {ts : List (Table ℚ)} {vars : Axes} {v : Variable} {u : Table ℚ}

theorem eliminate_cons_of_not_mentions (h : ¬u.mentions v) (ts : List (Table ℚ)) :
    eliminate v (u :: ts) = u :: eliminate v ts := by
  simp [eliminate, summand, h]

theorem eliminate_cons_of_mentions (h : u.mentions v) (ts : List (Table ℚ)) :
    eliminate v (u :: ts) = ts.filter (!·.mentions v) ++
      [(Table.product (u :: ts.filter (·.mentions v))).sumOut v] := by
  simp [eliminate, summand, h]

/-- **An elimination is linear in each table.**  Tables that mention the same ones of the eliminated
variables turn in the same surrounding. -/
theorem exists_surrounding (hts : ∀ t ∈ ts, t.Fits sizes)
    (hnodup : vars.ids.Nodup) (hsized : vars.Sized sizes) (K : VariableId → Bool) :
    ∃ c : Surrounding, c.summed ⊆ vars ∧ (axes c.factors).ids ⊆ (axes ts).ids ∧
      ∀ u : Table ℚ, u.Fits sizes → (∀ v ∈ vars, u.mentions v = K v.id) →
        ∃ t, c.Turns sizes u t ∧ Alike sizes (eliminateAll vars (u :: ts)) (t :: c.rest) := by
  induction vars generalizing ts K with
  | nil =>
      refine ⟨⟨ts, [], []⟩, List.Subset.refl _, by simp [axes], fun u hu _ => ⟨u, ?_, ?_⟩⟩
      · exact ⟨hu, by simp [axes], by simp⟩
      · exact .of_perm (List.forall_mem_cons.mpr ⟨hu, hts⟩) (.refl _)
  | cons v vars ih =>
      obtain ⟨hfresh, hnodup⟩ := Axes.nodup_ids_cons.mp hnodup
      obtain ⟨hvsize, hsized⟩ := Axes.sized_cons.mp hsized
      by_cases hv : K v.id
      case neg =>
        obtain ⟨c, hsub, hfactors, hturns⟩ := ih (fits_eliminate hts v) hnodup hsized K
        refine ⟨c, List.subset_cons_of_subset v hsub, fun id hid => ?_, fun u hu hK => ?_⟩
        · exact ((mem_ids_eliminate (distinct_of_fits hts)).mp (hfactors hid)).1
        · obtain ⟨hKv, hK⟩ := List.forall_mem_cons.mp hK
          obtain ⟨t, ht, halike⟩ := hturns u hu hK
          refine ⟨t, ht, ?_⟩
          rwa [eliminateAll_cons, eliminate_cons_of_not_mentions (by simp [hKv, hv])]
      case pos =>
        let touched := ts.filter (·.mentions v)
        let others := ts.filter (!·.mentions v)
        have hothers : ∀ t ∈ others, t.Fits sizes := fun t ht => hts t (List.mem_of_mem_filter ht)
        have htouched : ∀ t ∈ touched, t.Fits sizes := fun t ht => hts t (List.mem_of_mem_filter ht)
        obtain ⟨c, hsub, hfactors, hturns⟩ := ih hothers hnodup hsized
          fun id => K id || decide (id ∈ (axes touched).ids)
        have hfree : v.id ∉ (axes c.factors).ids ∧ v.id ∉ c.summed.ids := by
          refine ⟨fun hid => ?_, fun hid => hfresh (List.map_subset _ hsub hid)⟩
          obtain ⟨t, ht, hid⟩ := mem_ids_axes.mp (hfactors hid)
          exact notMem_of_mem_filter ht hid
        refine ⟨⟨c.rest, c.summed ++ [v], c.factors ++ touched⟩, ?_, fun id hid => ?_,
          fun u hu hK => ?_⟩
        · exact List.append_subset.mpr ⟨List.subset_cons_of_subset v hsub, by simp⟩
        · obtain ⟨t, ht, hid⟩ := mem_ids_axes.mp hid
          rcases List.mem_append.mp ht with ht | ht
          · obtain ⟨s, hs, hid⟩ := mem_ids_axes.mp (hfactors (mem_ids_axes.mpr ⟨t, ht, hid⟩))
            exact mem_ids_axes.mpr ⟨s, List.mem_of_mem_filter hs, hid⟩
          · exact mem_ids_axes.mpr ⟨t, List.mem_of_mem_filter ht, hid⟩
        · obtain ⟨hKv, hK⟩ := List.forall_mem_cons.mp hK
          have hmentions : u.mentions v := by rw [hKv, hv]
          have hfirst := turns_sumOut htouched hu hmentions hvsize
          have hmentions' : ∀ w ∈ vars, ((Table.product (u :: touched)).sumOut v).mentions w =
              (K w.id || decide (w.id ∈ (axes touched).ids)) := by
            intro w hw
            have hne : w.id ≠ v.id := fun h => hfresh (h ▸ Axes.mem_ids_of_mem hw)
            rw [Bool.eq_iff_iff, Table.mentions_iff, hfirst.ids, ← hK w hw]
            simp [hne, Table.mentions_iff]
          obtain ⟨t, ht, halike⟩ := hturns _ hfirst.fits hmentions'
          refine ⟨t, hfirst.trans ht (by simpa using hfree) (hsized.subset hsub), ?_⟩
          rw [eliminateAll_cons, eliminate_cons_of_mentions hmentions]
          refine Alike.trans (Alike.eliminateAll (.of_perm ?_ ?_) hsized) halike
          · exact List.forall_mem_append.mpr ⟨hothers, by simpa using hfirst.fits⟩
          · exact List.perm_append_singleton _ _

end Tables

end Influence
