import Influence.Proofs.Elimination.Weight

/-! # The order of an elimination

Two tables are alike if they have the same values over the same variables, in whatever order their
axes stand (`Table.Alike`).

* `Tables.Alike.eliminateAll`: eliminating variables from alike tables gives alike tables.
* `Tables.Alike.eliminateAll_perm`: variables may be eliminated in any order.

Pools are compared as multisets, because a table that is made anew goes to the end of its pool. -/

namespace Influence

open scoped Exact

variable {sizes : VariableId → ℕ}

/-- Relations between the members of two multisets compose. -/
theorem rel_comp {α β γ : Type} {r : α → β → Prop} {p : β → γ → Prop} {q : α → γ → Prop}
    (hq : ∀ a b c, r a b → p b c → q a c) {s : Multiset α} {t : Multiset β} {u : Multiset γ}
    (h : Multiset.Rel r s t) (h' : Multiset.Rel p t u) : Multiset.Rel q s u := by
  induction h generalizing u with
  | zero =>
      rw [Multiset.rel_zero_left.mp h']
      exact .zero
  | cons hab _ ih =>
      obtain ⟨c, u, hbc, hrest, rfl⟩ := Multiset.rel_cons_left.mp h'
      exact .cons (hq _ _ _ hab hbc) (ih hrest)

/-- Tests that agree on related members select related members. -/
theorem rel_filter {α β : Type} {r : α → β → Prop} {p : α → Bool} {q : β → Bool} {l : List α}
    {m : List β} (hpq : ∀ a b, r a b → p a = q b) (h : Multiset.Rel r l m) :
    Multiset.Rel r (l.filter p : List α) (m.filter q : List β) := by
  have hl : (l.filter p : Multiset α) = Multiset.filter (p · = true) l := by simp
  have hm : (m.filter q : Multiset β) = Multiset.filter (q · = true) m := by simp
  rw [hl, hm]
  generalize (l : Multiset α) = s at h ⊢
  generalize (m : Multiset β) = t at h ⊢
  induction h with
  | zero => exact .zero
  | @cons a b s t hab _ ih =>
      by_cases hp : p a
      · have hq : q b := hpq a b hab ▸ hp
        simpa [hp, hq] using Multiset.Rel.cons hab ih
      · have hq : ¬q b := hpq a b hab ▸ hp
        simpa [hp, hq] using ih

/-! ### Tables that are alike -/

namespace Table

variable {t u t' : Table ℚ} {v : Variable}

/-- The tables have the same values over the same variables. -/
structure Alike (sizes : VariableId → ℕ) (t u : Table ℚ) : Prop where
  fits : t.Fits sizes
  fits' : u.Fits sizes
  ids : ∀ id, id ∈ u.axes.ids ↔ id ∈ t.axes.ids
  value : ∀ x : Assignment, x.Valid sizes → u.valueAt x = t.valueAt x

theorem Alike.refl (ht : t.Fits sizes) : Alike sizes t t := ⟨ht, ht, fun _ => .rfl, fun _ _ => rfl⟩

theorem Alike.symm (h : Alike sizes t u) : Alike sizes u t :=
  ⟨h.fits', h.fits, fun id => (h.ids id).symm, fun x hx => (h.value x hx).symm⟩

theorem Alike.trans (h : Alike sizes t u) (h' : Alike sizes u t') : Alike sizes t t' :=
  ⟨h.fits, h'.fits', fun id => (h'.ids id).trans (h.ids id), fun x hx =>
    (h'.value x hx).trans (h.value x hx)⟩

theorem Alike.mentions_eq (h : Alike sizes t u) (v : Variable) : t.mentions v = u.mentions v := by
  rw [Bool.eq_iff_iff, mentions_iff, mentions_iff, h.ids]

theorem Alike.sumOut (h : Alike sizes t u) (hmem : t.mentions v) (hsize : v.arity = sizes v.id) :
    Alike sizes (t.sumOut v) (u.sumOut v) where
  fits := h.fits.sumOut v
  fits' := h.fits'.sumOut v
  ids := fun id => by
    rw [axes_sumOut, axes_sumOut, Axes.mem_ids_without h.fits.wellFormed.nodup,
      Axes.mem_ids_without h.fits'.wellFormed.nodup, h.ids]
  value := fun x hx => by
    rw [h.fits'.valueAt_sumOut (h.mentions_eq v ▸ hmem) hx, h.fits.valueAt_sumOut hmem hx]
    refine Finset.sum_congr rfl fun k hk => h.value _ (hx.set ?_)
    rw [← hsize]
    exact Finset.mem_range.mp hk

/-- A sum over a variable asks only for its identity and the number of its outcomes. -/
theorem sumOut_congr {w : Variable} (hid : v.id = w.id) (harity : v.arity = w.arity)
    (t : Table ℚ) : t.sumOut v = t.sumOut w := by
  simp only [Table.sumOut, Table.summation, Axes.without, Axes.strideOf_congr hid, hid, harity]

end Table

/-! ### Pools that are alike -/

namespace Tables

variable {t u : Table ℚ} {ts us ts' us' : List (Table ℚ)} {v : Variable} {vars : Axes}
  {x : Assignment}

/-- The pools have the same tables, up to the order of the tables and of the axes of each. -/
def Alike (sizes : VariableId → ℕ) (ts us : List (Table ℚ)) : Prop :=
  Multiset.Rel (Table.Alike sizes) ts us

theorem Alike.of_perm (hts : ∀ t ∈ ts, t.Fits sizes) (hperm : ts.Perm us) : Alike sizes ts us := by
  unfold Alike
  rw [← Multiset.coe_eq_coe.mpr hperm]
  exact Multiset.rel_refl_of_refl_on fun t ht => .refl (hts t (Multiset.mem_coe.mp ht))

theorem Alike.refl (hts : ∀ t ∈ ts, t.Fits sizes) : Alike sizes ts ts := .of_perm hts (.refl _)

theorem alike_singleton (h : Table.Alike sizes t u) : Alike sizes [t] [u] := .cons h .zero

theorem Alike.symm (h : Alike sizes ts us) : Alike sizes us ts :=
  (Multiset.rel_flip.mpr h).mono fun _ _ _ _ htu => htu.symm

theorem Alike.trans (h : Alike sizes ts us) (h' : Alike sizes us us') : Alike sizes ts us' :=
  rel_comp (fun _ _ _ htu huv => htu.trans huv) h h'

theorem Alike.append (h : Alike sizes ts us) (h' : Alike sizes ts' us') :
    Alike sizes (ts ++ ts') (us ++ us') := by
  unfold Alike
  rw [← Multiset.coe_add, ← Multiset.coe_add]
  exact Multiset.Rel.add h h'

theorem Alike.filter {p : Table ℚ → Bool} (h : Alike sizes ts us)
    (hp : ∀ t u, Table.Alike sizes t u → p t = p u) : Alike sizes (ts.filter p) (us.filter p) :=
  rel_filter hp h

theorem Alike.exists_mem (h : Alike sizes ts us) (ht : t ∈ ts) : ∃ u ∈ us, Table.Alike sizes t u :=
  Multiset.exists_mem_of_rel_of_mem h (Multiset.mem_coe.mpr ht)

theorem Alike.fits (h : Alike sizes ts us) (ht : t ∈ ts) : t.Fits sizes := by
  obtain ⟨_, -, htu⟩ := h.exists_mem ht
  exact htu.fits

theorem Alike.mem_ids_axes (h : Alike sizes ts us) {id : VariableId} :
    id ∈ (axes us).ids ↔ id ∈ (axes ts).ids := by
  rw [Tables.mem_ids_axes, Tables.mem_ids_axes]
  constructor
  · rintro ⟨u, hu, hid⟩
    obtain ⟨t, ht, htu⟩ := h.symm.exists_mem hu
    exact ⟨t, ht, (htu.ids id).mpr hid⟩
  · rintro ⟨t, ht, hid⟩
    obtain ⟨u, hu, htu⟩ := h.exists_mem ht
    exact ⟨u, hu, (htu.ids id).mpr hid⟩

theorem Alike.weight_eq (h : Alike sizes ts us) (hx : x.Valid sizes) :
    weight us x = weight ts x := by
  have hmap : Multiset.map (·.valueAt x) (us : Multiset (Table ℚ)) =
      Multiset.map (·.valueAt x) (ts : Multiset (Table ℚ)) := by
    refine (Multiset.rel_eq.mp (Multiset.rel_map.mpr ?_)).symm
    exact Multiset.Rel.mono h fun _ _ _ _ htu => (htu.value x hx).symm
  simpa [weight] using congrArg Multiset.prod hmap

theorem Alike.product (h : Alike sizes ts us) :
    Table.Alike sizes (Table.product ts) (Table.product us) where
  fits := Table.fits_foldAll fun _ ht => h.fits ht
  fits' := Table.fits_foldAll fun _ hu => h.symm.fits hu
  ids := fun id => by
    rw [Table.product, Table.product, Table.mem_ids_foldAll, Table.mem_ids_foldAll,
      ← Tables.mem_ids_axes, ← Tables.mem_ids_axes]
    exact h.mem_ids_axes
  value := fun x hx => by
    rw [Table.Fits.valueAt_product (fun _ hu => h.symm.fits hu) hx,
      Table.Fits.valueAt_product (fun _ ht => h.fits ht) hx]
    exact h.weight_eq hx

/-- Eliminating the same variable from alike pools gives alike pools. -/
theorem Alike.eliminate (h : Alike sizes ts us) (hsize : v.arity = sizes v.id) :
    Alike sizes (eliminate v ts) (eliminate v us) := by
  have htouched : Alike sizes (ts.filter (·.mentions v)) (us.filter (·.mentions v)) :=
    h.filter fun _ _ htu => htu.mentions_eq v
  have hrest : Alike sizes (ts.filter (!·.mentions v)) (us.filter (!·.mentions v)) :=
    h.filter fun _ _ htu => congrArg (!·) (htu.mentions_eq v)
  have hany : us.any (·.mentions v) = ts.any (·.mentions v) := by
    rw [Bool.eq_iff_iff, any_mentions, any_mentions]
    exact h.mem_ids_axes
  unfold Tables.eliminate
  rw [hany]
  refine hrest.append ?_
  split
  next hsome =>
    obtain ⟨t, ht, hmem⟩ := List.any_eq_true.mp hsome
    refine alike_singleton (htouched.product.sumOut (Table.mentions_iff.mpr ?_) hsize)
    exact Table.mem_ids_foldAll.mpr
      ⟨t, List.mem_filter.mpr ⟨ht, hmem⟩, Table.mentions_iff.mp hmem⟩
  next => exact .zero

/-- Eliminating the same variables from alike pools gives alike pools. -/
theorem Alike.eliminateAll (h : Alike sizes ts us) (hsized : vars.Sized sizes) :
    Alike sizes (eliminateAll vars ts) (eliminateAll vars us) := by
  induction vars generalizing ts us with
  | nil => exact h
  | cons v vars ih =>
      obtain ⟨hsize, hsized⟩ := Axes.sized_cons.mp hsized
      exact ih (h.eliminate hsize) hsized

end Tables

/-! ### The order of the variables -/

namespace Tables

variable {ts us : List (Table ℚ)} {u v : Variable} {x : Assignment} {vars vars' : Axes}

/-- The tables that mention one of two variables. -/
def either (u v : Variable) (ts : List (Table ℚ)) : List (Table ℚ) :=
  ts.filter fun t => t.mentions u || t.mentions v

theorem weight_either (u v : Variable) (ts : List (Table ℚ)) (x : Assignment) :
    weight (either u v ts) x =
      weight ((ts.filter (!·.mentions v)).filter (·.mentions u)) x *
        weight (ts.filter (·.mentions v)) x := by
  rw [← weight_filter_mul (·.mentions v) (either u v ts), either, List.filter_filter,
    List.filter_filter, List.filter_filter]
  have hleft : (ts.filter fun t => (!t.mentions v) && (t.mentions u || t.mentions v)) =
      ts.filter fun t => t.mentions u && !t.mentions v :=
    List.filter_congr fun t _ => by cases t.mentions u <;> cases t.mentions v <;> rfl
  have hright : (ts.filter fun t => t.mentions v && (t.mentions u || t.mentions v)) =
      ts.filter (·.mentions v) :=
    List.filter_congr fun t _ => by cases t.mentions u <;> cases t.mentions v <;> rfl
  rw [hleft, hright]

theorem mem_ids_either {id : VariableId} : id ∈ (axes (either u v ts)).ids ↔
    ∃ t ∈ ts, (t.mentions u ∨ t.mentions v) ∧ id ∈ t.axes.ids := by
  simp [mem_ids_axes, either, and_assoc]

theorem filter_filter_not_mentions (u v : Variable) (ts : List (Table ℚ)) :
    (ts.filter (!·.mentions v)).filter (!·.mentions u) =
      ts.filter fun t => !(t.mentions u || t.mentions v) := by
  rw [List.filter_filter]
  exact List.filter_congr fun t _ => (Bool.not_or _ _).symm

/-- The value of a product with a variable summed out. -/
theorem valueAt_sumOut_product (hts : ∀ t ∈ ts, t.Fits sizes) (hmem : ∃ t ∈ ts, t.mentions v)
    (hv : v.arity = sizes v.id) (hx : x.Valid sizes) :
    ((Table.product ts).sumOut v).valueAt x =
      ∑ k ∈ Finset.range v.arity, weight ts (x.set v k) := by
  obtain ⟨t, ht, hmentions⟩ := hmem
  have hproduct : (Table.product ts).mentions v :=
    Table.mentions_iff.mpr (Table.mem_ids_foldAll.mpr ⟨t, ht, Table.mentions_iff.mp hmentions⟩)
  have hfits : (Table.product ts).Fits sizes := Table.fits_foldAll hts
  rw [hfits.valueAt_sumOut hproduct hx]
  refine Finset.sum_congr rfl fun k hk => Table.Fits.valueAt_product hts (hx.set ?_)
  rw [← hv]
  exact Finset.mem_range.mp hk

/-- Eliminating one variable and then another that shares a table with it. -/
theorem eliminate_eliminate_of_shared (huv : u.id ≠ v.id)
    (hshared : ∃ t ∈ ts, t.mentions u ∧ t.mentions v) (hts : ∀ t ∈ ts, t.Fits sizes)
    (hu : u.arity = sizes u.id) (hv : v.arity = sizes v.id) :
    ∃ s : Table ℚ, eliminate u (eliminate v ts) =
        (ts.filter fun t => !(t.mentions u || t.mentions v)) ++ [s] ∧ s.Fits sizes ∧
      (∀ id, id ∈ s.axes.ids ↔ id ∈ (axes (either u v ts)).ids ∧ id ≠ u.id ∧ id ≠ v.id) ∧
      ∀ x : Assignment, x.Valid sizes → s.valueAt x = ∑ k ∈ Finset.range u.arity,
        ∑ j ∈ Finset.range v.arity, weight (either u v ts) ((x.set u k).set v j) := by
  obtain ⟨t, ht, htu, htv⟩ := hshared
  have hdistinct := distinct_of_fits hts
  have hsum : (summand v ts).mentions u := Table.mentions_iff.mpr
    ((mem_ids_summand hdistinct).mpr ⟨⟨t, ht, htv, Table.mentions_iff.mp htu⟩, huv⟩)
  have hv' : ts.any (·.mentions v) := List.any_eq_true.mpr ⟨t, ht, htv⟩
  have htouched : ∀ s ∈ (ts.filter (!·.mentions v)).filter (·.mentions u) ++ [summand v ts],
      s.Fits sizes := by
    intro s hs
    have hfits := fits_eliminate hts v
    rw [eliminate, if_pos hv'] at hfits
    rcases List.mem_append.mp hs with hs | hs
    · exact hfits s (List.mem_append_left _ (List.mem_of_mem_filter hs))
    · exact hfits s (List.mem_append_right _ hs)
  refine ⟨(Table.product ((ts.filter (!·.mentions v)).filter (·.mentions u) ++
    [summand v ts])).sumOut u, ?_, (Table.fits_foldAll htouched).sumOut u, fun id => ?_,
    fun x hx => ?_⟩
  · have hfirst : eliminate v ts = ts.filter (!·.mentions v) ++ [summand v ts] := by
      rw [eliminate, if_pos hv']
    rw [hfirst, eliminate, if_pos (by simp [hsum]), List.filter_append, filter_filter_not_mentions,
      summand.eq_def u, List.filter_append]
    simp [hsum]
  · refine (Axes.mem_ids_without (Table.fits_foldAll htouched).wellFormed.nodup).trans ?_
    rw [Table.mem_ids_foldAll, mem_ids_either]
    constructor
    · rintro ⟨⟨s, hs, hid⟩, hne⟩
      rcases List.mem_append.mp hs with hs | hs
      · obtain ⟨hs, hsu⟩ := List.mem_filter.mp hs
        obtain ⟨hs, hsv⟩ := List.mem_filter.mp hs
        refine ⟨⟨s, hs, .inl hsu, hid⟩, hne, fun h => ?_⟩
        rw [h, ← Table.mentions_iff] at hid
        simp [hid] at hsv
      · rw [List.mem_singleton.mp hs] at hid
        obtain ⟨⟨s, hs, hsv, hid⟩, hne'⟩ := (mem_ids_summand hdistinct).mp hid
        exact ⟨⟨s, hs, .inr hsv, hid⟩, hne, hne'⟩
    · rintro ⟨⟨s, hs, hor, hid⟩, hne, hne'⟩
      refine ⟨?_, hne⟩
      by_cases hsv : s.mentions v
      · exact ⟨_, List.mem_append_right _ (List.mem_singleton_self _),
          (mem_ids_summand hdistinct).mpr ⟨⟨s, hs, hsv, hid⟩, hne'⟩⟩
      · refine ⟨s, List.mem_append_left _ (List.mem_filter.mpr ⟨List.mem_filter.mpr ⟨hs, ?_⟩, ?_⟩),
          hid⟩
        · simpa using hsv
        · exact hor.resolve_right hsv
  · rw [valueAt_sumOut_product htouched ⟨_, by simp, hsum⟩ hu hx]
    refine Finset.sum_congr rfl fun k hk => ?_
    have hxk : (x.set u k).Valid sizes := hx.set (by rw [← hu]; exact Finset.mem_range.mp hk)
    rw [weight_append, weight_cons, weight_nil, mul_one, summand,
      valueAt_sumOut_product (fun s hs => hts s (List.mem_of_mem_filter hs))
        ⟨t, List.mem_filter.mpr ⟨ht, htv⟩, htv⟩ hv hxk, Finset.mul_sum]
    refine Finset.sum_congr rfl fun j _ => ?_
    rw [weight_either]
    congr 1
    exact weight_congr fun s hs => (s.valueAt_set_of_notMem _
      (notMem_of_mem_filter (List.mem_of_mem_filter hs)) j).symm

/-- Eliminating one variable and then another that shares no table with it. -/
theorem eliminate_eliminate_of_not_shared (hts : ∀ t ∈ ts, t.Fits sizes)
    (hshared : ∀ t ∈ ts, t.mentions u → ¬t.mentions v) :
    (eliminate u (eliminate v ts)).Perm
      ((ts.filter fun t => !(t.mentions u || t.mentions v)) ++
        ((if ts.any (·.mentions u) then [summand u ts] else []) ++
          if ts.any (·.mentions v) then [summand v ts] else [])) := by
  have hsum : ¬(summand v ts).mentions u := fun h => by
    obtain ⟨⟨t, ht, htv, hid⟩, -⟩ :=
      (mem_ids_summand (distinct_of_fits hts)).mp (Table.mentions_iff.mp h)
    exact hshared t ht (Table.mentions_iff.mpr hid) htv
  -- what is made of the tables that mention `v` is left alone when `u` is eliminated
  have hfilter : ∀ p : Table ℚ → Bool, ((if ts.any (·.mentions v) then [summand v ts] else []) :
      List (Table ℚ)).filter p = if ts.any (·.mentions v) && p (summand v ts) then [summand v ts]
        else [] := fun p => by
    cases ts.any (·.mentions v) <;> simp [List.filter_singleton]
  have htouched : (eliminate v ts).filter (·.mentions u) = ts.filter (·.mentions u) := by
    rw [eliminate, List.filter_append, hfilter, List.filter_filter]
    simp only [hsum, Bool.and_false, Bool.false_eq_true, if_false, List.append_nil]
    refine List.filter_congr fun t ht => ?_
    by_cases htu : t.mentions u
    · simp [htu, hshared t ht htu]
    · simp [htu]
  have hany : (eliminate v ts).any (·.mentions u) = ts.any (·.mentions u) := by
    have hsome : ∀ l : List (Table ℚ),
        l.any (·.mentions u) = !(l.filter (·.mentions u)).isEmpty := fun l => by
      cases h : l.any (·.mentions u) <;> simpa using h
    rw [hsome, hsome, htouched]
  rw [eliminate, hany, summand, htouched, ← summand, eliminate, List.filter_append, hfilter,
    filter_filter_not_mentions, List.append_assoc]
  simp only [hsum, Bool.not_false, Bool.and_true]
  exact List.perm_append_comm.append_left _

/-- Two variables may be eliminated in either order. -/
theorem alike_eliminate_comm (huv : u.id ≠ v.id) (hts : ∀ t ∈ ts, t.Fits sizes)
    (hu : u.arity = sizes u.id) (hv : v.arity = sizes v.id) :
    Alike sizes (eliminate u (eliminate v ts)) (eliminate v (eliminate u ts)) := by
  have hfilter : (fun t : Table ℚ => !(t.mentions u || t.mentions v)) =
      fun t => !(t.mentions v || t.mentions u) := funext fun t => by rw [Bool.or_comm]
  have heither : either u v ts = either v u ts :=
    List.filter_congr fun t _ => Bool.or_comm _ _
  by_cases hshared : ∃ t ∈ ts, t.mentions u ∧ t.mentions v
  · obtain ⟨s, hs, hfits, hids, hvalue⟩ := eliminate_eliminate_of_shared huv hshared hts hu hv
    obtain ⟨s', hs', hfits', hids', hvalue'⟩ := eliminate_eliminate_of_shared huv.symm
      (by simpa only [and_comm] using hshared) hts hv hu
    rw [hs, hs', hfilter]
    refine Alike.append (.refl fun t ht => hts t (List.mem_of_mem_filter ht))
      (alike_singleton ⟨hfits, hfits', fun id => ?_, fun x hx => ?_⟩)
    · rw [hids, hids', heither]
      tauto
    · rw [hvalue x hx, hvalue' x hx, heither, Finset.sum_comm]
      refine Finset.sum_congr rfl fun j _ => Finset.sum_congr rfl fun k _ => ?_
      rw [Assignment.set_comm x huv]
  · have hno : ∀ t ∈ ts, t.mentions u → ¬t.mentions v := fun t ht htu htv =>
      hshared ⟨t, ht, htu, htv⟩
    refine .of_perm (fits_eliminate (fits_eliminate hts v) u)
      ((eliminate_eliminate_of_not_shared hts hno).trans ?_)
    refine List.Perm.trans ?_
      (eliminate_eliminate_of_not_shared hts fun t ht htv htu => hno t ht htu htv).symm
    rw [hfilter]
    exact List.perm_append_comm.append_left _

theorem alike_eliminateAll_of_perm (hts : ∀ t ∈ ts, t.Fits sizes) (hsized : vars.Sized sizes)
    (hnodup : vars.ids.Nodup) (hperm : vars.Perm vars') :
    Alike sizes (eliminateAll vars ts) (eliminateAll vars' ts) := by
  induction hperm generalizing ts with
  | nil => exact .refl hts
  | cons v _ ih =>
      exact ih (fits_eliminate hts v) (Axes.sized_cons.mp hsized).2 (Axes.nodup_ids_cons.mp hnodup).2
  | swap u v vars =>
      obtain ⟨hv, hsized⟩ := Axes.sized_cons.mp hsized
      obtain ⟨hu, hsized⟩ := Axes.sized_cons.mp hsized
      refine (alike_eliminate_comm (fun h => ?_) hts hu hv).eliminateAll hsized
      exact (Axes.nodup_ids_cons.mp hnodup).1 (by simp [h])
  | trans hperm₁ _ ih₁ ih₂ =>
      exact (ih₁ hts hsized hnodup).trans (ih₂ hts (hsized.subset hperm₁.symm.subset)
        ((hperm₁.map _).nodup_iff.mp hnodup))

theorem eliminate_congr (hid : u.id = v.id) (harity : u.arity = v.arity) (ts : List (Table ℚ)) :
    eliminate u ts = eliminate v ts := by
  have hmentions : ∀ t : Table ℚ, t.mentions u = t.mentions v := fun t => by
    rw [Bool.eq_iff_iff, Table.mentions_iff, Table.mentions_iff, hid]
  unfold eliminate summand
  simp only [hmentions, Table.sumOut_congr hid harity]

/-- An elimination asks only for the identities of its variables. -/
theorem eliminateAll_congr (hsized : vars.Sized sizes) (ts : List (Table ℚ)) :
    eliminateAll vars ts =
      eliminateAll (vars.ids.map fun id => ⟨id, sizes id, .chance⟩) ts := by
  induction vars generalizing ts with
  | nil => rfl
  | cons v vars ih =>
      obtain ⟨hsize, hsized⟩ := Axes.sized_cons.mp hsized
      have hfirst : eliminate v ts = eliminate ⟨v.id, sizes v.id, .chance⟩ ts := by
        refine eliminate_congr ?_ hsize ts
        rfl
      rw [Axes.ids_cons, List.map_cons, eliminateAll_cons, eliminateAll_cons, hfirst, ih hsized]

/-- **The order of an elimination does not matter.** -/
theorem Alike.eliminateAll_perm (h : Alike sizes ts us) (hsized : vars.Sized sizes)
    (hsized' : vars'.Sized sizes) (hnodup : vars.ids.Nodup) (hperm : vars.ids.Perm vars'.ids) :
    Alike sizes (Tables.eliminateAll vars ts) (Tables.eliminateAll vars' us) := by
  let handle : VariableId → Variable := fun id => ⟨id, sizes id, .chance⟩
  have hids : ∀ ids : List VariableId, Axes.ids (ids.map handle) = ids := fun ids => by
    rw [Axes.ids, List.map_map]
    exact List.map_id _
  have hhandles : ∀ ids : List VariableId, Axes.Sized sizes (ids.map handle) := by
    intro ids v hv
    obtain ⟨id, -, rfl⟩ := List.mem_map.mp hv
    rfl
  rw [eliminateAll_congr hsized, eliminateAll_congr hsized']
  refine (h.eliminateAll (hhandles _)).trans (alike_eliminateAll_of_perm
    (fun _ hu => h.symm.fits hu) (hhandles _) ?_ (hperm.map handle))
  rwa [hids]

end Tables

end Influence
