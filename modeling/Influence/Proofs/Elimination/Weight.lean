import Influence.Proofs.Elimination.Axes
import Influence.Proofs.Enumeration

/-! # The weight of a pool

The `weight` of some tables at an assignment is the product of their cells there.  Every step of an
elimination changes it in a simple way.

* Observing outcomes sets them (`valueAt_observed`).
* Eliminating a variable sums over it (`weight_eliminate`), and eliminating several of them is an
  enumeration of their joint outcomes (`weight_eliminateAll`).
* Summing the utilities replaces the factors of the utility tables by their weighted sum
  (`weight_sumUtilities`).

The tables have to fit: they are well-formed, and a variable has the same number of outcomes in all
of them (`Table.Fits`). -/

namespace Influence

open scoped Exact

variable {sizes : VariableId → ℕ} {x : Assignment}

/-! ### Tables that fit -/

/-- The table is well-formed and its axes have the given numbers of outcomes. -/
structure Table.Fits {α : Type} (sizes : VariableId → ℕ) (t : Table α) : Prop where
  wellFormed : t.WellFormed
  sized : t.axes.Sized sizes

namespace Table

section

variable {α : Type} [Cell α] {t : Table α}

omit [Cell α] in
/-- A well-formed table fits some numbers of outcomes for which given outcomes of its axes are valid. -/
theorem WellFormed.exists_fits_valid (ht : t.WellFormed) (hx : x.InRange t.axes) :
    ∃ sizes : VariableId → ℕ, t.Fits sizes ∧ x.Valid sizes := by
  have hsized : t.axes.Sized (t.axes.sizes fun id => x id + 1) := (Axes.agree_of_nodup ht.nodup).sized _
  refine ⟨_, ⟨ht, hsized⟩, fun id => ?_⟩
  by_cases hid : id ∈ t.axes.ids
  · obtain ⟨v, hv, rfl⟩ := Axes.mem_ids.mp hid
    rw [← hsized v hv]
    exact hx v hv
  · rw [Axes.sizes_of_notMem hid]
    omega

omit [Cell α] in
/-- The axes of a well-formed table give numbers of outcomes that it fits, all of them positive. -/
theorem WellFormed.exists_fits (ht : t.WellFormed) :
    ∃ sizes : VariableId → ℕ, t.Fits sizes ∧ Assignment.Valid sizes fun _ => 0 :=
  ht.exists_fits_valid ht.arity_pos

theorem Fits.restrict (ht : t.Fits sizes) (v : Variable) (k : ℕ) : (t.restrict v k).Fits sizes :=
  ⟨ht.wellFormed.restrict v k, ht.sized.without v⟩

theorem Fits.sumOut (ht : t.Fits sizes) (v : Variable) : (t.sumOut v).Fits sizes :=
  ⟨ht.wellFormed.sumOut v, ht.sized.without v⟩

theorem Fits.foldl_sumOut (ht : t.Fits sizes) (vars : Axes) :
    (vars.foldl Table.sumOut t).Fits sizes := by
  induction vars generalizing t with
  | nil => exact ht
  | cons v vars ih => exact ih (ht.sumOut v)

theorem fits_foldAll {op : Fold} {ts : List (Table α)} (hts : ∀ t ∈ ts, t.Fits sizes) :
    (foldAll op ts).Fits sizes :=
  ⟨.foldAll fun t ht => (hts t ht).wellFormed, sized_foldAll fun t ht => (hts t ht).sized⟩

omit [Cell α] in
theorem fits_scalar (c : α) : (scalar c).Fits sizes :=
  ⟨⟨by simp [scalar], by simp [scalar], by simp [scalar], rfl⟩, by simp [scalar, Axes.Sized]⟩

theorem fits_ones {axes : Axes} (hnodup : axes.ids.Nodup) (hpos : ∀ v ∈ axes, 0 < v.arity)
    (hsized : axes.Sized sizes) : (ones axes : Table α).Fits sizes :=
  ⟨Shaped.wellFormed ⟨hnodup, hpos, by simp [ones]⟩, hsized⟩

omit [Cell α] in
theorem Fits.forall_scale (ht : t.Fits sizes) (c : α) : ∀ u ∈ [t, scalar c], u.Fits sizes := by
  simpa using ⟨ht, fits_scalar c⟩

theorem Fits.scale (ht : t.Fits sizes) (c : α) : (t.scale c).Fits sizes :=
  fits_foldAll (ht.forall_scale c)

theorem valueAt_ones {axes : Axes} (hx : x.InRange axes) : (ones axes : Table α).valueAt x = 1 := by
  have hlt : Layout.offset axes.distances (x.on axes) < axes.size :=
    Layout.offset_lt (Assignment.inRange_on.mpr hx)
  rw [valueAt, read, Array.getD_eq_getD_getElem?]
  simp [ones, hlt]

theorem Fits.valueAt_restrict [Cell.LeftUnital α] (ht : t.Fits sizes) {v : Variable} (hv : t.mentions v)
    (hx : x.Valid sizes) (k : ℕ) : (t.restrict v k).valueAt x = t.valueAt (x.set v k) := by
  rw [Table.valueAt_restrict ht.wellFormed hv (hx.inRange (ht.sized.without v)),
    Fold.fold_product_singleton]

end

/-- A table that has the same cells at all outcomes of an axis has the values of its first one. -/
theorem Fits.valueAt_restrict_of_sameCells {t : Table ℚ} (ht : t.Fits sizes) {v : Variable}
    (hv : t.mentions v) (hsize : v.arity = sizes v.id)
    (hsame : ∀ j < v.arity, (t.restrict v j).sameCells (t.restrict v 0)) {x : Assignment}
    (hx : x.Valid sizes) : (t.restrict v 0).valueAt x = t.valueAt x := by
  have hlt : x v.id < v.arity := by
    rw [hsize]
    exact hx v.id
  have hcells : (t.restrict v (x v.id)).cells = (t.restrict v 0).cells :=
    Array.ext' (beq_iff_eq.mp (hsame _ hlt))
  have hequal : t.restrict v (x v.id) = t.restrict v 0 := by
    rw [Table.mk.injEq]
    exact ⟨rfl, hcells⟩
  rw [← hequal, ht.valueAt_restrict hv hx, Assignment.set_self]

@[simp] theorem valueAt_scalar (c : ℚ) (x : Assignment) : (scalar c).valueAt x = c := rfl

theorem ignores_valueAt {t : Table ℚ} {vars : Axes} (h : ∀ v ∈ vars, v.id ∉ t.axes.ids) :
    Ignores t.valueAt vars := by
  intro x y hxy
  refine t.valueAt_congr fun id hid => hxy id fun hmem => ?_
  obtain ⟨v, hv, rfl⟩ := Axes.mem_ids.mp hmem
  exact h v hv hid

theorem Fits.valueAt_product {ts : List (Table ℚ)} (hts : ∀ t ∈ ts, t.Fits sizes)
    (hx : x.Valid sizes) : (product ts).valueAt x = (ts.map (·.valueAt x)).prod :=
  valueAt_product_rat (fun t ht => (hts t ht).wellFormed) (hx.inRange (fits_foldAll hts).sized)

theorem Fits.valueAt_scale {t : Table ℚ} (ht : t.Fits sizes) (hx : x.Valid sizes) (c : ℚ) :
    (t.scale c).valueAt x = t.valueAt x * c := by
  rw [Table.scale, Fits.valueAt_product (ht.forall_scale c) hx]
  simp

theorem Fits.valueAt_sum {ts : List (Table ℚ)} (hts : ∀ t ∈ ts, t.Fits sizes)
    (hx : x.Valid sizes) : (sum ts).valueAt x = (ts.map (·.valueAt x)).sum :=
  valueAt_sum_rat (fun t ht => (hts t ht).wellFormed) (hx.inRange (fits_foldAll hts).sized)

theorem Fits.valueAt_sumOut {t : Table ℚ} (ht : t.Fits sizes) {v : Variable} (hv : t.mentions v)
    (hx : x.Valid sizes) :
    (t.sumOut v).valueAt x = ∑ k ∈ Finset.range v.arity, t.valueAt (x.set v k) :=
  valueAt_sumOut_rat ht.wellFormed hv (hx.inRange (ht.sized.without v))

/-- Summing out variables one after the other enumerates their joint outcomes. -/
theorem Fits.sumOutAll {t : Table ℚ} (ht : t.Fits sizes) {us : Axes} (hus : us.ids.Nodup)
    (hsized : us.Sized sizes) (hmem : us.ids ⊆ t.axes.ids) :
    (us.foldl Table.sumOut t).Fits sizes ∧
      (∀ id, id ∈ (us.foldl Table.sumOut t).axes.ids ↔ id ∈ t.axes.ids ∧ id ∉ us.ids) ∧
      ∀ x : Assignment, x.Valid sizes →
        (us.foldl Table.sumOut t).valueAt x = Axes.sumOver us t.valueAt x := by
  induction us generalizing t with
  | nil => exact ⟨ht, by simp, fun _ _ => rfl⟩
  | cons u us ih =>
      obtain ⟨hu, hus⟩ := Axes.nodup_ids_cons.mp hus
      obtain ⟨husize, hsized⟩ := Axes.sized_cons.mp hsized
      rw [Axes.ids_cons, List.cons_subset] at hmem
      have hwithout : ∀ id, id ∈ (t.sumOut u).axes.ids ↔ id ∈ t.axes.ids ∧ id ≠ u.id := fun _ =>
        Axes.mem_ids_without ht.wellFormed.nodup
      obtain ⟨hfits, hids, hvalue⟩ := ih (ht.sumOut u) hus hsized fun id hid =>
        (hwithout id).mpr ⟨hmem.2 hid, fun h => hu (by rw [← h]; exact hid)⟩
      refine ⟨hfits, fun id => ?_, fun x hx => ?_⟩
      · rw [List.foldl_cons, hids, hwithout, Axes.ids_cons, List.mem_cons, not_or, and_assoc]
      · rw [List.foldl_cons, hvalue x hx, ← Axes.sumOver_cons_inner hu]
        exact Axes.sumOver_congr hsized hx fun y hy _ =>
          ht.valueAt_sumOut (mentions_iff.mpr hmem.1) hy

end Table

/-- The assignment with the observed outcomes set. -/
def Assignment.observing (x : Assignment) (evidence : List Observation) : Assignment :=
  evidence.foldr (fun o x => x.set o.subject o.outcome) x

theorem Assignment.Valid.observing (hx : x.Valid sizes) {evidence : List Observation}
    (houtcome : ∀ o ∈ evidence, o.outcome < sizes o.subject.id) :
    (x.observing evidence).Valid sizes := by
  induction evidence with
  | nil => exact hx
  | cons o evidence ih =>
      exact (ih fun p hp => houtcome p (by simp [hp])).set (houtcome o (by simp))

namespace Tables

theorem distinct_of_fits {α : Type} {ts : List (Table α)} (hts : ∀ t ∈ ts, t.Fits sizes) :
    Distinct ts := fun t ht => (hts t ht).wellFormed.nodup

variable {ts us : List (Table ℚ)} {v : Variable}

/-! ### Weights -/

/-- The product of the cells of some tables at an assignment. -/
def weight (ts : List (Table ℚ)) (x : Assignment) : ℚ := (ts.map (·.valueAt x)).prod

@[simp] theorem weight_nil : weight [] x = 1 := rfl

@[simp] theorem weight_cons (t : Table ℚ) (ts : List (Table ℚ)) (x : Assignment) :
    weight (t :: ts) x = t.valueAt x * weight ts x := by simp [weight]

@[simp] theorem weight_append (ts us : List (Table ℚ)) (x : Assignment) :
    weight (ts ++ us) x = weight ts x * weight us x := by simp [weight]

theorem weight_perm (h : ts.Perm us) (x : Assignment) : weight ts x = weight us x :=
  (h.map _).prod_eq

/-- The tables that pass a test and the others make up the whole weight. -/
theorem weight_filter_mul (p : Table ℚ → Bool) (ts : List (Table ℚ)) (x : Assignment) :
    weight (ts.filter (!p ·)) x * weight (ts.filter p) x = weight ts x := by
  rw [← weight_append]
  exact weight_perm (List.perm_append_comm.trans (List.filter_append_perm p ts)) x

theorem weight_congr {y : Assignment} (h : ∀ t ∈ ts, t.valueAt x = t.valueAt y) :
    weight ts x = weight ts y := by
  rw [weight, weight, List.map_congr_left h]

theorem weight_forall₂ (h : List.Forall₂ (fun t u => t.valueAt x = u.valueAt x) ts us) :
    weight ts x = weight us x := by
  induction h with
  | nil => rfl
  | cons htu _ ih => rw [weight_cons, weight_cons, htu, ih]

theorem weight_nonneg (h : ∀ t ∈ ts, 0 ≤ t.valueAt x) : 0 ≤ weight ts x :=
  List.prod_nonneg fun _ ha => by
    obtain ⟨t, ht, rfl⟩ := List.mem_map.mp ha
    exact h t ht

theorem ignores_weight {vars : Axes} (h : ∀ t ∈ ts, ∀ v ∈ vars, v.id ∉ t.axes.ids) :
    Ignores (weight ts) vars := fun x y hxy =>
  weight_congr fun t ht => Table.ignores_valueAt (h t ht) x y hxy

theorem notMem_of_mem_filter {t : Table ℚ} (h : t ∈ ts.filter (!·.mentions v)) :
    v.id ∉ t.axes.ids := by
  rw [← Table.mentions_iff]
  simpa using (List.mem_filter.mp h).2

/-! ### Observations -/

/-- The table restricted to an observation of one of its axes. -/
def observeOne (t : Table ℚ) (o : Observation) : Table ℚ :=
  if t.mentions o.subject then t.restrict o.subject o.outcome else t

/-- The table restricted to all observations of its axes. -/
def observed (evidence : List Observation) (t : Table ℚ) : Table ℚ := evidence.foldl observeOne t

theorem perm_observe (o : Observation) (ts : List (Table ℚ)) :
    (observe o ts).Perm (ts.map fun t => observeOne t o) := by
  have hperm := (List.filter_append_perm (·.mentions o.subject) ts).map fun t => observeOne t o
  rw [List.map_append] at hperm
  refine List.Perm.trans (List.Perm.trans ?_ List.perm_append_comm) hperm
  refine List.Perm.append (.of_eq ?_) (.of_eq ?_)
  · refine (List.map_id _).symm.trans (List.map_congr_left fun t ht => ?_)
    exact (if_neg (by simpa using (List.mem_filter.mp ht).2)).symm
  · exact List.map_congr_left fun t ht => (if_pos (List.mem_filter.mp ht).2).symm

/-- Observations act on every table by itself. -/
theorem perm_observeAll (evidence : List Observation) (ts : List (Table ℚ)) :
    (observeAll evidence ts).Perm (ts.map (observed evidence)) := by
  induction evidence generalizing ts with
  | nil => exact .of_eq (List.map_id _).symm
  | cons o evidence ih =>
      rw [observeAll_cons]
      refine (ih _).trans ?_
      have hperm := (perm_observe o ts).map (observed evidence)
      rwa [List.map_map] at hperm

theorem fits_observeOne {t : Table ℚ} (ht : t.Fits sizes) (o : Observation) :
    (observeOne t o).Fits sizes := by
  unfold observeOne
  split
  · exact ht.restrict _ _
  · exact ht

theorem fits_observed {t : Table ℚ} (ht : t.Fits sizes) (evidence : List Observation) :
    (observed evidence t).Fits sizes := by
  induction evidence generalizing t with
  | nil => exact ht
  | cons o evidence ih => exact ih (fits_observeOne ht o)

theorem axes_observeOne {t : Table ℚ} (ht : t.Fits sizes) (o : Observation) :
    (observeOne t o).axes = t.axes.filter fun v => !(v.id == o.subject.id) := by
  unfold observeOne
  split
  next => exact Axes.without_eq_filter ht.wellFormed.nodup o.subject
  next h => exact (Axes.filter_ne_of_notMem (Table.mentions_iff.not.mp h)).symm

/-- Observations take the observed variables out of the axes. -/
theorem axes_observed {t : Table ℚ} (ht : t.Fits sizes) (evidence : List Observation) :
    (observed evidence t).axes =
      t.axes.filter fun v => !Axes.mentions (evidence.map (·.subject)) v := by
  induction evidence generalizing t with
  | nil => exact (List.filter_eq_self.mpr fun _ _ => rfl).symm
  | cons o evidence ih =>
      refine (ih (fits_observeOne ht o)).trans ?_
      rw [axes_observeOne ht o, List.filter_filter]
      refine List.filter_congr fun v _ => ?_
      simp only [Axes.mentions, List.map_cons, List.any_cons, Bool.not_or]
      rw [Bool.and_comm, Bool.beq_comm]

theorem valueAt_observeOne {t : Table ℚ} (ht : t.Fits sizes) (o : Observation)
    (hx : x.Valid sizes) :
    (observeOne t o).valueAt x = t.valueAt (x.set o.subject o.outcome) := by
  unfold observeOne
  split
  next h => exact ht.valueAt_restrict h hx _
  next h => exact (t.valueAt_set_of_notMem x (Table.mentions_iff.not.mp h) _).symm

theorem valueAt_observed {t : Table ℚ} (ht : t.Fits sizes) (evidence : List Observation)
    (houtcome : ∀ o ∈ evidence, o.outcome < sizes o.subject.id) (hx : x.Valid sizes) :
    (observed evidence t).valueAt x = t.valueAt (x.observing evidence) := by
  induction evidence generalizing t with
  | nil => rfl
  | cons o evidence ih =>
      have houtcome' := fun p hp => houtcome p (List.mem_cons_of_mem o hp)
      refine (ih (fits_observeOne ht o) houtcome').trans ?_
      exact valueAt_observeOne ht o (hx.observing houtcome')

/-! ### Eliminated variables -/

section

variable {α : Type} [Cell α] {ts : List (Table α)}

theorem fits_eliminate (hts : ∀ t ∈ ts, t.Fits sizes) (v : Variable) :
    ∀ t ∈ eliminate v ts, t.Fits sizes := by
  intro t ht
  rcases List.mem_append.mp ht with ht | ht
  · exact hts t (List.mem_of_mem_filter ht)
  · split at ht
    · rw [List.mem_singleton.mp ht]
      exact (Table.fits_foldAll fun u hu => hts u (List.mem_of_mem_filter hu)).sumOut v
    · cases ht

theorem fits_eliminateAll (hts : ∀ t ∈ ts, t.Fits sizes) (vars : List Variable) :
    ∀ t ∈ eliminateAll vars ts, t.Fits sizes := by
  induction vars generalizing ts with
  | nil => exact hts
  | cons v vars ih => exact ih (fits_eliminate hts v)

end

/-- Eliminating a variable sums the weight over it. -/
theorem weight_eliminate (hts : ∀ t ∈ ts, t.Fits sizes) (hv : v.id ∈ (axes ts).ids)
    (hsize : v.arity = sizes v.id) (hx : x.Valid sizes) :
    weight (eliminate v ts) x = ∑ k ∈ Finset.range v.arity, weight ts (x.set v k) := by
  have htouched : ∀ t ∈ ts.filter (·.mentions v), t.Fits sizes := fun t ht =>
    hts t (List.mem_of_mem_filter ht)
  have hproduct : (Table.product (ts.filter (·.mentions v))).Fits sizes :=
    Table.fits_foldAll htouched
  have hmentions : (Table.product (ts.filter (·.mentions v))).mentions v := by
    obtain ⟨t, ht, hid⟩ := mem_ids_axes.mp hv
    exact Table.mentions_iff.mpr (Table.mem_ids_foldAll.mpr
      ⟨t, List.mem_filter.mpr ⟨ht, Table.mentions_iff.mpr hid⟩, hid⟩)
  rw [eliminate, if_pos (any_mentions.mpr hv), weight_append, weight_cons, weight_nil, mul_one,
    summand, hproduct.valueAt_sumOut hmentions hx, Finset.mul_sum]
  refine Finset.sum_congr rfl fun k hk => ?_
  have hxk : (x.set v k).Valid sizes := hx.set (by rw [← hsize]; exact Finset.mem_range.mp hk)
  rw [Table.Fits.valueAt_product htouched hxk, ← weight, ← weight_filter_mul (·.mentions v) ts]
  congr 1
  exact weight_congr fun t ht => (t.valueAt_set_of_notMem x (notMem_of_mem_filter ht) k).symm

/-- **Distributive law.**  Eliminating variables one after the other enumerates their joint
outcomes. -/
theorem weight_eliminateAll (hts : ∀ t ∈ ts, t.Fits sizes) {vars : Axes}
    (hnodup : vars.ids.Nodup) (hsized : vars.Sized sizes) (hmem : vars.ids ⊆ (axes ts).ids) :
    (∀ t ∈ eliminateAll vars ts, t.Fits sizes) ∧
      (∀ id, id ∈ (axes (eliminateAll vars ts)).ids ↔ id ∈ (axes ts).ids ∧ id ∉ vars.ids) ∧
      ∀ x : Assignment, x.Valid sizes →
        weight (eliminateAll vars ts) x = Axes.sumOver vars (weight ts) x := by
  induction vars generalizing ts with
  | nil => exact ⟨hts, by simp, fun _ _ => rfl⟩
  | cons v vars ih =>
      obtain ⟨hv, hnodup⟩ := Axes.nodup_ids_cons.mp hnodup
      obtain ⟨hvsize, hsized⟩ := Axes.sized_cons.mp hsized
      rw [Axes.ids_cons, List.cons_subset] at hmem
      obtain ⟨hfits, hids, hvalue⟩ := ih (fits_eliminate hts v) hnodup hsized fun id hid =>
        (mem_ids_eliminate (distinct_of_fits hts)).mpr ⟨hmem.2 hid, fun h => hv (by rw [← h]; exact hid)⟩
      refine ⟨hfits, fun id => ?_, fun x hx => ?_⟩
      · rw [eliminateAll_cons, hids, mem_ids_eliminate (distinct_of_fits hts), Axes.ids_cons, List.mem_cons, not_or,
          and_assoc]
      · rw [eliminateAll_cons, hvalue x hx, ← Axes.sumOver_cons_inner hv]
        exact Axes.sumOver_congr hsized hx fun y hy _ => weight_eliminate hts hmem.1 hvsize hy

/-! ### Utilities -/

section

variable {α : Type} [Cell α] {ts : List (Table α)}

theorem fits_weigh (s : Setting α) {t : Table α} (ht : t.Fits sizes) : (weigh s t).Fits sizes := by
  unfold weigh
  split
  · exact ht
  · exact ht.scale _

theorem fits_weighed (s : Setting α) (r : Registry) (hts : ∀ t ∈ ts, t.Fits sizes) :
    ∀ t ∈ (ts.filter (isUtility r)).map (weigh s), t.Fits sizes := by
  intro t ht
  obtain ⟨u, hu, rfl⟩ := List.mem_map.mp ht
  exact fits_weigh s (hts u (List.mem_of_mem_filter hu))

theorem fits_utilitySum (s : Setting α) (r : Registry) (hts : ∀ t ∈ ts, t.Fits sizes) :
    (utilitySum s r ts).Fits sizes :=
  Table.fits_foldAll (fits_weighed s r hts)

theorem fits_sumUtilities (s : Setting α) (r : Registry) (hts : ∀ t ∈ ts, t.Fits sizes) :
    ∀ t ∈ sumUtilities s r ts, t.Fits sizes := by
  intro t ht
  rcases List.mem_append.mp ht with ht | ht
  · exact hts t (List.mem_of_mem_filter ht)
  · split at ht
    · rw [List.mem_singleton.mp ht]
      exact (fits_utilitySum s r hts).foldl_sumOut _
    · cases ht

end

theorem valueAt_weigh (s : Setting ℚ) {t : Table ℚ} (ht : t.Fits sizes) (hx : x.Valid sizes) :
    (weigh s t).valueAt x = s.weightOf t.axes * t.valueAt x := by
  unfold weigh
  by_cases h : s.weightOf t.axes == 1
  · rw [if_pos h, beq_iff_eq.mp h, one_mul]
  · rw [if_neg h, ht.valueAt_scale hx, mul_comm]

theorem mem_axes_weigh (s : Setting ℚ) (t : Table ℚ) {v : Variable} (h : v ∈ (weigh s t).axes) :
    v ∈ t.axes := by
  unfold weigh at h
  split at h
  · exact h
  · obtain ⟨u, hu, hv⟩ := Table.axes_foldAll_subset h
    rcases List.mem_pair.mp hu with rfl | rfl
    · exact hv
    · cases hv

theorem mem_ids_weigh (s : Setting ℚ) (t : Table ℚ) {id : VariableId} :
    id ∈ (weigh s t).axes.ids ↔ id ∈ t.axes.ids := by
  unfold weigh
  split
  · rfl
  · rw [Table.scale, Table.product, Table.mem_ids_foldAll]
    simp [Table.scalar]

/-- The weighted sum of the tables that mention a utility. -/
def utilityAt (s : Setting ℚ) (r : Registry) (ts : List (Table ℚ)) (x : Assignment) : ℚ :=
  ((ts.filter (isUtility r)).map fun t => s.weightOf t.axes * t.valueAt x).sum

theorem valueAt_utilitySum (s : Setting ℚ) (r : Registry) (hts : ∀ t ∈ ts, t.Fits sizes)
    (hx : x.Valid sizes) : (utilitySum s r ts).valueAt x = utilityAt s r ts x := by
  rw [utilitySum, Table.Fits.valueAt_sum (fits_weighed s r hts) hx, List.map_map]
  refine congrArg _ (List.map_congr_left fun t ht => ?_)
  exact valueAt_weigh s (hts t (List.mem_of_mem_filter ht)) hx

theorem mem_ids_utilitySum (s : Setting ℚ) (r : Registry) {id : VariableId} :
    id ∈ (utilitySum s r ts).axes.ids ↔ ∃ t ∈ ts, isUtility r t ∧ id ∈ t.axes.ids := by
  rw [utilitySum, Table.sum, Table.mem_ids_foldAll]
  simp [mem_ids_weigh, and_assoc]

theorem mem_summedUtilities {s : Setting ℚ} {r : Registry}
    (h : v ∈ summedUtilities s r ts) : r.kindOf v = .utility ∧ ∃ t ∈ ts, v ∈ t.axes := by
  obtain ⟨hv, hkind⟩ := List.mem_filter.mp h
  obtain ⟨u, hu, hv⟩ := Table.axes_foldAll_subset hv
  obtain ⟨t, ht, rfl⟩ := List.mem_map.mp hu
  exact ⟨by simpa using hkind, t, List.mem_of_mem_filter ht, mem_axes_weigh s t hv⟩

/-- The utilities are summed out of their weighted sum. -/
theorem fits_summed (s : Setting ℚ) (r : Registry) (hts : ∀ t ∈ ts, t.Fits sizes)
    (hone : ∀ t ∈ ts, ∀ v ∈ t.axes, r.kindOf v = .utility → v.arity = 1) :
    ((summedUtilities s r ts).foldl Table.sumOut (utilitySum s r ts)).Fits sizes ∧
      (∀ id, id ∈ ((summedUtilities s r ts).foldl Table.sumOut (utilitySum s r ts)).axes.ids ↔
        (∃ t ∈ ts, isUtility r t ∧ id ∈ t.axes.ids) ∧ id ∉ (summedUtilities s r ts).ids) ∧
      ∀ x : Assignment, x.Valid sizes →
        ((summedUtilities s r ts).foldl Table.sumOut (utilitySum s r ts)).valueAt x =
          utilityAt s r ts x := by
  have hfits := fits_utilitySum s r hts
  have hsub : summedUtilities s r ts ⊆ (utilitySum s r ts).axes :=
    List.filter_sublist.subset
  have hsized : (summedUtilities s r ts).Sized sizes := hfits.sized.subset hsub
  have harity : ∀ v ∈ summedUtilities s r ts, v.arity = 1 := by
    intro v hv
    obtain ⟨hkind, t, ht, hv⟩ := mem_summedUtilities hv
    exact hone t ht v hv hkind
  obtain ⟨hfits', hids, hvalue⟩ := hfits.sumOutAll
    (Axes.nodup_ids_filter hfits.wellFormed.nodup _) hsized (Axes.ids_filter_sublist _ _).subset
  refine ⟨hfits', fun id => ?_, fun x hx => ?_⟩
  · rw [← mem_ids_utilitySum s r]
    exact hids id
  · rw [← valueAt_utilitySum s r hts hx]
    exact (hvalue x hx).trans (Axes.sumOver_single harity hsized hx _)

theorem mem_ids_sumUtilities (s : Setting ℚ) (r : Registry) (hts : ∀ t ∈ ts, t.Fits sizes)
    (hone : ∀ t ∈ ts, ∀ v ∈ t.axes, r.kindOf v = .utility → v.arity = 1) {id : VariableId} :
    id ∈ (axes (sumUtilities s r ts)).ids ↔
      ∃ t ∈ ts, id ∈ t.axes.ids ∧ (isUtility r t → id ∉ (summedUtilities s r ts).ids) := by
  have hone' : ∀ t : Table ℚ, t ∈ sumUtilities s r ts ↔ (t ∈ ts ∧ ¬isUtility r t) ∨
      (∃ u ∈ ts, isUtility r u) ∧
        t = (summedUtilities s r ts).foldl Table.sumOut (utilitySum s r ts) := by
    intro t
    by_cases h : ∃ u ∈ ts, isUtility r u
    · simp [sumUtilities, h]
    · simp [sumUtilities, h]
  simp only [mem_ids_axes, hone']
  constructor
  · rintro ⟨t, ⟨ht, hno⟩ | ⟨-, rfl⟩, hid⟩
    · exact ⟨t, ht, hid, fun h => absurd h hno⟩
    · obtain ⟨⟨t, ht, -, hid⟩, hout⟩ := ((fits_summed s r hts hone).2.1 id).mp hid
      exact ⟨t, ht, hid, fun _ => hout⟩
  · rintro ⟨t, ht, hid, hout⟩
    by_cases hu : isUtility r t
    · exact ⟨_, .inr ⟨⟨t, ht, hu⟩, rfl⟩,
        ((fits_summed s r hts hone).2.1 id).mpr ⟨⟨t, ht, hu, hid⟩, hout hu⟩⟩
    · exact ⟨t, .inl ⟨ht, hu⟩, hid⟩

/-- Summing the utilities replaces the utility tables by their weighted sum. -/
theorem weight_sumUtilities (s : Setting ℚ) (r : Registry) (hts : ∀ t ∈ ts, t.Fits sizes)
    (hone : ∀ t ∈ ts, ∀ v ∈ t.axes, r.kindOf v = .utility → v.arity = 1)
    (hany : ∃ t ∈ ts, isUtility r t) (hx : x.Valid sizes) :
    weight (sumUtilities s r ts) x = weight (ts.filter (!isUtility r ·)) x * utilityAt s r ts x := by
  rw [sumUtilities, if_pos (List.any_eq_true.mpr hany), weight_append, weight_cons, weight_nil,
    mul_one]
  exact congrArg _ ((fits_summed s r hts hone).2.2 x hx)

end Tables

end Influence
