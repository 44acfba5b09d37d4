import Influence.Proofs.SmallFactors
import Influence.Proofs.Table.Marginal

/-! # Laws of products and sums

The product and the sum of some factors are functions of assignments: over the union of the axes, in
the order in which they are first mentioned, they fold the values of the factors.  This is so for every
cell arithmetic (`Factor.IsFold`).

For exact fractions products and sums depend neither on the order nor on the grouping of the factors,
and a factor that does not mention a variable may be taken out of a sum over it.  The axes then stand in
another order, so the laws are equations after rearranging (`Factor.IsRearranged`).

`Factor.laws_folded` puts the laws together.  They hold as long as there is room for the joint outcomes of
the union.  The product of sixteen factors of one die each has no cells at all
(`Factor.exists_product_not_isFold`). -/

namespace Influence

/-! ### Unions in the order of first mention -/

namespace Axes

/-- A union adds the handles whose variables were not seen, the first one of each. -/
theorem union_eq (seen axes : Axes) :
    union seen axes =
      seen ++ (axes.filter fun v => !mentions seen v).eraseDupsBy fun v w => v.id == w.id := by
  induction axes generalizing seen with
  | nil => simp [List.eraseDupsBy, List.eraseDupsBy.loop]
  | cons v axes ih =>
      rw [union, ih]
      by_cases hv : mentions seen v
      · rw [if_pos hv, List.filter_cons_of_neg (by simpa using hv)]
      · have hrest : (axes.filter fun w => !mentions (seen ++ [v]) w) =
            (axes.filter fun w => !mentions seen w).filter fun w => decide ((w.id == v.id) = false) := by
          rw [List.filter_filter]
          refine List.filter_congr fun w _ => ?_
          have hswap : (v.id == w.id) = (w.id == v.id) := Bool.beq_comm
          simp only [mentions, List.any_append, List.any_cons, List.any_nil, Bool.or_false, Bool.not_or,
            hswap]
          cases w.id == v.id <;> simp
        rw [if_neg hv, List.filter_cons_of_pos (by simpa using hv), List.eraseDupsBy_cons, hrest]
        simp

/-- The distinct variables of some axes, each with the handle with which it is first mentioned. -/
def distinct (axes : Axes) : Axes := axes.eraseDupsBy fun v w => v.id == w.id

theorem union_nil_eq_distinct (axes : Axes) : union [] axes = axes.distinct := by
  rw [union_eq, distinct, List.nil_append]
  exact congrArg _ (List.filter_eq_self.mpr fun v _ => by simp [mentions])

theorem distinct_of_nodup {axes : Axes} (h : axes.ids.Nodup) : axes.distinct = axes := by
  induction axes with
  | nil => rfl
  | cons v axes ih =>
      obtain ⟨hv, haxes⟩ := nodup_ids_cons.mp h
      have hrest : (axes.filter fun w => decide ((w.id == v.id) = false)) = axes := by
        refine List.filter_eq_self.mpr fun w hw => ?_
        simp only [beq_eq_false_iff_ne, decide_eq_true_eq]
        exact fun hid => hv (hid ▸ mem_ids_of_mem hw)
      rw [distinct, List.eraseDupsBy_cons, hrest]
      exact congrArg _ (ih haxes)

end Axes

/-! ### Exact fractions -/

namespace Fold

theorem fold_perm_rat (op : Fold) {xs ys : List ℚ} (h : xs.Perm ys) : op.fold xs = op.fold ys := by
  cases op with
  | product => rw [fold_product_rat, fold_product_rat, h.prod_eq]
  | sum => rw [fold_sum_rat, fold_sum_rat, h.sum_eq]

theorem fold_flatten_rat (op : Fold) (groups : List (List ℚ)) :
    op.fold groups.flatten = op.fold (groups.map op.fold) := by
  cases op with
  | product =>
      rw [fold_product_rat, fold_product_rat, List.prod_flatten]
      exact congrArg List.prod (List.map_congr_left fun xs _ => (fold_product_rat xs).symm)
  | sum =>
      rw [fold_sum_rat, fold_sum_rat, List.sum_flatten]
      exact congrArg List.sum (List.map_congr_left fun xs _ => (fold_sum_rat xs).symm)

end Fold

namespace Table

theorem axes_foldAll [Build] {α : Type} [Cell α] {op : Fold} {ts : List (Table α)}
    (hts : ∀ t ∈ ts, t.axes.ids.Nodup) :
    (foldAll op ts).axes = Axes.distinct (ts.flatMap (·.axes)) := by
  unfold foldAll
  split
  next t => rw [List.flatMap_singleton, Axes.distinct_of_nodup (hts t (by simp))]
  next => exact Axes.union_nil_eq_distinct _

end Table

namespace Factor

/-! ### Folding factors -/

section

variable {α : Type} [Build] {fs : List (Factor α)}

/-- The factors are well-formed and their handles agree on the numbers of outcomes. -/
structure Compatible (fs : List (Factor α)) : Prop where
  wellFormed : ∀ f ∈ fs, f.table.WellFormed
  agree : Axes.Agree (fs.flatMap (·.axes))

instance (fs : List (Factor α)) : Decidable (Compatible fs) :=
  decidable_of_iff ((∀ f ∈ fs, f.table.WellFormed) ∧ Axes.Agree (fs.flatMap (·.axes)))
    ⟨fun ⟨hwellFormed, hagree⟩ => ⟨hwellFormed, hagree⟩, fun h => ⟨h.wellFormed, h.agree⟩⟩

/-- The variables of some factors, each with the handle with which it is first mentioned. -/
def scope (fs : List (Factor α)) : Axes := Axes.distinct (fs.flatMap (·.axes))

variable [Cell α]

/-- Over the distinct axes of some factors, in the order of their first mention, the factor folds their
values.  One factor is copied, and none at all gives the scalar at which a fold starts. -/
structure IsFold (op : Fold) (fs : List (Factor α)) (g : Factor α) : Prop where
  wellFormed : g.table.WellFormed
  axes : g.axes = scope fs
  value : fs.length ≠ 1 → ∀ x : Assignment, x.InRange g.axes →
    g.table.valueAt x = op.fold (fs.map (·.table.valueAt x))
  single : ∀ f, fs = [f] → g.table = f.table
  none : fs = [] → g.table = .scalar op.start

/-- Rearranging the axes of the second factor gives the first one. -/
def IsRearranged (g h : Factor α) : Prop :=
  ∀ r, ∃ h', Returns (h.rearrange g.axes) r h' (r.after 1) ∧ h'.axes.ids = g.axes.ids ∧
    h'.cells = g.cells

/-- Some groups of factors have been folded. -/
def AreFolded (op : Fold) : List (List (Factor α)) → List (Factor α) → Prop :=
  List.Forall₂ fun group h => ∃ r r', Returns (foldAll op group) r h r'

end

/-! The factors of the build that runs. -/

section

variable {α : Type} {sizes : VariableId → ℕ} {op : Fold} {fs gs : List (Factor α)} {g : Factor α}
  {r r' : Registry}

theorem Compatible.exists_sizes (h : Compatible fs) :
    ∃ sizes, (∀ f ∈ fs, f.table.Small sizes) ∧ Assignment.Valid sizes fun _ => 0 := by
  refine ⟨Axes.sizes (fs.flatMap (·.axes)) fun _ => 1, fun f hf => (h.wellFormed f hf).small ?_, ?_⟩
  · exact (h.agree.sized _).subset fun v hv => List.mem_flatMap.mpr ⟨f, hf, hv⟩
  · apply Axes.sizes_pos
    intro v hv
    obtain ⟨f, hf, hv⟩ := List.mem_flatMap.mp hv
    exact (h.wellFormed f hf).arity_pos v hv

theorem scope_eq_union (fs : List (Factor α)) : scope fs = Axes.union [] (fs.flatMap (·.axes)) :=
  (Axes.union_nil_eq_distinct _).symm

theorem nodup_scope (fs : List (Factor α)) : (scope fs).ids.Nodup := by
  rw [scope_eq_union]
  exact Axes.nodup_union _ (by simp)

theorem mem_ids_scope {id : VariableId} : id ∈ (scope fs).ids ↔ ∃ f ∈ fs, id ∈ f.axes.ids := by
  rw [scope_eq_union, Axes.mem_ids_union, Axes.mem_ids_flatMap]
  simp

theorem mem_of_mem_scope {v : Variable} (hv : v ∈ scope fs) : ∃ f ∈ fs, v ∈ f.axes := by
  rw [scope_eq_union] at hv
  exact List.mem_flatMap.mp ((Axes.mem_of_mem_union hv).resolve_left List.not_mem_nil)

theorem sized_scope (hfs : ∀ f ∈ fs, f.table.Small sizes) : (scope fs).Sized sizes := by
  intro v hv
  obtain ⟨f, hf, hv⟩ := mem_of_mem_scope hv
  exact (hfs f hf).sized v hv

theorem count_scope_le (hfs : ∀ f ∈ fs, f.table.Small sizes) (hgs : ∀ g ∈ gs, g.table.Small sizes)
    (hsub : ∀ g ∈ gs, g.axes.ids ⊆ (scope fs).ids) : (scope gs).count ≤ (scope fs).count := by
  refine Axes.count_le_of_subset (sized_scope hfs) (sized_scope hgs) (nodup_scope gs) ?_ fun v hv => ?_
  · intro id hid
    obtain ⟨g, hg, hid⟩ := mem_ids_scope.mp hid
    exact hsub g hg hid
  · obtain ⟨f, hf, hv⟩ := mem_of_mem_scope hv
    exact (hfs f hf).arity_pos v hv

variable [Cell α]

/-- With room for the union, a fold makes the table of the exact build. -/
theorem returns_foldAll_iff (hfs : ∀ f ∈ fs, f.table.Small sizes)
    (hroom : (scope fs).count < Build.room) :
    Returns (foldAll op fs) r g r' ↔
      g = ⟨r.nextFactor, @Table.foldAll α Exact.build _ op (fs.map (·.table))⟩ ∧ r' = r.after 1 := by
  rw [scope_eq_union] at hroom
  rw [foldAll_eq Build.release Exact.build op hfs hroom]
  exact returns_foldAll

theorem small_foldAll (op : Fold) (hfs : ∀ f ∈ fs, f.table.Small sizes) (hroom : (scope fs).count < Build.room) :
    (@Table.foldAll α Exact.build _ op (fs.map (·.table))).axes = scope fs ∧
      (@Table.foldAll α Exact.build _ op (fs.map (·.table))).Small sizes := by
  have haxes : (@Table.foldAll α Exact.build _ op (fs.map (·.table))).axes = scope fs := by
    refine (@Table.axes_foldAll Exact.build α _ op _ ?_).trans ?_
    · exact List.forall_mem_map.mpr fun f hf => (hfs f hf).nodup
    · rw [List.flatMap_map]
      rfl
  refine ⟨haxes, .of_fits (Table.fits_foldAll (List.forall_mem_map.mpr fun f hf => (hfs f hf).fits)) ?_⟩
  rwa [haxes]

theorem exists_isFold (op : Fold) (hfs : Compatible fs) (hroom : (scope fs).count < Build.room)
    (r : Registry) : ∃ g, Returns (foldAll op fs) r g (r.after 1) ∧ IsFold op fs g := by
  obtain ⟨sizes, hsmall, -⟩ := hfs.exists_sizes
  obtain ⟨haxes, htable⟩ := small_foldAll op hsmall hroom
  refine ⟨_, (returns_foldAll_iff hsmall hroom).mpr ⟨rfl, rfl⟩, htable.wellFormed, haxes, ?_, ?_, ?_⟩
  · intro hone x hx
    refine (Table.valueAt_foldAll (List.forall_mem_map.mpr fun f hf => (hsmall f hf).fits.wellFormed) hx
      (by simpa using hone)).trans ?_
    rw [List.map_map]
    rfl
  · rintro f rfl
    rfl
  · rintro rfl
    cases op <;> rfl

end

/-! ### Laws of exact fractions -/

section

variable {sizes : VariableId → ℕ} {op : Fold} {fs gs hs : List (Factor ℚ)} {f g h : Factor ℚ}
  {groups : List (List (Factor ℚ))} {x : Assignment} {v : Variable} {r r' : Registry}

/-- Over the variables of some factors, in any order, the factor folds their values. -/
structure Joins (sizes : VariableId → ℕ) (op : Fold) (fs : List (Factor ℚ)) (g : Factor ℚ) : Prop where
  small : g.table.Small sizes
  ids : ∀ id, id ∈ g.axes.ids ↔ ∃ f ∈ fs, id ∈ f.axes.ids
  value : ∀ x : Assignment, x.Valid sizes → g.table.valueAt x = op.fold (fs.map (·.table.valueAt x))

theorem exists_joins (op : Fold) (hfs : ∀ f ∈ fs, f.table.Small sizes) (hroom : (scope fs).count < Build.room)
    (r : Registry) : ∃ g, Returns (foldAll op fs) r g (r.after 1) :=
  ⟨_, (returns_foldAll_iff hfs hroom).mpr ⟨rfl, rfl⟩⟩

theorem joins_of_returns (hfs : ∀ f ∈ fs, f.table.Small sizes) (hroom : (scope fs).count < Build.room)
    (h : Returns (foldAll op fs) r g r') : Joins sizes op fs g := by
  obtain ⟨rfl, -⟩ := (returns_foldAll_iff hfs hroom).mp h
  obtain ⟨haxes, hsmall⟩ := small_foldAll op hfs hroom
  refine ⟨hsmall, fun id => ?_, fun x hx => ?_⟩
  · rw [← mem_ids_scope, ← haxes]
    rfl
  · refine (Table.valueAt_foldAll_rat (List.forall_mem_map.mpr fun f hf => (hfs f hf).fits.wellFormed)
      (hx.inRange hsmall.sized)).trans ?_
    rw [List.map_map]
    rfl

namespace Joins

theorem perm (h : Joins sizes op gs g) (hperm : gs.Perm fs) : Joins sizes op fs g where
  small := h.small
  ids id := (h.ids id).trans (by simp only [hperm.mem_iff])
  value x hx := (h.value x hx).trans (op.fold_perm_rat (hperm.map _))

/-- The grouping of the factors does not matter. -/
theorem flatten (h : Joins sizes op hs g) (hhs : List.Forall₂ (Joins sizes op) groups hs) :
    Joins sizes op groups.flatten g where
  small := h.small
  ids id := by
    rw [h.ids]
    clear h
    induction hhs with
    | nil => simp
    | cons hfirst _ ih =>
        rw [List.exists_mem_cons_iff, hfirst.ids, ih, List.flatten_cons]
        simp only [List.mem_append, or_and_right, exists_or]
  value x hx := by
    have hvalues : hs.map (·.table.valueAt x) = (groups.map (·.map (·.table.valueAt x))).map op.fold := by
      clear h
      induction hhs with
      | nil => rfl
      | cons hfirst _ ih => rw [List.map_cons, List.map_cons, List.map_cons, ih, hfirst.value x hx]
    rw [h.value x hx, hvalues, ← op.fold_flatten_rat, ← List.map_flatten]

end Joins

/-- Factors over the same variables with the same values differ in the order of their axes. -/
theorem isRearranged_of_valueAt (hg : g.table.Small sizes) (hh : h.table.Small sizes)
    (hvalid : x.Valid sizes) (hids : ∀ id, id ∈ h.axes.ids ↔ id ∈ g.axes.ids)
    (hvalue : ∀ y : Assignment, y.Valid sizes → h.table.valueAt y = g.table.valueAt y) :
    IsRearranged g h := by
  intro r
  have hperm : g.axes.ids.Perm h.axes.ids :=
    (List.perm_ext_iff_of_nodup hg.nodup hh.nodup).mpr fun id => (hids id).symm
  have horder := Table.ids_rearrange (B := Exact.build) h.table g.axes
  rw [rearrange_eq Build.release Exact.build hh g.axes hg.sized]
  refine ⟨_, returns_rearrange.mpr ⟨(isOrder_iff hh.nodup).mpr hperm, rfl, rfl⟩, horder, ?_⟩
  apply Array.toList_inj.mp
  refine hg.fits.cells_eq_of_ids (hh.fits.rearrange hperm hg.sized) horder hvalid fun y hy => ?_
  rw [hh.fits.valueAt_rearrange hperm hg.sized hy, hvalue y hy]

theorem Joins.isRearranged (hg : Joins sizes op fs g) (hh : Joins sizes op fs h)
    (hvalid : x.Valid sizes) : IsRearranged g h :=
  isRearranged_of_valueAt hg.small hh.small hvalid (fun id => (hh.ids id).trans (hg.ids id).symm)
    fun y hy => (hh.value y hy).trans (hg.value y hy).symm

/-- The order of the factors does not matter. -/
theorem exists_isRearranged_of_perm (hfs : Compatible fs) (hroom : (scope fs).count < Build.room)
    (hg : Returns (foldAll op fs) r g (r.after 1)) (hperm : gs.Perm fs) (r' : Registry) :
    ∃ h, Returns (foldAll op gs) r' h (r'.after 1) ∧ IsRearranged g h := by
  obtain ⟨sizes, hsmall, hzero⟩ := hfs.exists_sizes
  have hsmall' : ∀ g ∈ gs, g.table.Small sizes := fun g hg => hsmall g (hperm.mem_iff.mp hg)
  have hroom' : (scope gs).count < Build.room :=
    (count_scope_le hsmall hsmall' fun g hg id hid =>
      mem_ids_scope.mpr ⟨g, hperm.mem_iff.mp hg, hid⟩).trans_lt hroom
  obtain ⟨h, hh⟩ := exists_joins op hsmall' hroom' r'
  refine ⟨h, hh, (joins_of_returns hsmall hroom hg).isRearranged ?_ hzero⟩
  exact (joins_of_returns hsmall' hroom' hh).perm hperm

/-- The grouping of the factors does not matter. -/
theorem exists_isRearranged_of_groups (hfs : Compatible fs) (hroom : (scope fs).count < Build.room)
    (hg : Returns (foldAll op fs) r g (r.after 1)) (hperm : groups.flatten.Perm fs) (r' : Registry) :
    (∀ group ∈ groups, ∀ r, ∃ h, Returns (foldAll op group) r h (r.after 1)) ∧
    ∀ hs, AreFolded op groups hs →
      ∃ h, Returns (foldAll op hs) r' h (r'.after 1) ∧ IsRearranged g h := by
  obtain ⟨sizes, hsmall, hzero⟩ := hfs.exists_sizes
  have hgroup : ∀ group ∈ groups, ∀ f ∈ group, f ∈ fs := fun group hgroup f hf =>
    hperm.mem_iff.mp (List.mem_flatten.mpr ⟨group, hgroup, hf⟩)
  have hsmall' : ∀ group ∈ groups, ∀ f ∈ group, f.table.Small sizes := fun group hmem f hf =>
    hsmall f (hgroup group hmem f hf)
  have hroom' : ∀ group ∈ groups, (scope group).count < Build.room := fun group hmem =>
    (count_scope_le hsmall (hsmall' group hmem) fun f hf id hid =>
      mem_ids_scope.mpr ⟨f, hgroup group hmem f hf, hid⟩).trans_lt hroom
  refine ⟨fun group hmem => exists_joins op (hsmall' group hmem) (hroom' group hmem), fun hs hhs => ?_⟩
  have hjoins : List.Forall₂ (Joins sizes op) groups hs := by
    refine List.forall₂_iff_zip.mpr ⟨hhs.length_eq, fun {group h} hmem => ?_⟩
    obtain ⟨_, _, hreturns⟩ := List.forall₂_zip hhs hmem
    have hmem := (List.of_mem_zip hmem).1
    exact joins_of_returns (hsmall' group hmem) (hroom' group hmem) hreturns
  have hall : ∀ h ∈ hs, h.table.Small sizes ∧ h.axes.ids ⊆ (scope fs).ids := by
    intro h hh
    obtain ⟨group, hmem, hjoin⟩ := exists_left_of_mem hjoins hh
    refine ⟨hjoin.small, fun id hid => ?_⟩
    obtain ⟨f, hf, hid⟩ := (hjoin.ids id).mp hid
    exact mem_ids_scope.mpr ⟨f, hgroup group hmem f hf, hid⟩
  have hroomAll : (scope hs).count < Build.room :=
    (count_scope_le hsmall (fun h hh => (hall h hh).1) fun h hh => (hall h hh).2).trans_lt hroom
  obtain ⟨h, hh⟩ := exists_joins op (fun h hh => (hall h hh).1) hroomAll r'
  refine ⟨h, hh, (joins_of_returns hsmall hroom hg).isRearranged ?_ hzero⟩
  exact ((joins_of_returns (fun h hh => (hall h hh).1) hroomAll hh).flatten hjoins).perm hperm

theorem returns_sumOut_iff (hf : f.table.Small sizes) (hsize : v.arity = sizes v.id) :
    Returns (f.sumOut v) r g r' ↔ f.mentions v ∧
      g = ⟨r.nextFactor, @Table.sumOut ℚ Exact.build _ f.table v⟩ ∧ r' = r.after 1 := by
  rw [sumOut_eq Build.release Exact.build hf hsize]
  exact returns_sumOut

/-- A factor that does not mention a variable is taken out of the sum over it. -/
theorem exists_isRearranged_sumOut (hfg : Compatible [f, g])
    (hroom : (scope [f, g]).count < Build.room) (hv : Axes.Agree (v :: (f.axes ++ g.axes)))
    (hf : ¬f.mentions v) (hg : g.mentions v) (r₁ r₂ r₃ r₄ : Registry) :
    ∃ p a s q, Returns (product [f, g]) r₁ p (r₁.after 1) ∧ Returns (p.sumOut v) r₂ a (r₂.after 1) ∧
      Returns (g.sumOut v) r₃ s (r₃.after 1) ∧ Returns (product [f, s]) r₄ q (r₄.after 1) ∧
      IsRearranged a q := by
  obtain ⟨sizes, hsmall, hzero⟩ := hfg.exists_sizes
  obtain ⟨hfsmall, hgsmall⟩ := List.forall_mem_cons.mp hsmall
  replace hgsmall := hgsmall g (List.mem_singleton_self g)
  obtain ⟨w, hw, hid⟩ := Axes.mem_ids.mp (Table.mentions_iff.mp hg)
  have hsize : v.arity = sizes v.id := by
    rw [← hid, ← hgsmall.sized w hw]
    exact hv v (by simp) w (List.mem_cons_of_mem _ (List.mem_append_right _ hw)) hid.symm
  obtain ⟨p, hp⟩ := exists_joins .product hsmall hroom r₁
  have hpjoins := joins_of_returns hsmall hroom hp
  have hpmentions : p.mentions v := Table.mentions_iff.mpr ((hpjoins.ids v.id).mpr
    ⟨g, by simp, Table.mentions_iff.mp hg⟩)
  have hssmall : (@Table.sumOut ℚ Exact.build _ g.table v).Small sizes :=
    .of_fits (hgsmall.fits.sumOut v) (hgsmall.count_without_lt v)
  have hfs : ∀ f' ∈ [f, ⟨r₃.nextFactor, @Table.sumOut ℚ Exact.build _ g.table v⟩],
      f'.table.Small sizes := by simpa using ⟨hfsmall, hssmall⟩
  have hwithout : (g.table.axes.without v).ids ⊆ g.axes.ids := fun id hid =>
    ((Axes.mem_ids_without hgsmall.nodup).mp hid).1
  have hroom' : (scope [f, ⟨r₃.nextFactor, @Table.sumOut ℚ Exact.build _ g.table v⟩]).count <
      Build.room := by
    refine (count_scope_le hsmall hfs ?_).trans_lt hroom
    rintro f' hf' id hid
    rw [List.mem_pair] at hf'
    obtain rfl | rfl := hf'
    · exact mem_ids_scope.mpr ⟨_, by simp, hid⟩
    · exact mem_ids_scope.mpr ⟨g, by simp, hwithout hid⟩
  obtain ⟨q, hq⟩ := exists_joins .product hfs hroom' r₄
  have hqjoins := joins_of_returns hfs hroom' hq
  refine ⟨p, _, _, q, hp, (returns_sumOut_iff hpjoins.small hsize).mpr ⟨hpmentions, rfl, rfl⟩,
    (returns_sumOut_iff hgsmall hsize).mpr ⟨hg, rfl, rfl⟩, hq,
    isRearranged_of_valueAt
      (.of_fits (hpjoins.small.fits.sumOut v) (hpjoins.small.count_without_lt v)) hqjoins.small hzero
      (fun id => ?_) fun y hy => ?_⟩
  · -- the variable is not one of the first factor
    have hf' : v.id ∉ f.axes.ids := fun h => hf (Table.mentions_iff.mpr h)
    have hleft : id ∈ (g.table.axes.without v).ids ↔ id ∈ g.axes.ids ∧ id ≠ v.id :=
      Axes.mem_ids_without hgsmall.nodup
    have hright : id ∈ (p.table.axes.without v).ids ↔ id ∈ p.axes.ids ∧ id ≠ v.id :=
      Axes.mem_ids_without hpjoins.small.nodup
    have hpair : ∀ g' : Factor ℚ, (∃ f' ∈ [f, g'], id ∈ f'.axes.ids) ↔
        id ∈ f.axes.ids ∨ id ∈ g'.axes.ids := by simp
    change _ ↔ id ∈ (p.table.axes.without v).ids
    rw [hright, hpjoins.ids, hqjoins.ids, hpair, hpair, or_and_right, ← hleft]
    refine or_congr_left ⟨fun h => ⟨h, ?_⟩, And.left⟩
    rintro rfl
    exact hf' h
  · have hset : ∀ k ∈ Finset.range v.arity, (y.set v k).Valid sizes := fun k hk =>
      hy.set (hsize ▸ Finset.mem_range.mp hk)
    have hconstant : ∀ k, f.table.valueAt (y.set v k) = f.table.valueAt y := fun k =>
      f.table.valueAt_set_of_notMem y (fun h => hf (Table.mentions_iff.mpr h)) k
    calc q.table.valueAt y
        = f.table.valueAt y * (@Table.sumOut ℚ Exact.build _ g.table v).valueAt y := by
          rw [hqjoins.value y hy, Fold.fold_product_rat]
          simp
      _ = ∑ k ∈ Finset.range v.arity, f.table.valueAt y * g.table.valueAt (y.set v k) := by
          rw [hgsmall.fits.valueAt_sumOut hg hy, Finset.mul_sum]
      _ = ∑ k ∈ Finset.range v.arity, p.table.valueAt (y.set v k) := by
          refine Finset.sum_congr rfl fun k hk => ?_
          rw [hpjoins.value _ (hset k hk), Fold.fold_product_rat, ← hconstant k]
          simp
      _ = (@Table.sumOut ℚ Exact.build _ p.table v).valueAt y :=
          (hpjoins.small.fits.valueAt_sumOut hpmentions hy).symm

end

/-- **Products and sums of factors.**  With room for the joint outcomes of the union of their axes, the
product and the sum of compatible factors (`foldAll`) are made in every cell arithmetic and fold their
values.  For exact fractions neither the order nor the grouping of the factors matters, and a factor that
does not mention a variable may be taken out of the sum over it. -/
theorem laws_folded :
    (∀ {α : Type} [Cell α] (op : Fold) (fs : List (Factor α)), Compatible fs →
      (scope fs).count < Build.room →
      ∀ r, ∃ g, Returns (foldAll op fs) r g (r.after 1) ∧ IsFold op fs g) ∧
    (∀ (op : Fold) (fs : List (Factor ℚ)), Compatible fs → (scope fs).count < Build.room →
      ∀ r r' g, Returns (foldAll op fs) r g (r.after 1) →
      (∀ gs, gs.Perm fs → ∃ h, Returns (foldAll op gs) r' h (r'.after 1) ∧ IsRearranged g h) ∧
      ∀ groups, groups.flatten.Perm fs →
        (∀ group ∈ groups, ∀ r, ∃ h, Returns (foldAll op group) r h (r.after 1)) ∧
        ∀ hs, AreFolded op groups hs →
          ∃ h, Returns (foldAll op hs) r' h (r'.after 1) ∧ IsRearranged g h) ∧
    ∀ (f g : Factor ℚ) (v : Variable), Compatible [f, g] → (scope [f, g]).count < Build.room →
      Axes.Agree (v :: (f.axes ++ g.axes)) → ¬f.mentions v → g.mentions v → ∀ r₁ r₂ r₃ r₄,
      ∃ p a s q, Returns (product [f, g]) r₁ p (r₁.after 1) ∧
        Returns (p.sumOut v) r₂ a (r₂.after 1) ∧ Returns (g.sumOut v) r₃ s (r₃.after 1) ∧
        Returns (product [f, s]) r₄ q (r₄.after 1) ∧ IsRearranged a q := by
  refine ⟨fun op fs hfs hroom r => exists_isFold op hfs hroom r,
    fun op fs hfs hroom r r' g hg => ⟨?_, ?_⟩, ?_⟩
  · exact fun gs hperm => exists_isRearranged_of_perm hfs hroom hg hperm r'
  · exact fun groups hperm => exists_isRearranged_of_groups hfs hroom hg hperm r'
  · exact fun f g v hfg hroom hv hf hg => exists_isRearranged_sumOut hfg hroom hv hf hg

/-- Two factors that share one of two axes: added, added in another order and in two groups, and
multiplied with the axis that only one of them has summed out. -/
theorem laws_folded_of_two :
    let v : Variable := ⟨0, 2, .chance⟩
    let w : Variable := ⟨1, 3, .chance⟩
    let f : Factor ℚ := ⟨0, ⟨[w], #[1, 2, 3]⟩⟩
    let g : Factor ℚ := ⟨1, ⟨[v, w], #[1, 1 / 2, 0, 4, 5, 6]⟩⟩
    let r : Registry := ⟨[v, w], 2, 2⟩
    (∃ s, Returns (sum [f, g]) r s (r.after 1) ∧ IsFold .sum [f, g] s ∧
      (∃ t, Returns (sum [g, f]) r t (r.after 1) ∧ IsRearranged s t) ∧
      ∃ g' f' z t, Returns (sum [g]) r g' (r.after 1) ∧ Returns (sum [f]) r f' (r.after 1) ∧
        Returns (sum []) r z (r.after 1) ∧ Returns (sum [g', f', z]) r t (r.after 1) ∧
        IsRearranged s t) ∧
    ∃ p a s q, Returns (product [f, g]) r p (r.after 1) ∧ Returns (p.sumOut v) r a (r.after 1) ∧
      Returns (g.sumOut v) r s (r.after 1) ∧ Returns (product [f, s]) r q (r.after 1) ∧
      IsRearranged a q := by
  intro v w f g r
  obtain ⟨hfold, hlaws, hsum⟩ := laws_folded
  have hfg : Compatible [f, g] := by decide +kernel
  have hroom : (scope [f, g]).count < Build.room := by decide +kernel
  obtain ⟨s, hs, hisFold⟩ := hfold .sum [f, g] hfg hroom r
  obtain ⟨horder, hgroups⟩ := hlaws .sum [f, g] hfg hroom r r s hs
  obtain ⟨hparts, hwhole⟩ := hgroups [[g], [f], []] (List.Perm.swap _ _ _)
  obtain ⟨g', hg'⟩ := hparts [g] (by simp) r
  obtain ⟨f', hf'⟩ := hparts [f] (by simp) r
  obtain ⟨z, hz⟩ := hparts [] (by simp) r
  obtain ⟨t, ht, hrearranged⟩ := hwhole [g', f', z]
    (.cons ⟨r, _, hg'⟩ (.cons ⟨r, _, hf'⟩ (.cons ⟨r, _, hz⟩ .nil)))
  exact ⟨⟨s, hs, hisFold, horder _ (List.Perm.swap _ _ _), g', f', z, t, hg', hf', hz, ht, hrearranged⟩,
    hsum f g v hfg hroom (by decide) (by decide) (by decide) r r r r⟩

/-- Sixteen fair dice with sixteen sides.  Together they have `2 ^ 64` outcomes. -/
def dice : List (Factor ℚ) := (List.range 16).map fun i =>
  ⟨i, ⟨[⟨i.toUInt32, 16, .chance⟩], Array.replicate 16 (1 / 16)⟩⟩

/-- The product of the dice has no cells, so it does not have the value that they have together. -/
theorem exists_product_not_isFold : ∃ (r : Registry) (g : Factor ℚ) (x : Assignment),
    Compatible dice ∧ Returns (product dice) r g (r.after 1) ∧ g.cells = #[] ∧ x.InRange g.axes ∧
    Fold.product.fold (dice.map (·.table.valueAt x)) = (1 / 16) ^ 16 ∧
    g.table.valueAt x ≠ (1 / 16) ^ 16 ∧ ¬IsFold .product dice g := by
  have hfold : Fold.product.fold (dice.map (·.table.valueAt fun _ => 0)) = (1 / 16) ^ 16 := by
    decide +kernel
  obtain ⟨g, r', hg, hcells, hrange, hvalue⟩ := exists_returns_of_toOption (x := product dice)
    (s := ⟨[], 16, 16⟩)
    (P := fun g => g.cells = #[] ∧ (∀ v ∈ g.axes, 0 < v.arity) ∧
      g.table.valueAt (fun _ => 0) ≠ (1 / 16) ^ 16)
    (by decide +kernel)
  obtain ⟨-, rfl⟩ := of_returns_product hg
  refine ⟨_, g, fun _ => 0, by decide +kernel, hg, hcells, hrange, hfold, hvalue, fun h => hvalue ?_⟩
  exact (h.value (by decide) (fun _ => 0) hrange).trans hfold

end Factor

end Influence
