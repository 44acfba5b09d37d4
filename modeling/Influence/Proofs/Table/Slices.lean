import Influence.Proofs.Table.Laws

/-! # Slices

A factor loses an axis in two ways: it is taken at one outcome of the variable, or its slices at all
outcomes are added up (`Drop`).  The marginal of a variable adds up the cells with each of its outcomes
in one pass over the table.

All three read the same cells.  `Factor.IsSlice` and `Factor.IsSumOfSlices` say so of the first two in
every cell arithmetic, and `Table.cellsWith` lists the cells that a marginal adds up.

For exact fractions the order in which distinct axes are dropped does not matter (`Drop.foldl_perm`), a
marginal is what summing out all other axes leaves, and the totals of the slices add up to the total.
`Factor.slices_agree` puts this together. -/

namespace Influence

/-! ### Cells with a given outcome -/

namespace Axes

/-- The outcome of a variable at the cell with a given index. -/
def outcomeAt (axes : Axes) (v : Variable) (i : ℕ) : ℕ :=
  (Layout.coords axes.arities i).getD (axes.findIdx (·.id == v.id)) 0

/-- One division gives the outcome of a variable at a cell. -/
theorem outcomeAt_eq {axes : Axes} (hnodup : axes.ids.Nodup) {v : Variable} (hv : axes.Includes v)
    (i : ℕ) : axes.outcomeAt v i = i / axes.strideOf v % v.arity := by
  induction axes with
  | nil =>
      obtain ⟨w, hw, -⟩ := hv
      cases hw
  | cons u axes ih =>
      obtain ⟨hfresh, hnodup⟩ := nodup_ids_cons.mp hnodup
      obtain ⟨w, hw, hid, harity⟩ := hv
      rw [outcomeAt, arities_cons, Layout.coords_cons, List.findIdx_cons, strideOf]
      by_cases hu : u.id = v.id
      · obtain rfl : w = u := by
          refine (List.mem_cons.mp hw).resolve_right fun h => hfresh ?_
          rw [hu, ← hid]
          exact mem_ids_of_mem h
        simp only [hid, beq_self_eq_true, cond_true, List.getD_cons_zero, if_true, harity]
        rfl
      · have hw : w ∈ axes := by
          refine (List.mem_cons.mp hw).resolve_left fun h => hu ?_
          rw [← h, hid]
        have hne : (u.id == v.id) = false := by simpa using hu
        simp only [hne, cond_false, List.getD_cons_succ, Bool.false_eq_true, if_false]
        exact ih hnodup ⟨w, hw, hid, harity⟩

end Axes

namespace Table

variable {α : Type} [Cell α] {t : Table α} {v : Variable}

/-- The cells with a given outcome of a variable, in the order of the table. -/
def cellsWith (t : Table α) (v : Variable) (k : ℕ) : List α :=
  ((List.range t.cells.size).filter fun i => t.axes.outcomeAt v i == k).map t.read

theorem zipIdx_toList (t : Table α) :
    t.cells.toList.zipIdx = (List.range t.cells.size).map fun i => (t.read i, i) := by
  refine List.ext_getElem (by simp) fun i hi _ => ?_
  have hlt : i < t.cells.toList.length := by simpa using hi
  rw [List.getElem_zipIdx, List.getElem_map, List.getElem_range, read_eq_getD_toList,
    List.getD_eq_getElem _ _ hlt]
  simp

open scoped Exact in
theorem cells_marginal (ht : t.axes.ids.Nodup) (hv : t.axes.Includes v) :
    (t.marginal v).cells.toList =
      (List.range v.arity).map fun k => Fold.sum.fold (t.cellsWith v k) := by
  refine List.map_congr_left fun k _ => ?_
  rw [zipIdx_toList, List.filter_map, List.map_map, cellsWith]
  refine congrArg Fold.sum.fold (congrArg₂ List.map rfl (List.filter_congr fun i _ => ?_))
  rw [Axes.outcomeAt_eq ht hv]
  rfl

end Table

/-! ### Dropping axes -/

/-- A way to drop an axis. -/
inductive Drop where
  /-- Takes the table at an outcome. -/
  | restrict (v : Variable) (outcome : ℕ)
  /-- Sums over all outcomes. -/
  | sumOut (v : Variable)
deriving DecidableEq, Repr

namespace Drop

/-- The variable whose axis is dropped. -/
def subject : Drop → Variable
  | restrict v _ => v
  | sumOut v => v

/-- An axis is dropped from a factor. -/
def run {α : Type} [Build] [Cell α] (f : Factor α) : Drop → RegistryM (Factor α)
  | restrict v k => f.restrict v k
  | sumOut v => f.sumOut v

/-- The table without the axis. -/
def apply {α : Type} [Build] [Cell α] (t : Table α) : Drop → Table α
  | restrict v k => t.restrict v k
  | sumOut v => t.sumOut v

/-- The variable is one of the axes, and an outcome at which the table is taken is one of the
variable's. -/
def IsOf (axes : Axes) : Drop → Prop
  | restrict v k => axes.Includes v ∧ k < v.arity
  | sumOut v => axes.Includes v

instance (axes : Axes) : (d : Drop) → Decidable (d.IsOf axes)
  | restrict v k => inferInstanceAs (Decidable (axes.Includes v ∧ k < v.arity))
  | sumOut v => inferInstanceAs (Decidable (axes.Includes v))

/-- What dropping an axis does to the values of a table. -/
def value (F : Assignment → ℚ) (x : Assignment) : Drop → ℚ
  | restrict v k => F (x.set v k)
  | sumOut v => ∑ k ∈ Finset.range v.arity, F (x.set v k)

section

variable {α : Type} [Cell α] {sizes : VariableId → ℕ} {axes : Axes} {t : Table α} {d e : Drop}

theorem axes_apply {B : Build} (t : Table α) (d : Drop) : (d.apply t).axes = t.axes.without d.subject := by
  cases d <;> rfl

theorem IsOf.includes (h : d.IsOf axes) : axes.Includes d.subject := by
  cases d with
  | restrict v k => exact h.1
  | sumOut v => exact h

theorem IsOf.without (h : d.IsOf axes) {v : Variable} (hne : d.subject.id ≠ v.id) :
    d.IsOf (axes.without v) := by
  have hincludes : (axes.without v).Includes d.subject := by
    obtain ⟨w, hw, hid, harity⟩ := h.includes
    refine ⟨w, (List.mem_eraseP_of_neg ?_).mpr hw, hid, harity⟩
    simpa [hid] using hne
  cases d with
  | restrict w k => exact ⟨hincludes, h.2⟩
  | sumOut w => exact hincludes

end

/-! ### Exact fractions -/

section

open scoped Exact

variable {sizes : VariableId → ℕ} {axes : Axes} {t : Table ℚ} {d e : Drop} {F G : Assignment → ℚ}
  {x : Assignment}

theorem fits_apply {α : Type} [Cell α] {t : Table α} (ht : t.Fits sizes) (d : Drop) :
    (d.apply t).Fits sizes := by
  cases d with
  | restrict v k => exact ht.restrict v k
  | sumOut v => exact ht.sumOut v

theorem valueAt_apply (ht : t.Fits sizes) (hd : d.IsOf t.axes) (hx : x.Valid sizes) :
    (d.apply t).valueAt x = d.value t.valueAt x := by
  have hmentions : t.mentions d.subject := hd.includes.mentions
  cases d with
  | restrict v k => exact ht.valueAt_restrict hmentions hx k
  | sumOut v => exact ht.valueAt_sumOut hmentions hx

theorem value_congr (hsized : axes.Sized sizes) (hd : d.IsOf axes) (hx : x.Valid sizes)
    (h : ∀ y : Assignment, y.Valid sizes → F y = G y) : d.value F x = d.value G x := by
  have hsize := hd.includes.sized hsized
  cases d with
  | restrict v k => exact h _ (hx.set (hsize ▸ hd.2))
  | sumOut v =>
      exact Finset.sum_congr rfl fun k hk => h _ (hx.set (hsize ▸ Finset.mem_range.mp hk))

/-- The values may be taken at outcomes and summed over distinct variables in either order. -/
theorem value_comm (h : d.subject.id ≠ e.subject.id) (F : Assignment → ℚ) (x : Assignment) :
    e.value (fun y => d.value F y) x = d.value (fun y => e.value F y) x := by
  have hset : ∀ j k, F ((x.set e.subject k).set d.subject j) = F ((x.set d.subject j).set e.subject k) :=
    fun j k => congrArg F (x.set_comm h.symm k j)
  cases d with
  | restrict v j =>
      cases e with
      | restrict w k => exact hset j k
      | sumOut w => exact Finset.sum_congr rfl fun k _ => hset j k
  | sumOut v =>
      cases e with
      | restrict w k =>
          show ∑ j ∈ Finset.range v.arity, F ((x.set w k).set v j) = _
          exact Finset.sum_congr rfl fun j _ => hset j k
      | sumOut w =>
          refine Finset.sum_comm.trans ?_
          exact Finset.sum_congr rfl fun j _ => Finset.sum_congr rfl fun k _ => hset j k

/-- Two distinct axes are dropped in either order. -/
theorem apply_comm (ht : t.Fits sizes) (hzero : Assignment.Valid sizes fun _ => 0)
    (hd : d.IsOf t.axes) (he : e.IsOf t.axes) (h : d.subject.id ≠ e.subject.id) :
    e.apply (d.apply t) = d.apply (e.apply t) := by
  have hd' : d.IsOf (e.apply t).axes := by
    rw [axes_apply]
    exact hd.without h
  have he' : e.IsOf (d.apply t).axes := by
    rw [axes_apply]
    exact he.without h.symm
  have hfits : (e.apply (d.apply t)).Fits sizes := fits_apply (fits_apply ht d) e
  apply Table.Fits.eq_of_valueAt (fits_apply (fits_apply ht e) d) hfits ?_ hzero
  · intro y hy
    calc (e.apply (d.apply t)).valueAt y
        = e.value (d.apply t).valueAt y := valueAt_apply (fits_apply ht d) he' hy
      _ = e.value (fun z => d.value t.valueAt z) y :=
          value_congr ht.sized he hy fun z hz => valueAt_apply ht hd hz
      _ = d.value (fun z => e.value t.valueAt z) y := value_comm h _ y
      _ = d.value (e.apply t).valueAt y :=
          value_congr ht.sized hd hy fun z hz => (valueAt_apply ht he hz).symm
      _ = (d.apply (e.apply t)).valueAt y := (valueAt_apply (fits_apply ht e) hd' hy).symm
  · simp only [axes_apply]
    apply List.eraseP_comm
    intro w _
    rw [← not_and_or, beq_iff_eq, beq_iff_eq]
    exact fun hboth => h (hboth.1.symm.trans hboth.2)

/-- **Dropping distinct axes in any order.** -/
theorem foldl_perm (ht : t.Fits sizes) (hzero : Assignment.Valid sizes fun _ => 0)
    {ds ds' : List Drop} (hperm : ds.Perm ds') (hds : ∀ d ∈ ds, d.IsOf t.axes)
    (hdistinct : (ds.map (·.subject.id)).Nodup) :
    ds.foldl Drop.apply t = ds'.foldl Drop.apply t := by
  induction hperm generalizing t with
  | nil => rfl
  | cons d _ ih =>
      obtain ⟨-, hds⟩ := List.forall_mem_cons.mp hds
      obtain ⟨hfresh, hdistinct⟩ := List.nodup_cons.mp hdistinct
      apply ih (fits_apply ht d) ?_ hdistinct
      intro e he
      rw [axes_apply]
      apply (hds e he).without
      exact fun hid => hfresh (List.mem_map.mpr ⟨e, he, hid⟩)
  | swap d e ds =>
      obtain ⟨he, hds⟩ := List.forall_mem_cons.mp hds
      have hne : e.subject.id ≠ d.subject.id := fun hid =>
        (List.nodup_cons.mp hdistinct).1 (by simp [hid])
      exact congrArg (ds.foldl Drop.apply) (apply_comm ht hzero he (hds d (by simp)) hne)
  | trans hfirst _ ih₁ ih₂ =>
      refine (ih₁ ht hds hdistinct).trans (ih₂ ht (fun d hd => ?_) ?_)
      · exact hds d (hfirst.mem_iff.mpr hd)
      · exact (hfirst.map _).nodup_iff.mp hdistinct

end

/-! ### Runs -/

section

variable {α : Type} [Cell α] {sizes : VariableId → ℕ} {f : Factor α} {d : Drop}

theorem returns_run (hf : f.table.Small sizes) (h : d.IsOf f.axes) (r : Registry) :
    Returns (d.run f) r ⟨r.nextFactor, @Drop.apply α Exact.build _ f.table d⟩ (r.after 1) := by
  have hsize : d.subject.arity = sizes d.subject.id := h.includes.sized hf.sized
  cases d with
  | restrict v k =>
      replace hsize : v.arity = sizes v.id := hsize
      rw [run, Factor.restrict_eq Build.release Exact.build hf hsize]
      exact Factor.returns_restrict.mpr ⟨h.1.mentions, h.2, rfl, rfl⟩
  | sumOut v =>
      replace hsize : v.arity = sizes v.id := hsize
      rw [run, Factor.sumOut_eq Build.release Exact.build hf hsize]
      exact Factor.returns_sumOut.mpr ⟨Axes.Includes.mentions h, rfl, rfl⟩

theorem small_apply (hf : f.table.Small sizes) (d : Drop) :
    (@Drop.apply α Exact.build _ f.table d).Small sizes := by
  refine .of_fits (fits_apply hf.fits d) ?_
  rw [axes_apply]
  exact hf.count_without_lt d.subject

/-- Distinct axes are dropped one after the other. -/
theorem exists_returns_foldlM {ds : List Drop} (hf : f.table.Small sizes)
    (hds : ∀ d ∈ ds, d.IsOf f.axes) (hdistinct : (ds.map (·.subject.id)).Nodup) (r : Registry) :
    ∃ g, Returns (ds.foldlM Drop.run f) r g (r.after ds.length) ∧
      g.table = ds.foldl (@Drop.apply α Exact.build _) f.table := by
  induction ds generalizing f r with
  | nil => exact ⟨f, returns_pure.mpr ⟨rfl, rfl⟩, rfl⟩
  | cons d ds ih =>
      obtain ⟨hd, hds⟩ := List.forall_mem_cons.mp hds
      obtain ⟨hfresh, hdistinct⟩ := List.nodup_cons.mp hdistinct
      have hrest : ∀ e ∈ ds, e.IsOf (@Drop.apply α Exact.build _ f.table d).axes := by
        intro e he
        rw [axes_apply]
        apply (hds e he).without
        exact fun hid => hfresh (List.mem_map.mpr ⟨e, he, hid⟩)
      obtain ⟨g, hreturns, htable⟩ :=
        ih (f := ⟨r.nextFactor, _⟩) (small_apply hf d) hrest hdistinct (r.after 1)
      rw [Registry.after_after, Nat.add_comm] at hreturns
      exact ⟨g, returns_foldlM_cons.mpr ⟨_, _, returns_run hf hd r, hreturns⟩, htable⟩

end

end Drop

namespace Factor

/-! ### Slices, sums and marginals of factors -/

section

variable {α : Type} {f : Factor α} {v : Variable} {k : ℕ}

section

variable [Build] [Cell α]

/-- Over the other axes the factor has the values of another one at an outcome of a variable. -/
structure IsSlice (f : Factor α) (v : Variable) (k : ℕ) (g : Factor α) : Prop where
  wellFormed : g.table.WellFormed
  axes : g.axes = f.axes.filter fun w => !(w.id == v.id)
  value : ∀ x : Assignment, x.InRange g.axes → g.table.valueAt x = f.table.valueAt (x.set v k)

/-- Over the other axes the factor adds up the slices at all outcomes of a variable, from the first to
the last. -/
structure IsSumOfSlices (f : Factor α) (v : Variable) (slice : ℕ → Factor α) (s : Factor α) :
    Prop where
  wellFormed : s.table.WellFormed
  axes : s.axes = f.axes.filter fun w => !(w.id == v.id)
  value : ∀ x : Assignment, x.InRange s.axes →
    s.table.valueAt x = Fold.sum.fold ((List.range v.arity).map fun k => (slice k).table.valueAt x)

end

variable [Cell α]

/-- Over the variable alone the factor adds up the cells with each of its outcomes, from the first cell
to the last. -/
structure IsMarginal (f : Factor α) (v : Variable) (m : Factor α) : Prop where
  axes : m.axes = [v]
  cells : m.cells.toList = (List.range v.arity).map fun k => Fold.sum.fold (f.table.cellsWith v k)

variable {sizes : VariableId → ℕ}

theorem isSlice_restrict [Cell.LeftUnital α] (hf : f.table.Small sizes) (hv : f.axes.Includes v)
    (k id : ℕ) : IsSlice f v k ⟨id, @Table.restrict α Exact.build _ f.table v k⟩ where
  wellFormed := (Drop.small_apply hf (.restrict v k)).wellFormed
  axes := Axes.without_eq_filter hf.nodup v
  value _ hx := (Table.valueAt_restrict hf.fits.wellFormed hv.mentions hx k).trans
    (Fold.fold_product_singleton _)

theorem isSumOfSlices_sumOut [Cell.LeftUnital α] (hf : f.table.Small sizes) (hv : f.axes.Includes v)
    {slice : ℕ → Factor α} (hslice : ∀ k < v.arity, IsSlice f v k (slice k)) (id : ℕ) :
    IsSumOfSlices f v slice ⟨id, @Table.sumOut α Exact.build _ f.table v⟩ where
  wellFormed := (Drop.small_apply hf (.sumOut v)).wellFormed
  axes := Axes.without_eq_filter hf.nodup v
  value x hx := by
    have haxes : f.table.axes.without v = f.axes.filter fun w => !(w.id == v.id) :=
      Axes.without_eq_filter hf.nodup v
    refine (Table.valueAt_sumOut hf.fits.wellFormed hv.mentions hx).trans (congrArg _ ?_)
    refine List.map_congr_left fun k hk => ?_
    have hk := hslice k (List.mem_range.mp hk)
    refine (hk.value x ?_).symm
    rw [hk.axes, ← haxes]
    exact hx

theorem returns_marginal_of_small (hf : f.table.Small sizes) (hv : f.axes.Includes v) (r : Registry) :
    Returns (f.marginal v) r ⟨r.nextFactor, @Table.marginal α Exact.build _ f.table v⟩ (r.after 1) := by
  have hroom : v.arity < Build.room := by
    obtain ⟨w, hw, -, harity⟩ := hv
    rw [← harity]
    exact (Axes.arity_le_count hf.arity_pos hw).trans_lt hf.count_lt
  rw [marginal_eq Build.release Exact.build hf hroom]
  exact returns_marginal.mpr ⟨hv.mentions, rfl, rfl⟩

end

variable {f : Factor ℚ} {v : Variable} {sizes : VariableId → ℕ}

/-- Summing out all other axes leaves the marginal. -/
theorem exists_returns_sumOut_others (hf : f.table.Small sizes)
    (hzero : Assignment.Valid sizes fun _ => 0) (hv : f.axes.Includes v) {us : Axes}
    (hus : us.Perm (f.axes.without v)) (r : Registry) :
    ∃ s, Returns (us.foldlM Factor.sumOut f) r s (r.after us.length) ∧ s.axes.ids = [v.id] ∧
      s.cells = (@Table.marginal ℚ Exact.build _ f.table v).cells := by
  have hfits := hf.fits
  have hsize := hv.sized hfits.sized
  have hids : ∀ id, id ∈ us.ids ↔ id ∈ f.axes.ids ∧ id ≠ v.id := fun id =>
    (hus.map _).mem_iff.trans (Axes.mem_ids_without hf.nodup)
  have hnodup : us.ids.Nodup := (hus.map _).nodup_iff.mpr (Axes.nodup_without hf.nodup v)
  have hsized : us.Sized sizes := (hfits.sized.without v).subset hus.subset
  have hdrops : ∀ d ∈ us.map Drop.sumOut, d.IsOf f.axes := by
    intro d hd
    obtain ⟨u, hu, rfl⟩ := List.mem_map.mp hd
    exact Axes.includes_of_mem (Axes.mem_of_mem_without (hus.subset hu))
  have hsubjects : ((us.map Drop.sumOut).map (·.subject.id)).Nodup := by
    rw [List.map_map]
    exact hnodup
  obtain ⟨s, hreturns, htable⟩ := Drop.exists_returns_foldlM hf hdrops hsubjects r
  rw [List.foldlM_map, List.length_map] at hreturns
  replace htable : s.table = us.foldl (@Table.sumOut ℚ Exact.build _) f.table := by
    rw [htable, List.foldl_map]
    rfl
  obtain ⟨hsfits, hsids, hvalue⟩ := hfits.sumOutAll hnodup hsized fun id hid => ((hids id).mp hid).1
  rw [← htable] at hsfits hsids hvalue
  have haxes : s.axes.ids = [v.id] := by
    refine List.perm_singleton.mp ((List.perm_ext_iff_of_nodup hsfits.nodup (by simp)).mpr ?_)
    intro id
    rw [hsids, hids, List.mem_singleton]
    constructor
    · exact fun h => by_contra fun hne => h.2 ⟨h.1, hne⟩
    · rintro rfl
      exact ⟨Axes.mentions_iff.mp hv.mentions, fun h => h.2 rfl⟩
  refine ⟨s, hreturns, haxes, Array.toList_inj.mp ?_⟩
  rw [hfits.cells_marginal hv.mentions hsize fun _ => 0]
  obtain ⟨w, hw, hwid⟩ := List.map_eq_singleton_iff.mp haxes
  have harity : w.arity = v.arity := by
    rw [hsize, ← hwid]
    exact hsfits.sized w (by rw [show s.table.axes = [w] from hw]; simp)
  have houtcomes : s.table.axes.outcomes (fun _ => 0) =
      (List.range v.arity).map fun k => Assignment.set (fun _ => 0) v k := by
    rw [show s.table.axes = [w] from hw, Axes.outcomes, harity]
    simp [Axes.outcomes, Assignment.set, hwid, List.map_eq_flatMap]
  rw [show s.cells.toList = s.table.cells.toList from rfl,
    hsfits.wellFormed.cells_eq_outcomes fun _ => 0, houtcomes, List.map_map]
  refine List.map_congr_left fun k hk => ?_
  have hk : (Assignment.set (fun _ => 0) v k).Valid sizes :=
    hzero.set (hsize ▸ List.mem_range.mp hk)
  rw [Function.comp_apply, hvalue _ hk]
  exact Axes.sumOver_perm hus hnodup _ _

open scoped Exact in
theorem sum_total_restrict {t : Table ℚ} (ht : t.WellFormed) (hv : t.axes.Includes v) :
    ∑ k ∈ Finset.range v.arity, (t.restrict v k).total = t.total := by
  obtain ⟨sizes, hfits, hzero⟩ := ht.exists_fits
  have hsize := hv.sized hfits.sized
  obtain ⟨w, hw, hid, hperm⟩ := Axes.perm_cons_without hv.mentions
  have harity : w.arity = v.arity := by rw [hfits.sized w hw, hid, hsize]
  have hset : ∀ (y : Assignment) (k : ℕ), y.set w k = y.set v k := fun y k => by
    rw [Assignment.set, hid, Assignment.set]
  have hfresh : w.id ∉ (t.axes.without v).ids := fun h =>
    ((Axes.mem_ids_without ht.nodup).mp h).2 hid
  rw [ht.total_eq_sumOver fun _ => 0, Axes.sumOver_perm hperm ht.nodup, Axes.sumOver_cons, harity]
  refine Finset.sum_congr rfl fun k hk => ?_
  rw [(ht.restrict v k).total_eq_sumOver fun _ => 0, Axes.sumOver_set hfresh]
  refine Axes.sumOver_congr (hfits.sized.without v) hzero fun y hy _ => ?_
  rw [hset, hfits.valueAt_restrict hv.mentions hy]

/-- **Slices, sums along an axis and marginals agree.**  In every cell arithmetic with one as a left
unit, taking a factor at an outcome of one of its variables drops the axis and keeps the values there,
summing the variable out adds up these slices from the first outcome to the last, and its marginal adds
up the cells with each outcome in the order of the table.  For exact fractions a marginal is what
summing out all other axes in any order leaves, the totals of the slices add up to the total, and
distinct axes may be dropped in any order, each at an outcome or by a sum. -/
theorem slices_agree :
    (∀ {α : Type} [Cell α] [Cell.LeftUnital α] (f : Factor α) (v : Variable), f.table.WellFormed →
      f.axes.Includes v → ∀ r, ∃ (slice : ℕ → Factor α) (s m : Factor α),
        (∀ k < v.arity, Returns (f.restrict v k) r (slice k) (r.after 1) ∧ IsSlice f v k (slice k)) ∧
        (Returns (f.sumOut v) r s (r.after 1) ∧ IsSumOfSlices f v slice s) ∧
        Returns (f.marginal v) r m (r.after 1) ∧ IsMarginal f v m) ∧
    (∀ (f : Factor ℚ) (v : Variable), f.table.WellFormed → f.axes.Includes v → ∀ r,
      (∀ us : Axes, us.Perm (f.axes.without v) → ∀ r', ∃ m s,
        Returns (f.marginal v) r m (r.after 1) ∧
        Returns (us.foldlM Factor.sumOut f) r' s (r'.after us.length) ∧
        s.axes.ids = m.axes.ids ∧ s.cells = m.cells) ∧
      ∃ slice : ℕ → Factor ℚ,
        (∀ k < v.arity, Returns (f.restrict v k) r (slice k) (r.after 1)) ∧
        ∑ k ∈ Finset.range v.arity, (slice k).table.total = f.table.total) ∧
    ∀ (f : Factor ℚ) (ds ds' : List Drop), f.table.WellFormed → (∀ d ∈ ds, d.IsOf f.axes) →
      (ds.map (·.subject.id)).Nodup → ds.Perm ds' → ∀ r r', ∃ g g',
        Returns (ds.foldlM Drop.run f) r g (r.after ds.length) ∧
        Returns (ds'.foldlM Drop.run f) r' g' (r'.after ds'.length) ∧ g.table = g'.table := by
  refine ⟨fun f v hf hv r => ?_, fun f v hf hv r => ⟨fun us hus r' => ?_, ?_⟩, ?_⟩
  · obtain ⟨sizes, hsmall, -⟩ := hf.exists_small
    have hslice := fun k => isSlice_restrict hsmall hv k r.nextFactor
    have hmarginal := returns_marginal_of_small hsmall hv r
    refine ⟨_, _, _, fun k hk => ⟨Drop.returns_run (d := .restrict v k) hsmall ⟨hv, hk⟩ r, hslice k⟩,
      ⟨Drop.returns_run (d := .sumOut v) hsmall hv r,
        isSumOfSlices_sumOut hsmall hv (fun k _ => hslice k) r.nextFactor⟩, hmarginal, rfl, ?_⟩
    exact Table.cells_marginal hf.nodup hv
  · obtain ⟨sizes, hsmall, hzero⟩ := hf.exists_small
    obtain ⟨s, hs, hids, hcells⟩ := exists_returns_sumOut_others hsmall hzero hv hus r'
    exact ⟨_, s, returns_marginal_of_small hsmall hv r, hs, hids, hcells⟩
  · obtain ⟨sizes, hsmall, -⟩ := hf.exists_small
    exact ⟨_, fun k hk => Drop.returns_run (d := .restrict v k) hsmall ⟨hv, hk⟩ r,
      sum_total_restrict hf.exact hv⟩
  · intro f ds ds' hf hds hdistinct hperm r r'
    obtain ⟨sizes, hsmall, hzero⟩ := hf.exists_small
    have hds' : ∀ d ∈ ds', d.IsOf f.axes := fun d hd => hds d (hperm.mem_iff.mpr hd)
    obtain ⟨g, hg, htable⟩ := Drop.exists_returns_foldlM hsmall hds hdistinct r
    obtain ⟨g', hg', htable'⟩ :=
      Drop.exists_returns_foldlM hsmall hds' ((hperm.map _).nodup_iff.mp hdistinct) r'
    refine ⟨g, g', hg, hg', ?_⟩
    rw [htable, htable', Drop.foldl_perm hsmall.fits hzero hperm hds hdistinct]

/-- A factor over three axes, of which the middle one is taken at an outcome or summed out or kept, and
the other two are dropped in both orders. -/
theorem slices_agree_of_three :
    let u : Variable := ⟨2, 2, .chance⟩
    let v : Variable := ⟨0, 3, .decision⟩
    let w : Variable := ⟨1, 2, .chance⟩
    let f : Factor ℚ := ⟨0, ⟨[u, v, w], #[1, 2, 3, 4, 5, 6, 7, 8, 9, 10, 11, 1 / 2]⟩⟩
    let r : Registry := ⟨[v, w, u], 3, 1⟩
    (∃ slice s m, (∀ k < v.arity, Returns (f.restrict v k) r (slice k) (r.after 1) ∧
        IsSlice f v k (slice k)) ∧ (Returns (f.sumOut v) r s (r.after 1) ∧ IsSumOfSlices f v slice s) ∧
      Returns (f.marginal v) r m (r.after 1) ∧ IsMarginal f v m ∧ m.cells = #[18, 26, 45 / 2]) ∧
    (∃ m s, Returns (f.marginal v) r m (r.after 1) ∧
      Returns ([w, u].foldlM Factor.sumOut f) r s (r.after 2) ∧ s.axes.ids = m.axes.ids ∧
      s.cells = m.cells) ∧
    (∃ slice : ℕ → Factor ℚ, (∀ k < v.arity, Returns (f.restrict v k) r (slice k) (r.after 1)) ∧
      ∑ k ∈ Finset.range v.arity, (slice k).table.total = f.table.total) ∧
    ∃ g g', Returns ([Drop.restrict u 1, .sumOut w].foldlM Drop.run f) r g (r.after 2) ∧
      Returns ([Drop.sumOut w, .restrict u 1].foldlM Drop.run f) r g' (r.after 2) ∧
      g.table = g'.table := by
  intro u v w f r
  obtain ⟨hslices, hexact, hdrops⟩ := slices_agree
  have hf : f.table.WellFormed := by decide
  have hv : f.axes.Includes v := by decide
  obtain ⟨slice, s, m, hslice, hs, hm, hmarginal⟩ := hslices f v hf hv r
  obtain ⟨hmarginals, htotals⟩ := hexact f v hf hv r
  refine ⟨⟨slice, s, m, hslice, hs, hm, hmarginal, ?_⟩, hmarginals [w, u] (List.Perm.swap _ _ _) r,
    htotals, hdrops f [.restrict u 1, .sumOut w] [.sumOut w, .restrict u 1] hf (by decide) (by decide)
      (List.Perm.swap _ _ _) r r⟩
  exact Array.toList_inj.mp (hmarginal.cells.trans (by decide +kernel))

end Factor

end Influence
