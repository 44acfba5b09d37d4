import Influence.Proofs.Table.Rows

/-! # Marginals

`Table.outcomes` lists the assignments to some axes in row-major order, so that the cells of a table
are its values at these assignments (`cells_eq_outcomes`).  The index of a cell gives the outcome of
each axis by one division (`eq_index_div`).

A marginal is therefore a sum over the other axes (`Fits.cells_marginal`), and `normalize` divides by
the sum over all axes unless that is zero. -/

namespace Influence

open scoped Exact

variable {sizes : VariableId → ℕ}

namespace Axes

variable {axes : Axes} {x y : Assignment} {v : Variable}

/-- The assignments of outcomes to some axes, the last axis first.  Other variables are as in
`x`. -/
def outcomes : Axes → Assignment → List Assignment
  | [], x => [x]
  | v :: axes, x => (List.range v.arity).flatMap fun k => outcomes axes (x.set v k)

theorem sum_outcomes (axes : Axes) (F : Assignment → ℚ) (x : Assignment) :
    ((outcomes axes x).map F).sum = sumOver axes F x := by
  induction axes generalizing x with
  | nil => simp [outcomes]
  | cons v axes ih =>
      rw [outcomes, sumOver_cons, List.map_flatMap, List.flatMap, List.sum_flatten, List.map_map]
      have hinner : (List.sum ∘ fun k => (outcomes axes (x.set v k)).map F) =
          fun k => sumOver axes F (x.set v k) := funext fun k => ih (x.set v k)
      rw [hinner]
      rfl

/-- An outcome differs from the given assignment on the axes alone. -/
theorem eq_of_mem_outcomes (hy : y ∈ outcomes axes x) {id : VariableId} (hid : id ∉ axes.ids) :
    y id = x id := by
  induction axes generalizing x with
  | nil => rw [List.mem_singleton.mp hy]
  | cons v axes ih =>
      simp only [ids_cons, List.mem_cons, not_or] at hid
      obtain ⟨k, -, hy⟩ := List.mem_flatMap.mp hy
      rw [ih hy hid.2, Assignment.set_of_ne x hid.1]

theorem inRange_of_mem_outcomes (hnodup : axes.ids.Nodup) (hy : y ∈ outcomes axes x) :
    y.InRange axes := by
  induction axes generalizing x with
  | nil => exact y.inRange_nil
  | cons v axes ih =>
      obtain ⟨hfresh, hnodup⟩ := nodup_ids_cons.mp hnodup
      obtain ⟨k, hk, hy⟩ := List.mem_flatMap.mp hy
      refine Assignment.inRange_cons.mpr ⟨?_, ih hnodup hy⟩
      rw [eq_of_mem_outcomes hy hfresh, Assignment.set_same]
      exact List.mem_range.mp hk

theorem valid_of_mem_outcomes (hx : x.Valid sizes) (hsized : axes.Sized sizes)
    (hy : y ∈ outcomes axes x) : y.Valid sizes := by
  induction axes generalizing x with
  | nil => rwa [List.mem_singleton.mp hy]
  | cons v axes ih =>
      obtain ⟨hv, hsized⟩ := sized_cons.mp hsized
      obtain ⟨k, hk, hy⟩ := List.mem_flatMap.mp hy
      refine ih (hx.set ?_) hsized hy
      rw [← hv]
      exact List.mem_range.mp hk

theorem range_mul (a b : ℕ) :
    List.range (a * b) = (List.range a).flatMap fun k => (List.range b).map (k * b + ·) := by
  induction a with
  | zero => simp
  | succ a ih => rw [Nat.succ_mul, List.range_add, ih, List.range_succ, List.flatMap_append,
      List.flatMap_singleton]

/-- The outcomes come in the order of the cells. -/
theorem offset_outcomes (hnodup : axes.ids.Nodup) (x : Assignment) :
    (outcomes axes x).map (fun y => Layout.offset axes.distances (y.on axes)) =
      List.range axes.count := by
  induction axes generalizing x with
  | nil => rfl
  | cons v axes ih =>
      obtain ⟨hfresh, hnodup⟩ := nodup_ids_cons.mp hnodup
      rw [outcomes, count_cons, range_mul, List.map_flatMap]
      refine List.flatMap_congr fun k _ => ?_
      rw [← ih hnodup (x.set v k), List.map_map]
      refine List.map_congr_left fun y hy => ?_
      have hk : y v.id = k := by rw [eq_of_mem_outcomes hy hfresh, Assignment.set_same]
      rw [Function.comp_apply, ← hk]
      rfl

/-- A list with the value of each outcome at its place has these values in row-major order. -/
theorem eq_map_outcomes {β : Type} {l : List β} {F : Assignment → β} (hnodup : axes.ids.Nodup)
    (hsized : axes.Sized sizes) (hx : x.Valid sizes) (hlength : l.length = axes.count)
    (h : ∀ y : Assignment, y.Valid sizes →
      l[Layout.offset axes.distances (y.on axes)]? = some (F y)) :
    l = (outcomes axes x).map F := by
  have hplaces : (outcomes axes x).map (some ∘ F) = (List.range l.length).map (l[·]?) := by
    rw [hlength, ← offset_outcomes hnodup x, List.map_map]
    exact List.map_congr_left fun y hy => (h y (valid_of_mem_outcomes hx hsized hy)).symm
  refine List.map_injective_iff.mpr (Option.some_injective β) ?_
  rw [List.map_map, hplaces]
  exact List.ext_getElem (by simp) fun i hi _ => by simp

/-- The index of a cell gives the outcome of each axis. -/
theorem eq_index_div (hsized : axes.Sized sizes) (hv : v.id ∈ axes.ids)
    (harity : v.arity = sizes v.id) {i : ℕ} (h : y.on axes = Layout.coords axes.arities i) :
    y v.id = i / axes.strideOf v % v.arity := by
  induction axes with
  | nil => cases hv
  | cons w axes ih =>
      obtain ⟨hw, hsized⟩ := sized_cons.mp hsized
      rw [arities_cons, Layout.coords_cons] at h
      obtain ⟨hhead, htail⟩ := List.cons.inj h
      rw [strideOf]
      by_cases hid : w.id = v.id
      · rw [if_pos (by simpa using hid), harity, ← hid, ← hw]
        exact hhead
      · rw [if_neg (by simpa using hid)]
        rw [ids_cons, List.mem_cons] at hv
        exact ih hsized (hv.resolve_left fun h => hid h.symm) htail

end Axes

namespace Table

variable {v : Variable} {x : Assignment}

section

variable {α : Type} [Cell α] {t u : Table α}

/-- The cells of a table are its values in row-major order. -/
theorem WellFormed.cells_eq_outcomes (ht : t.WellFormed) (x : Assignment) :
    t.cells.toList = (t.axes.outcomes x).map t.valueAt := by
  have hread : t.valueAt = t.read ∘ fun y => Layout.offset t.axes.distances (y.on t.axes) := rfl
  rw [hread, ← List.map_map, Axes.offset_outcomes ht.nodup, ← ht.size_cells]
  refine List.ext_getElem (by simp) fun i hi _ => ?_
  rw [List.getElem_map, List.getElem_range, read_eq_getD_toList, List.getD_eq_getElem]

/-- Tables over the same axes are told apart by their values. -/
theorem Fits.cells_eq (ht : t.Fits sizes) (hu : u.Fits sizes)
    (haxes : u.axes = t.axes) (hx : x.Valid sizes)
    (h : ∀ y : Assignment, y.Valid sizes → u.valueAt y = t.valueAt y) :
    u.cells.toList = t.cells.toList := by
  rw [ht.wellFormed.cells_eq_outcomes x, hu.wellFormed.cells_eq_outcomes x, haxes]
  exact List.map_congr_left fun y hy => h y (Axes.valid_of_mem_outcomes hx ht.sized hy)

theorem Fits.eq_of_valueAt (ht : t.Fits sizes) (hu : u.Fits sizes) (haxes : u.axes = t.axes)
    (hx : x.Valid sizes) (h : ∀ y : Assignment, y.Valid sizes → u.valueAt y = t.valueAt y) :
    u = t := by
  have hcells : u.cells = t.cells := Array.toList_inj.mp (ht.cells_eq hu haxes hx h)
  obtain ⟨axes, cells⟩ := u
  obtain rfl : axes = t.axes := haxes
  exact congrArg (Table.mk t.axes) hcells

/-- Tables over the same variables in the same order are told apart by their values. -/
theorem Fits.cells_eq_of_ids (ht : t.Fits sizes) (hu : u.Fits sizes)
    (hids : u.axes.ids = t.axes.ids)
    (hx : x.Valid sizes) (h : ∀ y : Assignment, y.Valid sizes → u.valueAt y = t.valueAt y) :
    u.cells.toList = t.cells.toList := by
  refine ht.cells_eq (u := ⟨t.axes, u.cells⟩) (hu.of_ids ht.sized hids.symm) rfl hx fun y hy => ?_
  rw [valueAt_of_ids hu.sized ht.sized hids.symm, h y hy]

theorem zipIdx_cells (ht : t.WellFormed) (x : Assignment) :
    t.cells.toList.zipIdx = (t.axes.outcomes x).map fun y =>
      (t.valueAt y, Layout.offset t.axes.distances (y.on t.axes)) := by
  have hrange : List.range' 0 t.cells.toList.length = (t.axes.outcomes x).map
      fun y => Layout.offset t.axes.distances (y.on t.axes) := by
    rw [Axes.offset_outcomes ht.nodup, List.range_eq_range', ← ht.size_cells, Array.length_toList]
  rw [List.zipIdx_eq_zip_range', hrange, ht.cells_eq_outcomes x, List.zip_map']

end

variable {t : Table ℚ}

/-- A cell of a marginal is a sum over the other axes. -/
theorem Fits.cells_marginal (ht : t.Fits sizes) (hv : t.mentions v) (hsize : v.arity = sizes v.id)
    (x : Assignment) : (t.marginal v).cells.toList = (List.range v.arity).map fun k =>
      Axes.sumOver (t.axes.without v) t.valueAt (x.set v k) := by
  have hnodup := ht.wellFormed.nodup
  obtain ⟨w, hw, hid, hperm⟩ := Axes.perm_cons_without hv
  have harity : w.arity = v.arity := by rw [ht.sized w hw, hid, hsize]
  refine List.map_congr_left fun k hk => ?_
  have hindicator : Ignores (fun y => if y v.id = k then (1 : ℚ) else 0) (t.axes.without v) := by
    intro y z h
    have hfresh : v.id ∉ (t.axes.without v).ids := fun h =>
      ((Axes.mem_ids_without hnodup).mp h).2 rfl
    simp only [h v.id hfresh]
  have hfilter : ((t.cells.toList.zipIdx).filter fun p =>
      p.2 / t.axes.strideOf v % v.arity == k).map (·.1) =
      ((t.axes.outcomes x).filter fun y => y v.id == k).map t.valueAt := by
    rw [zipIdx_cells ht.wellFormed x, List.filter_map, List.map_map]
    refine congrArg _ (List.filter_congr fun y hy => ?_)
    have hcoords := Layout.coords_offset
      (Assignment.inRange_on.mpr (Axes.inRange_of_mem_outcomes hnodup hy))
    rw [Axes.eq_index_div ht.sized (mentions_iff.mp hv) hsize hcoords.symm]
    rfl
  calc Fold.sum.fold (((t.cells.toList.zipIdx).filter fun p =>
        p.2 / t.axes.strideOf v % v.arity == k).map (·.1))
      = (((t.axes.outcomes x).filter fun y => y v.id == k).map t.valueAt).sum := by
        rw [Fold.fold_sum_rat, hfilter]
    _ = ((t.axes.outcomes x).map fun y => (if y v.id = k then 1 else 0) * t.valueAt y).sum := by
        generalize t.axes.outcomes x = ys
        induction ys with
        | nil => rfl
        | cons y ys ih => by_cases h : y v.id = k <;> simp [h, ih]
    _ = Axes.sumOver (w :: t.axes.without v)
          (fun y => (if y v.id = k then 1 else 0) * t.valueAt y) x := by
        rw [Axes.sum_outcomes, Axes.sumOver_perm hperm hnodup]
    _ = ∑ j ∈ Finset.range v.arity, (if j = k then 1 else 0) *
          Axes.sumOver (t.axes.without v) t.valueAt (x.set w j) := by
        rw [Axes.sumOver_cons, harity]
        refine Finset.sum_congr rfl fun j _ => ?_
        rw [Axes.sumOver_mul_left hindicator, ← hid, Assignment.set_same]
    _ = Axes.sumOver (t.axes.without v) t.valueAt (x.set v k) := by
        simp only [ite_mul, one_mul, zero_mul]
        rw [Finset.sum_ite_eq' _ k, if_pos (Finset.mem_range.mpr (List.mem_range.mp hk))]
        simp [Assignment.set, hid]

theorem total_rat (cells : List ℚ) : Cell.total cells = cells.sum := by
  cases cells with
  | nil => rfl
  | cons a cells => rw [List.sum_eq_foldl, List.foldl_cons, zero_add, Cell.total_cons]

theorem normalize_rat (cells : List ℚ) :
    Cell.normalize cells = if cells.sum = 0 then cells else cells.map (· / cells.sum) := by
  rw [Cell.normalize, total_rat]
  simp only [beq_iff_eq]

theorem WellFormed.total_eq_sumOver (ht : t.WellFormed) (x : Assignment) :
    t.total = Axes.sumOver t.axes t.valueAt x := by
  rw [total, total_rat, ht.cells_eq_outcomes x, Axes.sum_outcomes]

end Table

end Influence
