import Influence.Proofs.Axes
import Influence.Proofs.Cell
import Influence.Proofs.Exact
import Influence.Proofs.Odometer
import Influence.Proofs.Table.View
import Influence.Table.Algebra

/-! # Tables as functions of assignments

`Table.valueAt` reads a table as a function of an assignment.  The operations of the algebra act on
these functions: `restrict` sets an outcome, `sumOut` folds over the outcomes of a variable, and
`product` and `sum` fold the values of their arguments, whatever the order of the axes is.

The statements about `Fold.fold` hold for every cell arithmetic.  For exact fractions a fold is a
product or a sum (`fold_product_rat`, `fold_sum_rat`), and the forms that end in `_rat` say so. -/

namespace Influence

namespace Fold

theorem fold_product_rat (xs : List ℚ) : Fold.product.fold xs = xs.prod :=
  List.prod_eq_foldl.symm

theorem fold_sum_rat (xs : List ℚ) : Fold.sum.fold xs = xs.sum :=
  List.sum_eq_foldl.symm

end Fold

namespace Table

variable {α : Type}

instance [Build] (t : Table α) : Decidable t.WellFormed :=
  decidable_of_iff (t.axes.ids.Nodup ∧ (∀ v ∈ t.axes, 0 < v.arity) ∧
      t.cells.size = t.axes.count ∧ Build.holds t.cells.size)
    ⟨fun ⟨hnodup, hpos, hsize, hholds⟩ => ⟨hnodup, hpos, hsize, hholds⟩,
      fun h => ⟨h.nodup, h.arity_pos, h.size_cells, h.holds_cells⟩⟩

/-! ### Reading cells -/

theorem read_eq_getD_toList [Zero α] (t : Table α) (i : ℕ) : t.read i = t.cells.toList.getD i 0 := by
  rw [read, Array.getD_eq_getD_getElem?, List.getD_eq_getElem?_getD, Array.getElem?_toList]

theorem valueAt_congr [Zero α] (t : Table α) {x y : Assignment}
    (h : ∀ id ∈ t.axes.ids, x id = y id) : t.valueAt x = t.valueAt y := by
  rw [valueAt, valueAt, Assignment.on_congr h]

theorem valueAt_set_of_notMem [Zero α] (t : Table α) (x : Assignment) {v : Variable}
    (h : v.id ∉ t.axes.ids) (k : ℕ) : t.valueAt (x.set v k) = t.valueAt x := by
  rw [valueAt, valueAt, Assignment.on_set_of_notMem x h]

theorem mentions_iff {t : Table α} {v : Variable} : t.mentions v ↔ v.id ∈ t.axes.ids :=
  Axes.mentions_iff

section

open scoped Exact

variable [Cell α] {op : Fold} {out : Axes} {sources : List (Projection α)}

/-- A filled table holds at every assignment the fold of the source cells read there. -/
theorem valueAt_combine (hlen : ∀ p ∈ sources, p.strides.length = out.length) {x : Assignment}
    (hx : x.InRange out) :
    (⟨out, combine op out sources⟩ : Table α).valueAt x = cellAt op sources (x.on out) := by
  have hrange := Assignment.inRange_on.mpr hx
  have hlt : Layout.offset out.distances (x.on out) < out.size := Layout.offset_lt hrange
  rw [valueAt, read_eq_getD_toList, toList_combine hlen hx.arity_pos,
    List.getD_eq_getElem _ _ (by simpa using hlt), List.getElem_map, List.getElem_range]
  exact congrArg _ (Layout.coords_offset hrange)

theorem valueAt_filling {p : Filling α} (hlen : ∀ s ∈ p.sources, s.strides.length = p.axes.length)
    {x : Assignment} (hx : x.InRange p.axes) :
    p.table.valueAt x = cellAt p.op p.sources (x.on p.axes) := valueAt_combine hlen hx

end

theorem offset_ofTable {t : Table α} {out : Axes} (ht : t.axes.ids.Nodup) (hout : out.ids.Nodup)
    (hsub : t.axes.ids ⊆ out.ids) (x : Assignment) :
    (Projection.ofTable out t).offset (x.on out) = Layout.offset t.axes.distances (x.on t.axes) := by
  rw [Projection.ofTable_eq_pinned hsub x, Projection.offset_pinned hout ht, Assignment.overlay_self]

/-- Holding a dropped axis at an outcome adds that many strides to every read. -/
theorem offset_displaced {t : Table α} (ht : t.axes.ids.Nodup) {v : Variable}
    (hv : t.mentions v) (x : Assignment) (k : ℕ) :
    ((Projection.ofTable (t.axes.without v) t).displaced (k * t.axes.strideOf v)).offset
        (x.on (t.axes.without v)) =
      Layout.offset t.axes.distances ((x.set v k).on t.axes) := by
  rw [Projection.displaced_eq_pinned ht hv, Projection.offset_pinned (Axes.nodup_without ht v) ht]
  refine congrArg _ (Assignment.on_congr fun id hid => ?_)
  by_cases h : id = v.id
  · have hnot : id ∉ (t.axes.without v).ids := fun h' => ((Axes.mem_ids_without ht).mp h').2 h
    rw [Assignment.overlay_of_notMem _ x hnot, Assignment.set_of_id_eq x h]
  · have hmem : id ∈ (t.axes.without v).ids := (Axes.mem_ids_without ht).mpr ⟨hid, h⟩
    rw [Assignment.overlay_of_mem _ x hmem, Assignment.set_of_ne x h]

/-! ### The algebra -/

section

open scoped Exact

variable [Cell α]

theorem valueAt_restrict {t : Table α} (ht : t.WellFormed) {v : Variable} (hv : t.mentions v)
    {x : Assignment} (hx : x.InRange (t.axes.without v)) (k : ℕ) :
    (t.restrict v k).valueAt x = Fold.product.fold [t.valueAt (x.set v k)] := by
  refine (valueAt_filling (by simp [restriction, Projection.displaced]) hx).trans ?_
  simp only [restriction, cellAt, List.map_singleton, offset_displaced ht.nodup hv]
  rfl

theorem valueAt_sumOut {t : Table α} (ht : t.WellFormed) {v : Variable} (hv : t.mentions v)
    {x : Assignment} (hx : x.InRange (t.axes.without v)) :
    (t.sumOut v).valueAt x =
      Fold.sum.fold ((List.range v.arity).map fun k => t.valueAt (x.set v k)) := by
  refine (valueAt_filling (by simp [summation, Projection.displaced]) hx).trans ?_
  simp only [summation, cellAt, List.map_map]
  refine congrArg _ (List.map_congr_left fun k _ => ?_)
  rw [Function.comp_apply, offset_displaced ht.nodup hv]
  rfl

theorem valueAt_foldAll {op : Fold} {ts : List (Table α)} (hts : ∀ t ∈ ts, t.WellFormed)
    {x : Assignment} (hx : x.InRange (foldAll op ts).axes) (hone : ts.length ≠ 1) :
    (foldAll op ts).valueAt x = op.fold (ts.map (·.valueAt x)) := by
  have hfold : foldAll op ts = (joining op ts).table := by
    unfold foldAll
    split
    · simp at hone
    · rfl
  rw [hfold] at hx ⊢
  refine (valueAt_filling (by simp [joining]) hx).trans ?_
  simp only [joining, cellAt, List.map_map]
  refine congrArg _ (List.map_congr_left fun t ht => ?_)
  rw [Function.comp_apply, offset_ofTable (hts t ht).nodup (Axes.nodup_union _ (by simp))]
  · rfl
  · intro id hid
    exact Axes.mem_ids_union.mpr (.inr (Axes.mem_ids_flatMap.mpr ⟨t, ht, hid⟩))

end

/-! ### Axes of results -/

section

variable [Build] [Cell α]

/-- The axes of a fold are the union of the axes of its arguments. -/
theorem mem_ids_foldAll {op : Fold} {ts : List (Table α)} {id : VariableId} :
    id ∈ (foldAll op ts).axes.ids ↔ ∃ t ∈ ts, id ∈ t.axes.ids := by
  unfold foldAll
  split
  · simp
  · simp only [Filling.axes_table, axes_joining, Axes.mem_ids_union, Axes.ids_nil, List.not_mem_nil,
      false_or, Axes.mem_ids_flatMap]

theorem axes_foldAll_subset {op : Fold} {ts : List (Table α)} {v : Variable}
    (h : v ∈ (foldAll op ts).axes) : ∃ t ∈ ts, v ∈ t.axes := by
  unfold foldAll at h
  split at h
  · exact ⟨_, List.mem_singleton_self _, h⟩
  · rcases Axes.mem_of_mem_union h with h | h
    · cases h
    · exact List.mem_flatMap.mp h

theorem nodup_foldAll {op : Fold} {ts : List (Table α)} (h : ∀ t ∈ ts, t.axes.ids.Nodup) :
    (foldAll op ts).axes.ids.Nodup := by
  unfold foldAll
  split
  · exact h _ (List.mem_singleton_self _)
  · exact Axes.nodup_union _ (by simp)

/-! ### Well-formed results -/

theorem shaped_combine {op : Fold} {out : Axes} {sources : List (Projection α)}
    (hnodup : out.ids.Nodup) (hpos : ∀ v ∈ out, 0 < v.arity) :
    (⟨out, combine op out sources⟩ : Table α).Shaped :=
  ⟨hnodup, hpos, size_combine op out sources⟩

theorem Shaped.restrict {t : Table α} (ht : t.Shaped) (v : Variable) (k : ℕ) :
    (t.restrict v k).Shaped :=
  shaped_combine (Axes.nodup_without ht.nodup v) fun w hw =>
    ht.arity_pos w (Axes.mem_of_mem_without hw)

theorem Shaped.sumOut {t : Table α} (ht : t.Shaped) (v : Variable) : (t.sumOut v).Shaped :=
  shaped_combine (Axes.nodup_without ht.nodup v) fun w hw =>
    ht.arity_pos w (Axes.mem_of_mem_without hw)

theorem Shaped.foldAll {op : Fold} {ts : List (Table α)} (hts : ∀ t ∈ ts, t.Shaped) :
    (foldAll op ts).Shaped := by
  unfold Table.foldAll
  split
  · exact hts _ (List.mem_singleton_self _)
  · refine shaped_combine (Axes.nodup_union _ (by simp)) fun v hv => ?_
    rcases Axes.mem_of_mem_union hv with h | h
    · cases h
    · obtain ⟨t, ht, hvt⟩ := List.mem_flatMap.mp h
      exact (hts t ht).arity_pos v hvt

omit [Cell α] in
theorem Shaped.scalar (c : α) : (Table.scalar c).Shaped where
  nodup := List.nodup_nil
  arity_pos := nofun
  size_cells := (Build.word_of_holds 1 (Build.holds_of_lt 1 (by decide)) 1 (Nat.le_refl 1)).symm

theorem Shaped.scale {t : Table α} (ht : t.Shaped) (c : α) : (t.scale c).Shaped :=
  .foldAll (List.forall_mem_cons.mpr ⟨ht, List.forall_mem_singleton.mpr (.scalar c)⟩)

omit [Build] in
theorem ids_rearrange {B : Build} (t : Table α) (order : Axes) : (t.rearrange order).axes.ids = order.ids := by
  unfold rearrange
  split
  next h => exact (by simpa using h : order.ids = t.axes.ids).symm
  next => rfl

/-- Handles with the numbers of outcomes of their variables stay such in every fold. -/
theorem sized_foldAll {op : Fold} {sizes : VariableId → ℕ} {ts : List (Table α)}
    (h : ∀ t ∈ ts, t.axes.Sized sizes) : (foldAll op ts).axes.Sized sizes := by
  intro v hv
  obtain ⟨t, ht, hvt⟩ := axes_foldAll_subset hv
  exact h t ht v hvt

end

/-! In the exact build a table is well formed if it has the size that the build computes. -/

section

open scoped Exact

variable [Cell α] {t : Table α}

omit [Cell α] in
theorem Shaped.wellFormed (ht : t.Shaped) : t.WellFormed :=
  ⟨ht.nodup, ht.arity_pos, ht.size_cells, rfl⟩

theorem wellFormed_combine {op : Fold} {out : Axes} {sources : List (Projection α)}
    (hnodup : out.ids.Nodup) (hpos : ∀ v ∈ out, 0 < v.arity) :
    (⟨out, combine op out sources⟩ : Table α).WellFormed := (shaped_combine hnodup hpos).wellFormed

theorem WellFormed.restrict (ht : t.WellFormed) (v : Variable) (k : ℕ) :
    (t.restrict v k).WellFormed := (ht.shaped.restrict v k).wellFormed

theorem WellFormed.sumOut (ht : t.WellFormed) (v : Variable) : (t.sumOut v).WellFormed :=
  (ht.shaped.sumOut v).wellFormed

theorem WellFormed.foldAll {op : Fold} {ts : List (Table α)} (hts : ∀ t ∈ ts, t.WellFormed) :
    (foldAll op ts).WellFormed := (Shaped.foldAll fun t ht => (hts t ht).shaped).wellFormed

end

/-! ### Exact fractions -/

section

open scoped Exact

variable {t : Table ℚ} {ts : List (Table ℚ)} {v : Variable} {x : Assignment}

theorem valueAt_sumOut_rat (ht : t.WellFormed) (hv : t.mentions v)
    (hx : x.InRange (t.axes.without v)) :
    (t.sumOut v).valueAt x = ∑ k ∈ Finset.range v.arity, t.valueAt (x.set v k) := by
  rw [valueAt_sumOut ht hv hx, Fold.fold_sum_rat]
  rfl

theorem valueAt_foldAll_rat {op : Fold} (hts : ∀ t ∈ ts, t.WellFormed)
    (hx : x.InRange (foldAll op ts).axes) :
    (foldAll op ts).valueAt x = op.fold (ts.map (·.valueAt x)) := by
  by_cases hone : ts.length = 1
  · obtain ⟨t, rfl⟩ := List.length_eq_one_iff.mp hone
    cases op with
    | product => simp [Fold.fold_product_rat]
    | sum => simp [Fold.fold_sum_rat]
  · exact valueAt_foldAll hts hx hone

theorem valueAt_product_rat (hts : ∀ t ∈ ts, t.WellFormed) (hx : x.InRange (product ts).axes) :
    (product ts).valueAt x = (ts.map (·.valueAt x)).prod :=
  (valueAt_foldAll_rat hts hx).trans (Fold.fold_product_rat _)

theorem valueAt_sum_rat (hts : ∀ t ∈ ts, t.WellFormed) (hx : x.InRange (sum ts).axes) :
    (sum ts).valueAt x = (ts.map (·.valueAt x)).sum :=
  (valueAt_foldAll_rat hts hx).trans (Fold.fold_sum_rat _)

end

end Table

end Influence
