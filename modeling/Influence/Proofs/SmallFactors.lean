import Influence.Proofs.Factor
import Influence.Proofs.Table.Builds

/-! # Operations on small factors

An operation on a factor checks that there is room for the table that it fills and that the table is
filled from cells which the factor has.  For a factor whose table is small both checks succeed in every
build, and the cells are the same.  So an operation that does not join factors does the same in all builds
(`Factor.restrict_eq`, `Factor.sumOut_eq`, `Factor.rearrange_eq`, `Factor.rule_eq`, `Factor.marginal_eq`);
one that does needs room for the joint outcomes of their axes (`Factor.foldAll_eq`).

In the build that runs a table that is well formed is small (`Table.WellFormed.exists_small`). -/

namespace Influence

variable {α : Type} {sizes : VariableId → ℕ}

namespace Table

variable {t : Table α}

theorem WellFormed.exact [Build] (ht : t.WellFormed) : @WellFormed α Exact.build t :=
  @WellFormed.mk α Exact.build t ht.nodup ht.arity_pos ht.size_cells rfl

theorem Fits.nodup (ht : t.Fits sizes) : t.axes.ids.Nodup :=
  @WellFormed.nodup α Exact.build t ht.wellFormed

theorem Small.of_fits (ht : t.Fits sizes) (hroom : t.axes.count < Build.room) : t.Small sizes :=
  @of_shaped α sizes t Exact.build (@WellFormed.shaped α Exact.build t ht.wellFormed) ht.sized hroom

/-- In the build that runs there is room for the cells of a well-formed table. -/
theorem WellFormed.exists_small (ht : t.WellFormed) :
    ∃ sizes, t.Small sizes ∧ Assignment.Valid sizes fun _ => 0 := by
  obtain ⟨sizes, hfits, hzero⟩ := ht.exact.exists_fits
  exact ⟨sizes, ht.small hfits.sized, hzero⟩

end Table

/-- What follows a check. -/
theorem guard_congr {ε σ β : Type} {p : Prop} [Decidable p] {e : ε} {x y : ExceptT ε (StateM σ) β}
    (h : ¬p → x = y) :
    (if p then (throw e : ExceptT ε (StateM σ) PUnit) >>= fun _ => x else x) =
      if p then (throw e : ExceptT ε (StateM σ) PUnit) >>= fun _ => y else y := by
  split
  next => rfl
  next hp => exact h hp

namespace Factor

variable [Cell α] {f : Factor α} {v : Variable} (B B' : Build)

theorem fill_eq {p : Filling α} (hp : p.IsCovered) (hroom : p.axes.count < Build.room) :
    @fill α B _ p = @fill α B' _ p := by
  unfold fill
  rw [@Filling.IsCovered.check_eq _ _ B hp hroom, @Filling.IsCovered.check_eq _ _ B' hp hroom,
    hp.table_eq B B' hroom]

omit [Cell α] in
/-- What follows the check that a factor mentions a variable. -/
theorem requireAxis_congr {x y : RegistryM (Factor α)} (h : f.mentions v → x = y) :
    (f.requireAxis v >>= fun _ => x) = f.requireAxis v >>= fun _ => y := by
  unfold requireAxis
  split
  next hv => rw [h hv]
  next => rfl

theorem restrict_eq (hf : f.table.Small sizes) (hsize : v.arity = sizes v.id) (k : ℕ) :
    @restrict α B _ f v k = @restrict α B' _ f v k := by
  refine requireAxis_congr fun hv => guard_congr fun hk => ?_
  exact fill_eq B B' (hf.isCovered_restriction hv hsize (Nat.not_le.mp hk)) (hf.count_without_lt v)

theorem sumOut_eq (hf : f.table.Small sizes) (hsize : v.arity = sizes v.id) :
    @sumOut α B _ f v = @sumOut α B' _ f v := by
  refine requireAxis_congr fun hv => ?_
  exact fill_eq B B' (hf.isCovered_summation hv hsize) (hf.count_without_lt v)

theorem foldAll_eq (op : Fold) {fs : List (Factor α)} (hfs : ∀ f ∈ fs, f.table.Small sizes)
    (hroom : (Axes.union [] (fs.flatMap (·.axes))).count < Build.room) :
    @foldAll α B _ op fs = @foldAll α B' _ op fs := by
  have hfill : @fill α B _ (Table.joining op (fs.map (·.table))) =
      @fill α B' _ (Table.joining op (fs.map (·.table))) := by
    refine fill_eq B B' (Table.Small.isCovered_joining op (List.forall_mem_map.mpr hfs)) ?_
    rw [Table.axes_joining, List.flatMap_map]
    exact hroom
  match fs, hfill with
  | [f], _ => rfl
  | [], hfill | f :: g :: fs, hfill => exact hfill

theorem rearrange_eq (hf : f.table.Small sizes) (order : Axes) (horder : order.Sized sizes) :
    @rearrange α B _ f order = @rearrange α B' _ f order := by
  refine guard_congr fun hperm => ?_
  rw [Bool.not_eq_true', Bool.not_eq_false, isOrder_iff hf.nodup] at hperm
  split
  · rfl
  · exact fill_eq B B' (hf.isCovered_reordering hperm horder)
      (horder.count_eq hf.sized hperm ▸ hf.count_lt)

theorem moveLast_eq (hf : f.table.Small sizes) (hsize : v.arity = sizes v.id) :
    @moveLast α B _ f v = @moveLast α B' _ f v := by
  unfold moveLast
  rw [rearrange_eq B B' hf (f.axes.without v ++ [v]) (Table.sized_without_append hf.sized hsize)]

theorem normalizeFor_eq (hf : f.table.Small sizes) (hsize : v.arity = sizes v.id) :
    @normalizeFor α B _ f v = @normalizeFor α B' _ f v := by
  unfold normalizeFor
  rw [moveLast_eq B B' hf hsize]
  unfold moveLast
  rw [bind_assoc, bind_assoc]
  exact requireAxis_congr fun hv => by rw [hf.normalizeFor_eq B B' hv hsize]

theorem rule_eq (hf : f.table.Small sizes) (hsize : v.arity = sizes v.id) :
    @rule α B _ f v = @rule α B' _ f v := by
  unfold rule
  rw [moveLast_eq B B' hf hsize]
  unfold moveLast
  rw [bind_assoc, bind_assoc]
  exact requireAxis_congr fun hv => by rw [hf.rule_eq B B' hv hsize]

theorem marginal_eq (hf : f.table.Small sizes) (hroom : v.arity < Build.room) :
    @marginal α B _ f v = @marginal α B' _ f v := by
  unfold marginal requireRoom
  rw [if_pos (@Build.holds_of_lt B _ hroom), if_pos (@Build.holds_of_lt B' _ hroom),
    hf.marginal_eq B B' v]

end Factor

end Influence
