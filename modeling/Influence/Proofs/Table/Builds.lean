import Influence.Proofs.Elimination.Weight
import Influence.Proofs.Table.Shape

/-! # Tables in all builds

Builds differ in sizes that no word can hold, in tables that cannot be allocated, and in reads beyond a
table.  None of this happens where a table is filled from sources that are small themselves and are read
at cells that they have (`Filling.IsCovered`), and has fewer than `Build.room` cells: then its check
succeeds in every build and its cells are the same in all of them (`Filling.IsCovered.check_eq`,
`Filling.IsCovered.table_eq`).

`Table.Small` says of a table that it is well formed and has fewer than `Build.room` cells, with given
numbers of outcomes.  The operations on small tables are covered.  So they are the same in all builds, the
product and the sum under the condition that there is room for them. -/

namespace Influence

variable {α : Type}

/-- Fewer axes have fewer joint outcomes. -/
theorem Axes.count_le_of_sublist {axes axes' : Axes} (h : axes'.Sublist axes)
    (hpos : ∀ v ∈ axes, 0 < v.arity) : axes'.count ≤ axes.count := by
  induction h with
  | slnil => exact Nat.le_refl _
  | cons v _ ih =>
      obtain ⟨hv, hpos⟩ := List.forall_mem_cons.mp hpos
      exact (ih hpos).trans (Nat.le_mul_of_pos_left _ hv)
  | cons_cons v _ ih => exact Nat.mul_le_mul_left _ (ih (List.forall_mem_cons.mp hpos).2)

theorem Axes.arity_le_count {axes : Axes} {v : Variable} (hpos : ∀ w ∈ axes, 0 < w.arity)
    (hv : v ∈ axes) : v.arity ≤ axes.count := by
  simpa using Axes.count_le_of_sublist (List.singleton_sublist.mpr hv) hpos

/-- Some variables have no more joint outcomes than more of them. -/
theorem Axes.count_le_of_subset {sizes : VariableId → ℕ} {axes axes' : Axes} (h : axes.Sized sizes)
    (h' : axes'.Sized sizes) (hnodup : axes'.ids.Nodup) (hsub : axes'.ids ⊆ axes.ids)
    (hpos : ∀ v ∈ axes, 0 < v.arity) : axes'.count ≤ axes.count := by
  obtain ⟨ids, hperm, hsublist⟩ := hnodup.subperm hsub
  obtain ⟨part, hpart, rfl⟩ := List.sublist_map_iff.mp hsublist
  rw [← (h.subset hpart.subset).count_eq h' hperm]
  exact Axes.count_le_of_sublist hpart hpos

/-! ### Filled tables -/

/-- Every cell of the output is folded from cells that the sources have. -/
structure Filling.IsCovered (p : Filling α) : Prop where
  arity_pos : ∀ v ∈ p.axes, 0 < v.arity
  length : ∀ q ∈ p.sources, q.strides.length = p.axes.length
  offset_lt : ∀ q ∈ p.sources, ∀ cs, Layout.InRange p.axes.arities cs → q.offset cs < q.cells.size
  room : ∀ q ∈ p.sources, q.cells.size < Build.room

namespace Filling.IsCovered

variable {p : Filling α}

theorem readsInside_eq [Build] (h : p.IsCovered) (n i : ℕ) :
    readsInside p.sources (Odometer.wheels p.axes p.sources) n
      (.standingAt p.sources (Layout.coords p.axes.arities i)) = true := by
  induction n generalizing i with
  | zero => rfl
  | succ n ih =>
      have hrange := Layout.inRange_coords
        (show ∀ a ∈ p.axes.arities, 0 < a by simpa [Axes.arities] using h.arity_pos) i
      rw [readsInside, Odometer.next_standingAt_coords h.length h.arity_pos, ih, Bool.and_true,
        Odometer.standingAt, List.zipWith_map_right, List.zipWith_self, List.all_map, List.all_eq_true]
      intro q hq
      have hlt := h.offset_lt q hq _ hrange
      simpa [Projection.covers, Build.word_of_lt (hlt.trans (h.room q hq))] using hlt

/-- With room for its cells the table can be filled. -/
theorem check_eq [Build] (h : p.IsCovered) (hroom : p.axes.count < Build.room) : p.check = .ok () := by
  have hholds : Build.holds p.axes.size := by
    rw [Axes.size_of_lt hroom]
    exact Build.holds_of_lt _ hroom
  rw [check, if_neg (by simp [hholds]), if_neg (by simp [h.readsInside_eq])]

/-- The cells are the same in all builds. -/
theorem table_eq [Cell α] (B B' : Build) (h : p.IsCovered) (hroom : p.axes.count < Build.room) :
    @table α B _ p = @table α B' _ p := by
  have hcells : ∀ B : Build, (@table α B _ p).cells.toList = (List.range p.axes.count).map fun i =>
      p.op.fold (p.sources.map fun q => q.cells.getD (q.offset (Layout.coords p.axes.arities i)) 0) := by
    intro B
    rw [table, toList_combine h.length h.arity_pos, Axes.size_of_lt hroom]
    refine List.map_congr_left fun i _ => congrArg _ (List.map_congr_left fun q hq => ?_)
    have hrange := Layout.inRange_coords
      (show ∀ a ∈ p.axes.arities, 0 < a by simpa [Axes.arities] using h.arity_pos) i
    rw [Projection.read, Build.word_of_lt ((h.offset_lt q hq _ hrange).trans (h.room q hq))]
  rw [Table.mk.injEq]
  exact ⟨rfl, Array.ext' ((hcells B).trans (hcells B').symm)⟩

/-- A filling from views of small tables. -/
theorem of_views (op : Fold) {out : Axes} (views : List (Table α × Assignment))
    (hnodup : out.ids.Nodup) (hpos : ∀ v ∈ out, 0 < v.arity)
    (hviews : ∀ view ∈ views, Projection.IsView out view.1 view.2)
    (hroom : ∀ view ∈ views, view.1.cells.size < Build.room) :
    IsCovered ⟨op, out, views.map fun view => Projection.pinned out view.1 view.2⟩ where
  arity_pos := hpos
  length := List.forall_mem_map.mpr fun _ _ => Projection.length_strides_pinned
  offset_lt := List.forall_mem_map.mpr fun view hview _ hcs => (hviews view hview).offset_lt hnodup hcs
  room := List.forall_mem_map.mpr hroom

end Filling.IsCovered

/-! ### Small tables -/

namespace Table

variable {sizes : VariableId → ℕ} {t t' : Table α} {ts : List (Table α)} {v : Variable}

/-- The table is well formed in every build, with given numbers of outcomes. -/
structure Small (sizes : VariableId → ℕ) (t : Table α) : Prop where
  nodup : t.axes.ids.Nodup
  arity_pos : ∀ v ∈ t.axes, 0 < v.arity
  sized : t.axes.Sized sizes
  size_cells : t.cells.size = t.axes.count
  room : t.cells.size < Build.room

theorem WellFormed.small (ht : t.WellFormed) (hsized : t.axes.Sized sizes) : t.Small sizes :=
  ⟨ht.nodup, ht.arity_pos, hsized, ht.size_cells, of_decide_eq_true ht.holds_cells⟩

namespace Small

theorem wellFormed [Build] (ht : t.Small sizes) : t.WellFormed :=
  ⟨ht.nodup, ht.arity_pos, ht.size_cells, Build.holds_of_lt _ ht.room⟩

theorem fits (ht : t.Small sizes) : t.Fits sizes := ⟨@wellFormed _ _ _ Exact.build ht, ht.sized⟩

theorem count_lt (ht : t.Small sizes) : t.axes.count < Build.room := ht.size_cells ▸ ht.room

/-- Without one of its axes a table is smaller still. -/
theorem count_without_lt (ht : t.Small sizes) (v : Variable) :
    (t.axes.without v).count < Build.room :=
  (Axes.count_le_of_sublist List.eraseP_sublist ht.arity_pos).trans_lt ht.count_lt

/-- A table that a build has filled with room for its cells. -/
theorem of_shaped [Build] (ht : t.Shaped) (hsized : t.axes.Sized sizes)
    (hroom : t.axes.count < Build.room) : t.Small sizes := by
  have hsize := (ht.wellFormed_of_lt hroom).size_cells
  exact ⟨ht.nodup, ht.arity_pos, hsized, hsize, hsize ▸ hroom⟩

theorem scalar (c : α) : (Table.scalar c).Small sizes :=
  ⟨List.nodup_nil, nofun, nofun, rfl, show 1 < Build.room by decide⟩

/-- A small table is seen from axes with the same numbers of outcomes, with those of its axes held that
are not among them. -/
theorem isView (ht : t.Small sizes) {out : Axes} (hout : out.Sized sizes) {x : Assignment}
    (hx : x.InRange (t.axes.beyond out)) : Projection.IsView out t x where
  nodup := ht.nodup
  size_cells := ht.size_cells
  agree := by
    have hall : Axes.Sized sizes (out ++ t.axes) := fun v hv =>
      (List.mem_append.mp hv).elim (hout v) (ht.sized v)
    intro u hu v hv huv
    rw [hall u hu, hall v hv, huv]
  held := hx

theorem isView_without (ht : t.Small sizes) (hv : t.mentions v) (hsize : v.arity = sizes v.id) {k : ℕ}
    (hk : k < v.arity) : Projection.IsView (t.axes.without v) t fun _ => k := by
  refine ht.isView (ht.sized.without v) fun w hw => ?_
  obtain ⟨u, hid, hbeyond⟩ := Axes.exists_beyond_without ht.nodup hv
  obtain rfl : w = u := by simpa [hbeyond] using hw
  rwa [ht.sized w (Axes.mem_beyond.mp hw).1, hid, ← hsize]

theorem isView_of_subset (ht : t.Small sizes) {out : Axes} (hout : out.Sized sizes)
    (hsub : t.axes.ids ⊆ out.ids) : Projection.IsView out t fun _ => 0 := by
  refine ht.isView hout ?_
  rw [Axes.beyond_eq_nil hsub]
  exact nofun

/-! ### The fillings are covered -/

theorem isCovered_restriction (ht : t.Small sizes) (hv : t.mentions v) (hsize : v.arity = sizes v.id)
    {k : ℕ} (hk : k < v.arity) : (t.restriction v k).IsCovered := by
  have h := Filling.IsCovered.of_views .product [(t, fun _ => k)]
    (Axes.nodup_without ht.nodup v) (fun w hw => ht.arity_pos w (Axes.mem_of_mem_without hw))
    (by simpa using ht.isView_without hv hsize hk) (by simpa using ht.room)
  rwa [restriction, Projection.displaced_eq_pinned ht.nodup hv]

theorem isCovered_summation (ht : t.Small sizes) (hv : t.mentions v) (hsize : v.arity = sizes v.id) :
    (t.summation v).IsCovered := by
  have h := Filling.IsCovered.of_views .sum ((List.range v.arity).map fun k => (t, fun _ => k))
    (Axes.nodup_without ht.nodup v)
    (fun w hw => ht.arity_pos w (Axes.mem_of_mem_without hw))
    (List.forall_mem_map.mpr fun k hk => ht.isView_without hv hsize (List.mem_range.mp hk))
    (List.forall_mem_map.mpr fun _ _ => ht.room)
  rw [summation, List.map_congr_left fun k _ => Projection.displaced_eq_pinned ht.nodup hv k]
  rwa [List.map_map] at h

theorem isCovered_joining (op : Fold) (hts : ∀ t ∈ ts, t.Small sizes) :
    (Table.joining op ts).IsCovered := by
  have hsized : (Axes.union [] (ts.flatMap (·.axes))).Sized sizes := Axes.Sized.union fun v hv => by
    obtain ⟨t, ht, hvt⟩ := List.mem_flatMap.mp hv
    exact (hts t ht).sized v hvt
  have hsub : ∀ t ∈ ts, t.axes.ids ⊆ (Axes.union [] (ts.flatMap (·.axes))).ids := fun t ht id hid =>
    Axes.mem_ids_union.mpr (.inr (Axes.mem_ids_flatMap.mpr ⟨t, ht, hid⟩))
  have h := Filling.IsCovered.of_views op (ts.map fun t => (t, fun _ => 0))
    (Axes.nodup_union (ts.flatMap (·.axes)) (by simp)) (fun v hv => by
      obtain ⟨t, ht, hvt⟩ :=
        List.mem_flatMap.mp ((Axes.mem_of_mem_union hv).resolve_left List.not_mem_nil)
      exact (hts t ht).arity_pos v hvt)
    (List.forall_mem_map.mpr fun t ht => (hts t ht).isView_of_subset hsized (hsub t ht))
    (List.forall_mem_map.mpr fun t ht => (hts t ht).room)
  rw [joining, List.map_congr_left fun t ht =>
    Projection.ofTable_eq_pinned (hsub t ht) fun _ => 0]
  rwa [List.map_map] at h

theorem isCovered_reordering (ht : t.Small sizes) {order : Axes} (hids : order.ids.Perm t.axes.ids)
    (hsized : order.Sized sizes) : (t.reordering order).IsCovered := by
  have h := Filling.IsCovered.of_views .product [(t, fun _ => 0)]
    (hids.nodup_iff.mpr ht.nodup)
    (fun v hv => ht.sized.arity_pos ht.arity_pos (hids.mem_iff.mp (Axes.mem_ids_of_mem hv)) (hsized v hv))
    (by simpa using ht.isView_of_subset hsized hids.symm.subset) (by simpa using ht.room)
  rwa [reordering, Projection.ofTable_eq_pinned hids.symm.subset fun _ => 0]

/-! ### What the operations make -/

variable [Cell α]

/-- A table that is filled with room for its cells. -/
theorem of_filling [Build] {p : Filling α} (hp : p.IsCovered) (hnodup : p.axes.ids.Nodup)
    (hsized : p.axes.Sized sizes) (hroom : p.axes.count < Build.room) : p.table.Small sizes :=
  of_shaped (shaped_combine hnodup hp.arity_pos) hsized hroom

theorem restrict [Build] (ht : t.Small sizes) (hv : t.mentions v) (hsize : v.arity = sizes v.id) {k : ℕ}
    (hk : k < v.arity) : (t.restrict v k).Small sizes :=
  of_filling (ht.isCovered_restriction hv hsize hk) (Axes.nodup_without ht.nodup v) (ht.sized.without v)
    (ht.count_without_lt v)

theorem sumOut [Build] (ht : t.Small sizes) (hv : t.mentions v) (hsize : v.arity = sizes v.id) :
    (t.sumOut v).Small sizes :=
  of_filling (ht.isCovered_summation hv hsize) (Axes.nodup_without ht.nodup v) (ht.sized.without v)
    (ht.count_without_lt v)

/-- Some small tables are joined with room for the joint outcomes of their axes. -/
theorem foldAll {B : Build} {op : Fold} (hts : ∀ t ∈ ts, t.Small sizes)
    (hroom : (Table.foldAll op ts).axes.count < Build.room) : (Table.foldAll op ts).Small sizes :=
  .of_shaped (.foldAll fun t ht => (hts t ht).wellFormed.shaped)
    (fun v hv => by
      obtain ⟨t, ht, hvt⟩ := axes_foldAll_subset hv
      exact (hts t ht).sized v hvt) hroom

theorem foldAll_eq (B B' : Build) {op : Fold} (hts : ∀ t ∈ ts, t.Small sizes)
    (hroom : (@Table.foldAll α B _ op ts).axes.count < Build.room) :
    @Table.foldAll α B _ op ts = @Table.foldAll α B' _ op ts := by
  have hcovered := isCovered_joining op hts
  match ts, hcovered, hroom with
  | [t], _, _ => rfl
  | [], hcovered, hroom => exact hcovered.table_eq B B' hroom
  | _ :: _ :: _, hcovered, hroom => exact hcovered.table_eq B B' hroom

theorem count_scale {B : Build} (ht : t.Small sizes) (c : α) : (t.scale c).axes.count < Build.room := by
  have hids : (t.scale c).axes.ids ⊆ t.axes.ids := fun id hid => by
    obtain ⟨u, hu, hmem⟩ := mem_ids_foldAll.mp hid
    rcases List.mem_pair.mp hu with rfl | rfl
    · exact hmem
    · cases hmem
  have hsized : (t.scale c).axes.Sized sizes := fun v hv => by
    obtain ⟨u, hu, hmem⟩ := axes_foldAll_subset hv
    rcases List.mem_pair.mp hu with rfl | rfl
    · exact ht.sized v hmem
    · cases hmem
  have hnodup : (t.scale c).axes.ids.Nodup := nodup_foldAll (by simp [ht.nodup, Table.scalar])
  exact (Axes.count_le_of_subset ht.sized hsized hnodup hids ht.arity_pos).trans_lt ht.count_lt

theorem scale {B : Build} (ht : t.Small sizes) (c : α) : (t.scale c).Small sizes :=
  .foldAll (List.forall_mem_cons.mpr ⟨ht, List.forall_mem_singleton.mpr (.scalar c)⟩) (ht.count_scale c)

theorem scale_eq (B B' : Build) (ht : t.Small sizes) (c : α) :
    @Table.scale α B _ t c = @Table.scale α B' _ t c :=
  foldAll_eq B B' (List.forall_mem_cons.mpr ⟨ht, List.forall_mem_singleton.mpr (.scalar c)⟩)
    (ht.count_scale c)

/-- Axes are summed out one after the other. -/
theorem foldl_sumOut_eq (B B' : Build) (ht : t.Small sizes) {us : Axes} (hus : us.ids.Nodup)
    (hsub : us ⊆ t.axes) :
    us.foldl (@Table.sumOut α B _) t = us.foldl (@Table.sumOut α B' _) t := by
  induction us generalizing t with
  | nil => rfl
  | cons u us ih =>
      obtain ⟨hu, hus⟩ := Axes.nodup_ids_cons.mp hus
      obtain ⟨hmem, hsub⟩ := List.cons_subset.mp hsub
      have hmentions := mentions_iff.mpr (Axes.mem_ids_of_mem hmem)
      have hsize := ht.sized u hmem
      have heq : @Table.sumOut α B _ t u = @Table.sumOut α B' _ t u :=
        (ht.isCovered_summation hmentions hsize).table_eq B B' (ht.count_without_lt u)
      rw [List.foldl_cons, List.foldl_cons, heq]
      refine ih (ht.sumOut hmentions hsize) hus fun v hv => ?_
      show v ∈ t.axes.without u
      rw [Axes.without_eq_filter ht.nodup]
      refine List.mem_filter.mpr ⟨hsub hv, ?_⟩
      have hne : v.id ≠ u.id := fun hid => hu (hid ▸ Axes.mem_ids_of_mem hv)
      simpa using hne

theorem rearrange {B : Build} (ht : t.Small sizes) {order : Axes} (hids : order.ids.Perm t.axes.ids)
    (hsized : order.Sized sizes) : (t.rearrange order).Small sizes := by
  unfold Table.rearrange
  split
  · exact ht
  · exact of_filling (ht.isCovered_reordering hids hsized) (hids.nodup_iff.mpr ht.nodup) hsized
      (hsized.count_eq ht.sized hids ▸ ht.count_lt)

theorem moveLast [Build] (ht : t.Small sizes) (hv : t.mentions v) (hsize : v.arity = sizes v.id) :
    (t.moveLast v).Small sizes :=
  ht.rearrange (perm_ids_moveLast hv) (sized_without_append ht.sized hsize)

theorem normalizeFor {B : Build} (ht : t.Small sizes) (hv : t.mentions v) (hsize : v.arity = sizes v.id) :
    (t.normalizeFor v).Small sizes := by
  have hmoved := ht.moveLast hv hsize
  have hpos := ht.sized.arity_pos ht.arity_pos (mentions_iff.mp hv) hsize
  exact .of_shaped (ht.wellFormed.shaped.normalizeFor hv hpos) hmoved.sized hmoved.count_lt

theorem rearrange_eq (B B' : Build) (ht : t.Small sizes) {order : Axes}
    (hids : order.ids.Perm t.axes.ids) (hsized : order.Sized sizes) :
    @Table.rearrange α B _ t order = @Table.rearrange α B' _ t order := by
  unfold Table.rearrange
  split
  · rfl
  · exact (ht.isCovered_reordering hids hsized).table_eq B B'
      (hsized.count_eq ht.sized hids ▸ ht.count_lt)

theorem moveLast_eq (B B' : Build) (ht : t.Small sizes) (hv : t.mentions v)
    (hsize : v.arity = sizes v.id) : @Table.moveLast α B _ t v = @Table.moveLast α B' _ t v :=
  ht.rearrange_eq B B' (perm_ids_moveLast hv) (sized_without_append ht.sized hsize)

theorem rule_eq (B B' : Build) (ht : t.Small sizes) (hv : t.mentions v)
    (hsize : v.arity = sizes v.id) : @Table.rule α B _ t v = @Table.rule α B' _ t v := by
  unfold Table.rule
  rw [ht.moveLast_eq B B' hv hsize]

theorem normalizeFor_eq (B B' : Build) (ht : t.Small sizes) (hv : t.mentions v)
    (hsize : v.arity = sizes v.id) :
    @Table.normalizeFor α B _ t v = @Table.normalizeFor α B' _ t v := by
  unfold Table.normalizeFor
  rw [ht.moveLast_eq B B' hv hsize]

omit [Cell α] in
/-- A small table stays small if its cells are replaced by as many others. -/
theorem of_size (ht : t.Small sizes) (haxes : t'.axes = t.axes)
    (hsize : t'.cells.size = t.cells.size) : t'.Small sizes :=
  ⟨haxes ▸ ht.nodup, haxes ▸ ht.arity_pos, haxes ▸ ht.sized, haxes ▸ hsize ▸ ht.size_cells,
    hsize ▸ ht.room⟩

theorem of_rule {B : Build} (ht : t.Small sizes) (hv : t.mentions v) (hsize : v.arity = sizes v.id)
    (h : t.rule v = .ok t') : t'.Small sizes := by
  have hmoved := ht.moveLast hv hsize
  have hshaped := ht.wellFormed.shaped.of_rule hv
    (ht.sized.arity_pos ht.arity_pos (mentions_iff.mp hv) hsize) h
  have haxes := axes_of_rule h
  exact of_shaped hshaped (haxes ▸ hmoved.sized) (haxes ▸ hmoved.count_lt)

theorem invert (ht : t.Small sizes) : t.invert.Small sizes := ht.of_size rfl (by simp [Table.invert])

omit [Cell α] in
/-- The distance along an axis is that of two cells of the table. -/
theorem strideOf_lt (ht : t.Small sizes) (v : Variable) : t.axes.strideOf v < Build.room := by
  have hle : ∀ axes : Axes, (∀ w ∈ axes, 0 < w.arity) → axes.strideOf v ≤ axes.count := by
    intro axes hpos
    induction axes with
    | nil => exact Nat.zero_le _
    | cons w axes ih =>
        obtain ⟨hw, hpos⟩ := List.forall_mem_cons.mp hpos
        rw [Axes.strideOf]
        split
        · exact Nat.le_mul_of_pos_left _ hw
        · exact (ih hpos).trans (Nat.le_mul_of_pos_left _ hw)
  exact (hle _ ht.arity_pos).trans_lt ht.count_lt

theorem marginal_eq (B B' : Build) (ht : t.Small sizes) (v : Variable) :
    @Table.marginal α B _ t v = @Table.marginal α B' _ t v := by
  unfold Table.marginal
  rw [@Build.word_of_lt B _ (ht.strideOf_lt v), @Build.word_of_lt B' _ (ht.strideOf_lt v)]

end Small

theorem ones_eq [Cell α] (B B' : Build) {axes : Axes} (h : axes.count < Build.room) :
    (@ones α B _ axes) = @ones α B' _ axes := by
  unfold ones
  rw [@Axes.size_of_lt B _ h, @Axes.size_of_lt B' _ h]

end Table

end Influence
