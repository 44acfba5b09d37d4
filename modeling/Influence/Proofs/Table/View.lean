import Influence.Proofs.Axes
import Influence.Table.Combine

/-! # Views of tables

The sources of every operation on tables are tables seen from the output axes, with each further axis
held at an outcome (`Projection.pinned`).  `offset_pinned` says which cell such a source reads: the
one at the outcomes of the output cell, and at the outcomes held along the further axes.

A view reads no cell beyond its table (`IsView.offset_lt`). -/

namespace Influence

variable {α : Type}

/-! ### Overlaid assignments -/

namespace Assignment

/-- The outcomes of `y` on some axes and those of `x` on all others. -/
def overlay (x : Assignment) (axes : Axes) (y : Assignment) : Assignment := fun id =>
  if id ∈ axes.ids then y id else x id

variable {axes : Axes}

@[simp] theorem overlay_of_mem (x y : Assignment) {id : VariableId} (h : id ∈ axes.ids) :
    x.overlay axes y id = y id := if_pos h

@[simp] theorem overlay_of_notMem (x y : Assignment) {id : VariableId} (h : id ∉ axes.ids) :
    x.overlay axes y id = x id := if_neg h

@[simp] theorem overlay_self (x : Assignment) (axes : Axes) : x.overlay axes x = x :=
  funext fun _ => ite_self _

/-- Coordinates along distinct axes are the outcomes of some assignment. -/
theorem exists_on_eq (hnodup : axes.ids.Nodup) {cs : List ℕ} (hlen : cs.length = axes.length) :
    ∃ x : Assignment, x.on axes = cs := by
  induction axes generalizing cs with
  | nil => exact ⟨fun _ => 0, (List.length_eq_zero_iff.mp hlen).symm⟩
  | cons v axes ih =>
      obtain ⟨hfresh, hnodup⟩ := Axes.nodup_ids_cons.mp hnodup
      cases cs with
      | nil => cases hlen
      | cons c cs =>
          obtain ⟨x, hx⟩ := ih hnodup (Nat.succ.inj hlen)
          refine ⟨x.set v c, ?_⟩
          rw [on, List.map_cons, set_same, ← on, on_set_of_notMem x hfresh, hx]

end Assignment

/-! ### Axes beyond those of the output -/

namespace Axes

/-- The axes that some other axes lack. -/
def beyond (axes out : Axes) : Axes := axes.filter fun v => !out.mentions v

theorem mem_beyond {axes out : Axes} {v : Variable} :
    v ∈ axes.beyond out ↔ v ∈ axes ∧ v.id ∉ out.ids := by
  rw [beyond, List.mem_filter, Bool.not_eq_true', mentions_eq_false_iff]

theorem beyond_eq_nil {axes out : Axes} (h : axes.ids ⊆ out.ids) : axes.beyond out = [] :=
  List.eq_nil_iff_forall_not_mem.mpr fun _ hv =>
    (mem_beyond.mp hv).2 (h (mem_ids_of_mem (mem_beyond.mp hv).1))

/-- The axis of a variable is the only one that the axes without it lack. -/
theorem exists_beyond_without {axes : Axes} (hnodup : axes.ids.Nodup) {v : Variable}
    (hv : axes.mentions v) : ∃ w : Variable, w.id = v.id ∧ axes.beyond (axes.without v) = [w] := by
  obtain ⟨w, hw, hid, -⟩ := perm_cons_without hv
  refine ⟨w, hid, List.perm_singleton.mp ?_⟩
  refine (List.perm_ext_iff_of_nodup ((nodup_of_ids hnodup).filter _)
    (List.nodup_singleton w)).mpr fun u => ?_
  rw [← beyond, mem_beyond, mem_ids_without hnodup, List.mem_singleton]
  constructor
  · rintro ⟨hu, hnot⟩
    have huv : u.id = v.id := by_contra fun hne => hnot ⟨mem_ids_of_mem hu, hne⟩
    exact eq_of_id_eq hnodup hu hw (huv.trans hid.symm)
  · rintro rfl
    exact ⟨hw, fun h => h.2 hid⟩

end Axes

/-! ### Tables seen from some axes -/

namespace Projection

/-- A table seen from some axes, with each axis that is not among them held at the outcome that an
assignment gives to it. -/
def pinned (out : Axes) (t : Table α) (x : Assignment) : Projection α :=
  (ofTable out t).displaced ((t.axes.beyond out).map fun v => x v.id * t.axes.strideOf v).sum

theorem ofTable_eq_pinned {out : Axes} {t : Table α} (h : t.axes.ids ⊆ out.ids) (x : Assignment) :
    ofTable out t = pinned out t x := by
  rw [pinned, Axes.beyond_eq_nil h]
  rfl

/-- A table without one of its axes is seen with that axis held. -/
theorem displaced_eq_pinned {t : Table α} (hnodup : t.axes.ids.Nodup) {v : Variable}
    (hv : t.mentions v) (k : ℕ) :
    (ofTable (t.axes.without v) t).displaced (k * t.axes.strideOf v) =
      pinned (t.axes.without v) t fun _ => k := by
  obtain ⟨w, hid, hbeyond⟩ := Axes.exists_beyond_without hnodup hv
  rw [pinned, hbeyond, List.map_singleton, List.sum_singleton, Axes.strideOf_congr hid]

/-- The table has one cell for each joint outcome of its distinct axes, its handles agree with those
of the output, and the axes that the output lacks are held at outcomes of theirs. -/
structure IsView (out : Axes) (t : Table α) (x : Assignment) : Prop where
  nodup : t.axes.ids.Nodup
  size_cells : t.cells.size = t.axes.count
  agree : (out ++ t.axes).Agree
  held : x.InRange (t.axes.beyond out)

instance (out : Axes) (t : Table α) (x : Assignment) : Decidable (IsView out t x) :=
  decidable_of_iff
    (t.axes.ids.Nodup ∧ t.cells.size = t.axes.count ∧ (out ++ t.axes).Agree ∧
      ∀ v ∈ t.axes.beyond out, x v.id < v.arity)
    ⟨fun ⟨hnodup, hsize, hagree, hheld⟩ => ⟨hnodup, hsize, hagree, hheld⟩,
      fun h => ⟨h.nodup, h.size_cells, h.agree, h.held⟩⟩

variable {out : Axes} {t : Table α} {x : Assignment}

@[simp] theorem cells_pinned : (pinned out t x).cells = t.cells := rfl

@[simp] theorem length_strides_pinned : (pinned out t x).strides.length = out.length :=
  length_strides_ofTable out t

/-- The offsets of a view are those of the cells of its table. -/
theorem offset_pinned (hout : out.ids.Nodup) (ht : t.axes.ids.Nodup) (x y : Assignment) :
    (pinned out t x).offset (y.on out) =
      Layout.offset t.axes.distances ((x.overlay out y).on t.axes) := by
  have hbeyond : ∀ v ∈ t.axes.beyond out, v.id ∉ out.ids := fun v hv => (Axes.mem_beyond.mp hv).2
  have hall : (Axes.ids (out ++ t.axes.beyond out)).Nodup := by
    rw [Axes.ids_append, List.nodup_append]
    refine ⟨hout, Axes.nodup_ids_filter ht _, ?_⟩
    rintro id hid _ hid' rfl
    obtain ⟨v, hv, rfl⟩ := Axes.mem_ids.mp hid'
    exact hbeyond v hv hid
  have hsub : t.axes.ids ⊆ Axes.ids (out ++ t.axes.beyond out) := by
    intro id hid
    obtain ⟨v, hv, rfl⟩ := Axes.mem_ids.mp hid
    rw [Axes.ids_append, List.mem_append]
    by_cases h : v.id ∈ out.ids
    · exact .inl h
    · exact .inr (Axes.mem_ids_of_mem (Axes.mem_beyond.mpr ⟨hv, h⟩))
  rw [Axes.offset_on ht, ← Axes.sum_strides_eq hall ht hsub, List.map_append, List.sum_append,
    Nat.add_comm]
  refine congrArg₂ (· + ·) ?_ ?_
  · rw [pinned, displaced, ofTable, Nat.zero_add]
    refine congrArg List.sum (List.map_congr_left fun v hv => ?_)
    rw [Assignment.overlay_of_notMem x y (hbeyond v hv)]
  · rw [pinned, displaced, ofTable, Assignment.on, Axes.offset_map]
    refine congrArg List.sum (List.map_congr_left fun v hv => ?_)
    rw [Assignment.overlay_of_mem x y (Axes.mem_ids_of_mem hv)]

/-- A view reads cells that its table has. -/
theorem IsView.offset_lt (h : IsView out t x) (hout : out.ids.Nodup) {cs : List ℕ}
    (hcs : Layout.InRange out.arities cs) :
    (pinned out t x).offset cs < (pinned out t x).cells.size := by
  obtain ⟨y, rfl⟩ := Assignment.exists_on_eq hout (by simpa [Axes.arities] using hcs.length_eq)
  have hy := Assignment.inRange_on.mp hcs
  rw [offset_pinned hout h.nodup, cells_pinned, h.size_cells]
  refine Layout.offset_lt (Assignment.inRange_on.mpr fun v hv => ?_)
  by_cases hid : v.id ∈ out.ids
  · obtain ⟨w, hw, hwv⟩ := Axes.mem_ids.mp hid
    rw [Assignment.overlay_of_mem x y hid, ← hwv,
      ← h.agree w (List.mem_append_left _ hw) v (List.mem_append_right _ hv) hwv]
    exact hy w hw
  · rw [Assignment.overlay_of_notMem x y hid]
    exact h.held v (Axes.mem_beyond.mpr ⟨hv, hid⟩)

end Projection

end Influence
