import Influence.Proofs.Elimination.Weight
import Influence.Proofs.Table.Shape

/-! # Rows of a table

`normalizeFor` and `rule` move one variable to the last place and then replace every row of cells
along it.  `valueAt_replaceRows` reads such a table: its cell at an assignment comes from the row of
the cells of the given table at that assignment.

`IsBestRule` says what a rule is: in every state a distribution over the outcomes of largest
value. -/

namespace Influence

open scoped Exact

/-- Coordinates in range along distinct axes are the outcomes of a valid assignment. -/
theorem Axes.exists_valid_on_eq {sizes : VariableId → ℕ} {axes : Axes} (hnodup : axes.ids.Nodup)
    (hsized : axes.Sized sizes) (hzero : Assignment.Valid sizes fun _ => 0) {cs : List ℕ}
    (hcs : Layout.InRange axes.arities cs) : ∃ x : Assignment, x.Valid sizes ∧ x.on axes = cs := by
  obtain ⟨y, hy⟩ := Assignment.exists_on_eq hnodup (hcs.length_eq.trans (by simp [arities]))
  have hrange : y.InRange axes := Assignment.inRange_on.mp (hy ▸ hcs)
  refine ⟨Assignment.overlay (fun _ => 0) axes y, fun id => ?_, ?_⟩
  · by_cases hid : id ∈ axes.ids
    · obtain ⟨v, hv, rfl⟩ := mem_ids.mp hid
      rw [Assignment.overlay_of_mem _ y hid, ← hsized v hv]
      exact hrange v hv
    · rw [Assignment.overlay_of_notMem _ y hid]
      exact hzero id
  · rw [Assignment.on_congr fun id hid => Assignment.overlay_of_mem _ y hid, hy]

namespace Table

variable {sizes : VariableId → ℕ} {v : Variable} {x y : Assignment}

/-! ### Rearranged axes -/

section

variable {α : Type} {t : Table α}

theorem Fits.sized_moveLast (ht : t.Fits sizes) (hsize : v.arity = sizes v.id) :
    (t.axes.without v ++ [v]).Sized sizes := by
  intro u hu
  rcases List.mem_append.mp hu with hu | hu
  · exact ht.sized.without v u hu
  · rw [List.mem_singleton.mp hu, hsize]

variable [Cell α]

/-- The table with its axes in another order, filled cell by cell also if the order is its own. -/
def reordered (t : Table α) (order : Axes) : Table α :=
  ⟨order, combine .product order [Projection.ofTable order t]⟩

theorem rearrange_eq (t : Table α) (order : Axes) :
    t.rearrange order = if order.ids == t.axes.ids then t else t.reordered order := rfl

theorem Fits.reordered (ht : t.Fits sizes) {order : Axes} (hids : order.ids.Perm t.axes.ids)
    (hsized : order.Sized sizes) : (t.reordered order).Fits sizes := by
  refine ⟨wellFormed_combine (hids.nodup_iff.mpr ht.wellFormed.nodup) fun u hu => ?_, hsized⟩
  obtain ⟨w, hw, hid⟩ := Axes.mem_ids.mp (hids.mem_iff.mp (Axes.mem_ids_of_mem hu))
  rw [hsized u hu, ← hid, ← ht.sized w hw]
  exact ht.wellFormed.arity_pos w hw

theorem Fits.rearrange (ht : t.Fits sizes) {order : Axes} (hids : order.ids.Perm t.axes.ids)
    (hsized : order.Sized sizes) : (t.rearrange order).Fits sizes := by
  rw [rearrange_eq]
  split
  · exact ht
  · exact ht.reordered hids hsized

theorem Fits.moveLast (ht : t.Fits sizes) (hv : t.mentions v) (hsize : v.arity = sizes v.id) :
    (t.moveLast v).Fits sizes ∧ (t.moveLast v).axes.ids = (t.axes.without v).ids ++ [v.id] := by
  refine ⟨ht.rearrange (perm_ids_moveLast hv) (ht.sized_moveLast hsize), ?_⟩
  rw [Table.moveLast, ids_rearrange, Axes.ids_append]
  rfl

/-! ### Cells along the last axis -/

theorem count_append_singleton (front : Axes) (v : Variable) :
    Axes.count (front ++ [v]) = front.count * v.arity := by
  rw [Axes.count, Axes.arities, List.map_append, Layout.size_append]
  simp [Axes.count, Axes.arities]

theorem offset_append_singleton (front : Axes) (v : Variable) (x : Assignment) :
    Layout.offset (Axes.distances (front ++ [v])) (x.on (front ++ [v])) =
      Layout.offset front.distances (x.on front) * v.arity + x v.id := by
  have h : (x.on front).length = front.arities.length := by simp [Assignment.on, Axes.arities]
  have happend := Layout.offset_append_singleton h v.arity (x v.id)
  simpa [Axes.distances, Axes.arities, Assignment.on] using happend

theorem getD_flatMap {β : Type} {g : β → List α} {w : ℕ} {l : List β}
    (hlength : ∀ b ∈ l, (g b).length = w) {q j : ℕ} (hj : j < w) {b : β} (hb : l[q]? = some b) :
    (l.flatMap g).getD (q * w + j) 0 = (g b).getD j 0 := by
  induction l generalizing q with
  | nil => cases hb
  | cons c l ih =>
      have hc := hlength c (by simp)
      rw [List.flatMap_cons]
      cases q with
      | zero =>
          obtain rfl : c = b := by simpa using hb
          rw [Nat.zero_mul, Nat.zero_add, List.getD_append _ _ _ _ (by omega)]
      | succ q =>
          rw [List.getD_append_right _ _ _ _ (by rw [hc, Nat.succ_mul]; omega), hc]
          have hindex : (q + 1) * w + j - w = q * w + j := by
            rw [Nat.succ_mul]
            omega
          rw [hindex]
          exact ih (fun d hd => hlength d (by simp [hd])) (by simpa using hb)

omit [Cell α] in
theorem length_flatMap_of_length {β : Type} {g : β → List α} {w : ℕ} {l : List β}
    (hlength : ∀ b ∈ l, (g b).length = w) : (l.flatMap g).length = l.length * w := by
  induction l with
  | nil => simp
  | cons c l ih =>
      rw [List.flatMap_cons, List.length_append, hlength c (by simp),
        ih fun d hd => hlength d (by simp [hd]), List.length_cons, Nat.succ_mul, Nat.add_comm]

/-- Cells that fill whole rows, row by row. -/
theorem rows_eq {cells : Array α} {q w : ℕ} (hw : 0 < w) (hsize : cells.size = q * w) :
    rows w cells =
      (List.range q).map fun i => (List.range w).map fun j => cells.getD (i * w + j) 0 := by
  have hcount : (cells.size + w - 1) / w = q := by
    rw [hsize, Nat.add_sub_assoc hw, Nat.add_comm, Nat.add_mul_div_right _ _ hw,
      Nat.div_eq_of_lt (by omega), Nat.zero_add]
  rw [rows, hcount]
  refine List.map_congr_left fun i hi => ?_
  have hend : i * w + w ≤ cells.size := by
    rw [hsize, ← Nat.succ_mul]
    exact Nat.mul_le_mul_right w (List.mem_range.mp hi)
  refine List.ext_getElem ?_ fun j hj _ => ?_
  · simp
    omega
  · have hj : j < w := by
      simp at hj
      omega
    simp only [Array.getElem_toList, Array.getElem_extract, List.getElem_map, List.getElem_range]
    rw [Array.getD_eq_getD_getElem?, Array.getElem?_eq_getElem (by omega), Option.getD_some]

/-- The cells along a variable, with the other variables as in an assignment. -/
def rowAt (t : Table α) (v : Variable) (x : Assignment) : List α :=
  (List.range v.arity).map fun k => t.valueAt (x.set v k)

@[simp] theorem length_rowAt (t : Table α) (v : Variable) (x : Assignment) :
    (rowAt t v x).length = v.arity := by simp [rowAt]

theorem rowAt_set (t : Table α) (v : Variable) (x : Assignment) (k : ℕ) :
    rowAt t v (x.set v k) = rowAt t v x := by
  simp only [rowAt, Assignment.set_set]

/-- Tables with the same row at an assignment have the same value there. -/
theorem valueAt_eq_of_rowAt_eq {u : Table α} (h : rowAt t v x = rowAt u v x) (hx : x v.id < v.arity) :
    t.valueAt x = u.valueAt x := by
  have hvalue := List.map_inj_left.mp h (x v.id) (List.mem_range.mpr hx)
  rwa [Assignment.set_self] at hvalue

/-- The table with the axis of a variable moved to the last place and every row of cells along it
replaced. -/
def replaceRows (g : List α → List α) (t : Table α) (v : Variable) : Table α :=
  ⟨(t.moveLast v).axes, ((rows v.arity (t.moveLast v).cells).flatMap g).toArray⟩

/-- The axes and the cells after a variable has been moved to the last place. -/
theorem exists_axes_moveLast (ht : t.Fits sizes) (hv : t.mentions v)
    (hsize : v.arity = sizes v.id) :
    ∃ front last, (t.moveLast v).axes = front ++ [last] ∧ last.id = v.id ∧
      last.arity = v.arity ∧ v.id ∉ Axes.ids front ∧ 0 < v.arity ∧
      (t.moveLast v).cells.size = Axes.count front * v.arity := by
  obtain ⟨hfits, hids⟩ := ht.moveLast hv hsize
  obtain ⟨front, tail, haxes, hfront, htail⟩ := List.map_eq_append_iff.mp hids
  obtain ⟨last, rfl, hlast⟩ := List.map_eq_singleton_iff.mp htail
  have hmem : last ∈ (t.moveLast v).axes := by
    rw [haxes]
    simp
  have harity : last.arity = v.arity := by
    rw [hsize, ← hlast]
    exact hfits.sized last hmem
  refine ⟨front, last, haxes, hlast, harity, ?_, ?_, ?_⟩
  · have hnodup := hfits.wellFormed.nodup
    rw [hids, List.nodup_append] at hnodup
    intro hmem
    exact hnodup.2.2 v.id (by rw [← hfront]; exact hmem) v.id (by simp) rfl
  · rw [← harity]
    exact hfits.wellFormed.arity_pos last hmem
  · rw [hfits.wellFormed.size_cells, haxes, count_append_singleton, harity]

theorem length_of_mem_rows (ht : t.Fits sizes) (hv : t.mentions v) (hsize : v.arity = sizes v.id) :
    ∀ row ∈ rows v.arity (t.moveLast v).cells, row.length = v.arity := by
  obtain ⟨front, -, -, -, -, -, hpos, hcells⟩ := exists_axes_moveLast ht hv hsize
  intro row hrow
  rw [rows_eq hpos hcells] at hrow
  obtain ⟨i, -, rfl⟩ := List.mem_map.mp hrow
  simp

theorem Fits.replaceRows (ht : t.Fits sizes) (hv : t.mentions v) (hsize : v.arity = sizes v.id)
    {g : List α → List α} (hg : ∀ row, row.length = v.arity → (g row).length = v.arity) :
    (replaceRows g t v).Fits sizes := by
  obtain ⟨hfits, -⟩ := ht.moveLast hv hsize
  obtain ⟨front, -, -, -, -, -, hpos, hcells⟩ := exists_axes_moveLast ht hv hsize
  have hlength : ∀ row ∈ rows v.arity (t.moveLast v).cells, (g row).length = v.arity :=
    fun row hrow => hg row (length_of_mem_rows ht hv hsize row hrow)
  refine ⟨Shaped.wellFormed ⟨hfits.wellFormed.nodup, hfits.wellFormed.arity_pos, ?_⟩, hfits.sized⟩
  have hcount : (rows v.arity (t.moveLast v).cells).length = front.count := by
    rw [rows_eq hpos hcells]
    simp
  change ((rows v.arity (t.moveLast v).cells).flatMap g).toArray.size = _
  rw [List.size_toArray, length_flatMap_of_length hlength, hcount, ← hcells,
    hfits.wellFormed.size_cells]
  rfl

/-! ### Other handles of the axes -/

omit [Cell α] in
theorem Fits.of_ids (ht : t.Fits sizes) {axes : Axes} (haxes : axes.Sized sizes)
    (hids : axes.ids = t.axes.ids) : (⟨axes, t.cells⟩ : Table α).Fits sizes := by
  have harities : axes.arities = t.axes.arities := by
    rw [haxes.arities, ht.sized.arities, hids]
  refine ⟨⟨?_, fun v hv => ?_, ?_, rfl⟩, haxes⟩
  · rw [hids]
    exact ht.wellFormed.nodup
  · obtain ⟨w, hw, hid⟩ := Axes.mem_ids.mp
      (show v.id ∈ t.axes.ids from hids ▸ Axes.mem_ids_of_mem hv)
    rw [haxes v hv, ← hid, ← ht.sized w hw]
    exact ht.wellFormed.arity_pos w hw
  · rw [Axes.count, harities]
    exact ht.wellFormed.size_cells

/-- The handles of the axes matter only for their identities and numbers of outcomes. -/
theorem valueAt_of_ids {axes : Axes} (ht : t.axes.Sized sizes) (haxes : axes.Sized sizes)
    (hids : axes.ids = t.axes.ids) (x : Assignment) :
    (⟨axes, t.cells⟩ : Table α).valueAt x = t.valueAt x := by
  have hstrides : Axes.distances axes = t.axes.distances := by
    rw [Axes.distances, Axes.distances, ht.arities, haxes.arities, hids]
  rw [valueAt, valueAt, Assignment.on_eq_map_ids, Assignment.on_eq_map_ids, hstrides, hids]
  rfl

/-- The cell at the place of an assignment in row-major order. -/
theorem Fits.getElem?_cells (ht : t.Fits sizes) {order : Axes} (horder : order.Sized sizes)
    (hids : t.axes.ids = order.ids) {x : Assignment} (hx : x.Valid sizes) :
    t.cells.toList[Layout.offset order.distances (x.on order)]? = some (t.valueAt x) := by
  have hfits := ht.of_ids horder hids.symm
  have hlt : Layout.offset order.distances (x.on order) < t.cells.toList.length := by
    rw [Array.length_toList, hfits.wellFormed.size_cells]
    exact Layout.offset_lt (Assignment.inRange_on.mpr (hx.inRange horder))
  rw [List.getElem?_eq_getElem hlt, ← valueAt_of_ids ht.sized horder hids.symm, valueAt,
    read_eq_getD_toList]
  exact congrArg some (List.getD_eq_getElem _ _ hlt).symm

/-- The row of an assignment in a table whose last axis is a given variable. -/
theorem Fits.getElem?_rows_of_ids (ht : t.Fits sizes) {front : Axes}
    (hids : t.axes.ids = Axes.ids (front ++ [v])) (hsized : Axes.Sized sizes (front ++ [v]))
    (hx : x.Valid sizes) :
    (rows v.arity t.cells)[Layout.offset front.distances (x.on front)]? = some (rowAt t v x) := by
  have hfits := ht.of_ids hsized hids.symm
  have hv : v ∈ front ++ [v] := by simp
  have hpos := hfits.wellFormed.arity_pos v hv
  have hcells : t.cells.size = front.count * v.arity := by
    rw [← count_append_singleton]
    exact hfits.wellFormed.size_cells
  have hfree : v.id ∉ Axes.ids front := fun hmem => by
    have hnodup := hfits.wellFormed.nodup
    rw [Axes.ids_append, List.nodup_append] at hnodup
    exact hnodup.2.2 v.id hmem v.id (by simp) rfl
  have hfront : x.InRange front := (hx.inRange hsized).subset (List.subset_append_left _ _)
  have hindex : Layout.offset front.distances (x.on front) < front.count :=
    Layout.offset_lt (Assignment.inRange_on.mpr hfront)
  rw [rows_eq hpos hcells, List.getElem?_map, List.getElem?_range hindex]
  refine congrArg some (List.map_congr_left fun k _ => ?_)
  rw [← valueAt_of_ids ht.sized hsized hids.symm, valueAt, offset_append_singleton,
    Assignment.on_set_of_notMem x hfree, Assignment.set_same]
  rfl

/-! ### Cells by assignments -/

section

variable [Cell.LeftUnital α]

theorem Fits.valueAt_reordered (ht : t.Fits sizes) {order : Axes}
    (hids : order.ids.Perm t.axes.ids) (hsized : order.Sized sizes) (hx : x.Valid sizes) :
    (t.reordered order).valueAt x = t.valueAt x := by
  rw [Table.reordered, valueAt_combine (by simp) (hx.inRange hsized), cellAt, List.map_singleton,
    Fold.fold_product_singleton,
    offset_ofTable ht.wellFormed.nodup (hids.nodup_iff.mpr ht.wellFormed.nodup) hids.symm.subset]
  rfl

theorem Fits.valueAt_rearrange (ht : t.Fits sizes) {order : Axes}
    (hids : order.ids.Perm t.axes.ids) (hsized : order.Sized sizes) (hx : x.Valid sizes) :
    (t.rearrange order).valueAt x = t.valueAt x := by
  rw [rearrange_eq]
  split
  · rfl
  · exact ht.valueAt_reordered hids hsized hx

theorem Fits.valueAt_moveLast (ht : t.Fits sizes) (hv : t.mentions v)
    (hsize : v.arity = sizes v.id) (hx : x.Valid sizes) :
    (t.moveLast v).valueAt x = t.valueAt x :=
  ht.valueAt_rearrange (perm_ids_moveLast hv) (ht.sized_moveLast hsize) hx

/-- The row of an assignment after a variable has been moved to the last place. -/
theorem Fits.getElem?_rows (ht : t.Fits sizes) (hv : t.mentions v) (hsize : v.arity = sizes v.id) :
    ∃ row : Assignment → ℕ,
      (∀ y : Assignment, Layout.offset (t.moveLast v).axes.distances (y.on (t.moveLast v).axes) =
        row y * v.arity + y v.id) ∧
      ∀ x : Assignment, x.Valid sizes →
        (rows v.arity (t.moveLast v).cells)[row x]? = some (rowAt t v x) := by
  obtain ⟨hfits, -⟩ := ht.moveLast hv hsize
  obtain ⟨front, last, haxes, hid, harity, -, -, -⟩ := exists_axes_moveLast ht hv hsize
  have hids : (t.moveLast v).axes.ids = Axes.ids (front ++ [v]) := by
    rw [haxes, Axes.ids_append, Axes.ids_append]
    simp [hid]
  have hsized : Axes.Sized sizes (front ++ [v]) := by
    intro u hu
    rcases List.mem_append.mp hu with hu | hu
    · exact hfits.sized u (by rw [haxes]; exact List.mem_append_left _ hu)
    · rw [List.mem_singleton.mp hu, hsize]
  refine ⟨fun y => Layout.offset front.distances (y.on front), fun y => ?_, fun x hx => ?_⟩
  · rw [haxes, offset_append_singleton, harity, hid]
  · rw [hfits.getElem?_rows_of_ids hids hsized hx]
    refine congrArg some (List.map_congr_left fun k hk => ht.valueAt_moveLast hv hsize (hx.set ?_))
    rw [← hsize]
    exact List.mem_range.mp hk

/-- The cells of replaced rows come from the rows of the given table. -/
theorem Fits.valueAt_replaceRows (ht : t.Fits sizes) (hv : t.mentions v)
    (hsize : v.arity = sizes v.id) {g : List α → List α}
    (hg : ∀ row, row.length = v.arity → (g row).length = v.arity) (hx : x.Valid sizes) :
    (Table.replaceRows g t v).valueAt x = (g (rowAt t v x)).getD (x v.id) 0 := by
  obtain ⟨row, hoffset, hrow⟩ := ht.getElem?_rows hv hsize
  have hlength : ∀ row ∈ rows v.arity (t.moveLast v).cells, (g row).length = v.arity :=
    fun row hrow => hg row (length_of_mem_rows ht hv hsize row hrow)
  have hxv : x v.id < v.arity := by
    rw [hsize]
    exact hx v.id
  have hread : (Table.replaceRows g t v).valueAt x =
      ((rows v.arity (t.moveLast v).cells).flatMap g).getD
        (Layout.offset (t.moveLast v).axes.distances (x.on (t.moveLast v).axes)) 0 := by
    rw [valueAt, read_eq_getD_toList]
    rfl
  rw [hread, hoffset, getD_flatMap hlength hxv (hrow x hx)]

theorem Fits.rowAt_replaceRows (ht : t.Fits sizes) (hv : t.mentions v)
    (hsize : v.arity = sizes v.id) {g : List α → List α}
    (hg : ∀ row, row.length = v.arity → (g row).length = v.arity) (hx : x.Valid sizes) :
    rowAt (Table.replaceRows g t v) v x = g (rowAt t v x) := by
  have hlength := hg _ (length_rowAt t v x)
  refine List.ext_getElem (by rw [length_rowAt, hlength]) fun k hk hk' => ?_
  have hset : (x.set v k).Valid sizes := hx.set (by omega)
  have hvalue := ht.valueAt_replaceRows hv hsize hg hset
  rw [rowAt_set, Assignment.set_same, List.getD_eq_getElem _ _ hk'] at hvalue
  simp only [rowAt, List.getElem_map, List.getElem_range, hvalue]

end

end

/-! ### Rules -/

section

variable {α : Type} [Cell α]

/-- A row of numbers has a best choice, the largest of them. -/
theorem bestShares?_of_isNumber [Cell.Ordered α] {row : List α} (hne : row ≠ [])
    (hrow : ∀ a ∈ row, Cell.IsNumber a) :
    ∃ best, (best ∈ row ∧ ∀ a ∈ row, ¬Cell.less best a) ∧ 0 < row.countP (· == best) ∧
      bestShares? row =
        some (row.map fun a => if a == best then 1 / (row.countP (· == best) : α) else 0) := by
  obtain ⟨best, hbest⟩ : ∃ best, Cell.largest? row = some best := by
    cases row with
    | nil => exact absurd rfl hne
    | cons a row => exact ⟨_, rfl⟩
  have hspec := Cell.largest?_spec hrow hbest
  have hties : 0 < row.countP (· == best) :=
    List.countP_pos_iff.mpr ⟨best, hspec.1, hrow best hspec.1⟩
  refine ⟨best, hspec, hties, ?_⟩
  rw [bestShares?, hbest, Option.bind_some]
  exact if_neg hties.ne'

/-- Rows that have best choices are replaced by them. -/
theorem bestRows_eq {rows : List (List α)} {g : List α → List α}
    (h : ∀ row ∈ rows, bestShares? row = some (g row)) (state : ℕ) :
    bestRows state rows = .ok (rows.flatMap g) := by
  induction rows generalizing state with
  | nil => rfl
  | cons row rows ih =>
      obtain ⟨hrow, hrows⟩ := List.forall_mem_cons.mp h
      rw [bestRows, hrow, ih hrows]
      rfl

end

variable {t : Table ℚ}

/-- The shares of a row: the best cells share the mass equally. -/
def shares (row : List ℚ) : List ℚ := (bestShares? row).getD []

theorem bestShares?_eq {row : List ℚ} (h : row ≠ []) :
    ∃ best, (best ∈ row ∧ ∀ a ∈ row, a ≤ best) ∧ 0 < row.countP (· == best) ∧
      bestShares? row =
        some (row.map fun a => if a == best then 1 / (row.countP (· == best) : ℚ) else 0) := by
  obtain ⟨best, ⟨hmem, hle⟩, hshares⟩ := bestShares?_of_isNumber h fun a _ => Cell.isNumber_rat a
  exact ⟨best, ⟨hmem, fun a ha => by simpa using hle a ha⟩, hshares⟩

theorem bestShares?_eq_shares {row : List ℚ} (h : row ≠ []) : bestShares? row = some (shares row) := by
  obtain ⟨best, -, -, heq⟩ := bestShares?_eq h
  rw [shares, heq, Option.getD_some]

theorem length_shares (row : List ℚ) : (shares row).length = row.length := by
  by_cases h : row = []
  · rw [h]
    rfl
  · obtain ⟨best, -, -, heq⟩ := bestShares?_eq h
    rw [shares, heq, Option.getD_some, List.length_map]

/-- In every state of the other variables the function is a distribution over the outcomes of a
variable. -/
structure IsConditional (sizes : VariableId → ℕ) (v : Variable) (F : Assignment → ℚ) : Prop where
  nonneg : ∀ x : Assignment, x.Valid sizes → 0 ≤ F x
  sum_one : ∀ x : Assignment, x.Valid sizes → ∑ k ∈ Finset.range v.arity, F (x.set v k) = 1

/-- Cells are not negative, and the rows along the last axis add up to one. -/
def IsStochastic (t : Table ℚ) (v : Variable) : Prop :=
  (∀ a ∈ t.cells.toList, 0 ≤ a) ∧ ∀ row ∈ rows v.arity t.cells, row.sum = 1

instance (t : Table ℚ) (v : Variable) : Decidable (t.IsStochastic v) :=
  inferInstanceAs (Decidable (_ ∧ _))

/-- The rows along the last axis add up to one. -/
def AddsUp (t : Table ℚ) (v : Variable) : Prop := ∀ row ∈ rows v.arity t.cells, row.sum = 1

instance (t : Table ℚ) (v : Variable) : Decidable (t.AddsUp v) :=
  inferInstanceAs (Decidable (∀ _ ∈ _, _))

theorem valueAt_nonneg (h : ∀ a ∈ t.cells.toList, 0 ≤ a) (x : Assignment) : 0 ≤ t.valueAt x := by
  rw [valueAt, read_eq_getD_toList, List.getD_eq_getElem?_getD]
  cases hcell : t.cells.toList[Layout.offset t.axes.distances (x.on t.axes)]? with
  | none => exact le_refl 0
  | some a => exact h a (List.mem_of_getElem? hcell)

/-- A table whose rows add up to one does so over its last axis. -/
theorem Fits.sum_valueAt_set (ht : t.Fits sizes) {front : Axes} (haxes : t.axes = front ++ [v])
    (h : t.AddsUp v) {x : Assignment} (hx : x.Valid sizes) :
    ∑ k ∈ Finset.range v.arity, t.valueAt (x.set v k) = 1 := by
  have hmem : v ∈ t.axes := by
    rw [haxes]
    simp
  obtain ⟨row, -, hrow⟩ :=
    ht.getElem?_rows (mentions_iff.mpr (Axes.mem_ids_of_mem hmem)) (ht.sized v hmem)
  rw [moveLast_of_last haxes ht.wellFormed.nodup] at hrow
  exact h _ (List.mem_of_getElem? (hrow x hx))

theorem IsConditional.congr {F G : Assignment → ℚ} (h : IsConditional sizes v F)
    (hsize : v.arity = sizes v.id) (hG : ∀ x : Assignment, x.Valid sizes → G x = F x) :
    IsConditional sizes v G := by
  refine ⟨fun x hx => ?_, fun x hx => ?_⟩
  · rw [hG x hx]
    exact h.nonneg x hx
  · rw [← h.sum_one x hx]
    refine Finset.sum_congr rfl fun k hk => hG _ (hx.set ?_)
    rw [← hsize]
    exact Finset.mem_range.mp hk

/-- In every state the rule is a distribution over the outcomes of a decision that have the largest
value. -/
structure IsBestRule (sizes : VariableId → ℕ) (decision : Variable) (value rule : Assignment → ℚ) :
    Prop extends IsConditional sizes decision rule where
  pos_iff : ∀ x : Assignment, x.Valid sizes →
    (0 < rule x ↔ ∀ k < decision.arity, value (x.set decision k) ≤ value x)

/-- Equal parts of one add up to one. -/
theorem sum_ties {row : List ℚ} {best : ℚ} (hties : 0 < row.countP (· == best)) :
    (row.map fun a => if a == best then 1 / (row.countP (· == best) : ℚ) else 0).sum = 1 := by
  have hsum : ∀ (l : List ℚ) (c : ℚ),
      (l.map fun a => if a == best then c else 0).sum = l.countP (· == best) * c := by
    intro l c
    induction l with
    | nil => simp
    | cons a l ih =>
        rw [List.map_cons, List.sum_cons, ih, List.countP_cons]
        split
        · push_cast
          ring
        · simp
  rw [hsum]
  exact mul_one_div_cancel (by exact_mod_cast hties.ne')

theorem sum_shares {row : List ℚ} (h : row ≠ []) : (shares row).sum = 1 := by
  obtain ⟨best, -, hties, heq⟩ := bestShares?_eq h
  rw [shares, heq, Option.getD_some, sum_ties hties]

theorem sum_getD (row : List ℚ) : ∑ k ∈ Finset.range row.length, row.getD k 0 = row.sum := by
  induction row with
  | nil => rfl
  | cons a row ih =>
      rw [List.length_cons, Finset.sum_range_succ', List.sum_cons, ← ih, add_comm]
      simp

/-- Taking the best choice row by row gives a best rule. -/
theorem Fits.isBestRule (ht : t.Fits sizes) (hv : t.mentions v) (hsize : v.arity = sizes v.id) :
    t.rule v = .ok (Table.replaceRows shares t v) ∧
      IsBestRule sizes v t.valueAt (Table.replaceRows shares t v).valueAt := by
  have hvalue : ∀ x : Assignment, x.Valid sizes → (Table.replaceRows shares t v).valueAt x =
      (shares (rowAt t v x)).getD (x v.id) 0 := fun x hx =>
    ht.valueAt_replaceRows hv hsize (fun row hrow => by rw [length_shares, hrow]) hx
  obtain ⟨-, -, -, -, -, -, hpos, -⟩ := exists_axes_moveLast ht hv hsize
  have hne : ∀ x, rowAt t v x ≠ [] := fun x h => by
    have := length_rowAt t v x
    rw [h, List.length_nil] at this
    omega
  have hset : ∀ (x : Assignment) (k : ℕ), k < v.arity → x.Valid sizes →
      (x.set v k).Valid sizes := fun x k hk hx => hx.set (by rwa [← hsize])
  have hshare : ∀ x : Assignment, x.Valid sizes → ∃ best ties : ℚ, 0 < ties ∧
      (∃ k < v.arity, t.valueAt (x.set v k) = best) ∧
      (∀ k < v.arity, t.valueAt (x.set v k) ≤ best) ∧
      (Table.replaceRows shares t v).valueAt x = if t.valueAt x = best then 1 / ties else 0 := by
    intro x hx
    obtain ⟨best, ⟨hmem, hle⟩, hties, heq⟩ := bestShares?_eq (hne x)
    refine ⟨best, _, Nat.cast_pos.mpr hties, ?_, fun k hk => ?_, ?_⟩
    · obtain ⟨k, hk, heq⟩ := List.mem_map.mp hmem
      exact ⟨k, List.mem_range.mp hk, heq⟩
    · exact hle _ (List.mem_map_of_mem (List.mem_range.mpr hk))
    · have hxv : x v.id < v.arity := by
        rw [hsize]
        exact hx v.id
      have hlt : x v.id < (rowAt t v x).length := by simpa using hxv
      have hcell : (rowAt t v x)[x v.id] = t.valueAt x := by
        simp [rowAt, Assignment.set_self]
      rw [hvalue x hx, shares, heq, Option.getD_some, List.getD_eq_getElem _ _ (by simpa using hxv),
        List.getElem_map, hcell]
      simp only [beq_iff_eq]
  refine ⟨?_, ⟨⟨fun x hx => ?_, fun x hx => ?_⟩, fun x hx => ?_⟩⟩
  · have hrows : ∀ row ∈ rows v.arity (t.moveLast v).cells, bestShares? row = some (shares row) := by
      intro row hrow
      apply bestShares?_eq_shares
      rw [← List.length_pos_iff, length_of_mem_rows ht hv hsize row hrow]
      exact hpos
    rw [Table.rule, bestRows_eq hrows]
    rfl
  · obtain ⟨best, ties, hties, -, -, heq⟩ := hshare x hx
    rw [heq]
    split
    · exact (one_div_pos.mpr hties).le
    · exact le_refl 0
  · have hsum : ∑ k ∈ Finset.range v.arity, (Table.replaceRows shares t v).valueAt (x.set v k) =
        ∑ k ∈ Finset.range (shares (rowAt t v x)).length, (shares (rowAt t v x)).getD k 0 := by
      rw [length_shares, length_rowAt]
      refine Finset.sum_congr rfl fun k hk => ?_
      rw [hvalue _ (hset x k (Finset.mem_range.mp hk) hx), rowAt_set, Assignment.set_same]
    rw [hsum, sum_getD, sum_shares (hne x)]
  · obtain ⟨best, ties, hties, ⟨k, hk, hbest⟩, hle, heq⟩ := hshare x hx
    rw [heq]
    by_cases h : t.valueAt x = best
    · rw [if_pos h, h]
      exact iff_of_true (one_div_pos.mpr hties) hle
    · rw [if_neg h]
      refine iff_of_false (lt_irrefl 0) fun hall => h (le_antisymm ?_ ?_)
      · have := hle (x v.id) (by rw [hsize]; exact hx v.id)
        rwa [Assignment.set_self] at this
      · rw [← hbest]
        exact hall k hk

/-! ### Shares -/

theorem shares_eq {row : List ℚ} (h : row ≠ []) :
    shares row = row.map fun a => if ∀ b ∈ row, b ≤ a then
      1 / (row.countP fun a => ∀ b ∈ row, b ≤ a : ℚ) else 0 := by
  obtain ⟨best, ⟨hmem, hle⟩, -, heq⟩ := bestShares?_eq h
  have hbest : ∀ a ∈ row, (a == best) = decide (∀ b ∈ row, b ≤ a) := by
    intro a ha
    rw [Bool.eq_iff_iff, beq_iff_eq, decide_eq_true_iff]
    constructor
    · rintro rfl
      exact hle
    · exact fun hall => le_antisymm (hle a ha) (hall best hmem)
  rw [shares, heq, Option.getD_some]
  refine List.map_congr_left fun a ha => ?_
  rw [hbest a ha, List.countP_congr fun a ha => by rw [hbest a ha]]
  simp only [decide_eq_true_eq]

/-- The shares of a row depend only on the order of its cells. -/
theorem shares_map_range_congr {n : ℕ} {f g : ℕ → ℚ}
    (h : ∀ j < n, ∀ k < n, f j ≤ f k ↔ g j ≤ g k) :
    shares ((List.range n).map f) = shares ((List.range n).map g) := by
  rcases Nat.eq_zero_or_pos n with rfl | hn
  · rfl
  have hne : ∀ f : ℕ → ℚ, (List.range n).map f ≠ [] := fun f hnil => by
    have := congrArg List.length hnil
    simp at this
    omega
  have hbest : ∀ k ∈ List.range n, (∀ b ∈ (List.range n).map f, b ≤ f k) ↔
      ∀ b ∈ (List.range n).map g, b ≤ g k := by
    intro k hk
    rw [List.forall_mem_map, List.forall_mem_map]
    exact forall₂_congr fun j hj => h j (List.mem_range.mp hj) k (List.mem_range.mp hk)
  have hcount : ((List.range n).map f).countP (fun a => ∀ b ∈ (List.range n).map f, b ≤ a) =
      ((List.range n).map g).countP fun a => ∀ b ∈ (List.range n).map g, b ≤ a := by
    rw [List.countP_map, List.countP_map]
    exact List.countP_congr fun k hk => by simpa using hbest k hk
  rw [shares_eq (hne f), shares_eq (hne g), hcount, List.map_map, List.map_map]
  exact List.map_congr_left fun k hk => by simp only [Function.comp_apply, hbest k hk]

/-- The mass that the best rule of a function gives to the outcome of a decision. -/
def bestShare (v : Variable) (value : Assignment → ℚ) (x : Assignment) : ℚ :=
  (shares ((List.range v.arity).map fun k => value (x.set v k))).getD (x v.id) 0

theorem Fits.valueAt_rule (ht : t.Fits sizes) (hv : t.mentions v) (hsize : v.arity = sizes v.id)
    (hx : x.Valid sizes) :
    (Table.replaceRows shares t v).valueAt x = bestShare v t.valueAt x :=
  ht.valueAt_replaceRows hv hsize (fun row hrow => by rw [length_shares, hrow]) hx

/-- Functions that order the outcomes of a decision alike have the same best rule. -/
theorem bestShare_congr {F G : Assignment → ℚ} (harity : v.arity = w.arity) (hxy : x v.id = y w.id)
    (h : ∀ j < v.arity, ∀ k < v.arity,
      F (x.set v j) ≤ F (x.set v k) ↔ G (y.set w j) ≤ G (y.set w k)) :
    bestShare v F x = bestShare w G y := by
  rw [bestShare, bestShare, ← harity, ← hxy,
    shares_map_range_congr fun j hj k hk => h j hj k hk]

end Table

end Influence
