import Influence.Proofs.Table.Value

/-! # The shape of tables

What an operation does to the axes and to the number of the cells, in whatever build: the table that is
made has as many cells as the build counts joint outcomes of its axes (`Table.Shaped`).

Moving a variable to the last place makes a new table only if it is not there already
(`moveLast_of_last`).  Rows of cells along the last axis are replaced by rows of the same length, so the
number of the cells stays (`Shaped.normalizeFor`, `Shaped.of_rule`). -/

namespace Influence

theorem Build.word_of_lt [Build] {n : ℕ} (h : n < room) : word n = n :=
  word_of_holds n (holds_of_lt n h) n (Nat.le_refl n)

theorem Axes.size_of_lt [Build] {axes : Axes} (h : axes.count < Build.room) :
    axes.size = axes.count := Build.word_of_lt h

/-- With few joint outcomes a table has a cell for each of them. -/
theorem Table.Shaped.wellFormed_of_lt [Build] {α : Type} {t : Table α} (ht : t.Shaped)
    (h : t.axes.count < Build.room) : t.WellFormed := by
  have hsize : t.cells.size = t.axes.count := ht.size_cells.trans (Axes.size_of_lt h)
  exact ⟨ht.nodup, ht.arity_pos, hsize, hsize ▸ Build.holds_of_lt _ h⟩

/-- A variable has outcomes if an axis has its identity and as many. -/
theorem Axes.Sized.arity_pos {sizes : VariableId → ℕ} {axes : Axes} (h : axes.Sized sizes)
    (hpos : ∀ w ∈ axes, 0 < w.arity) {v : Variable} (hv : v.id ∈ axes.ids)
    (hsize : v.arity = sizes v.id) : 0 < v.arity := by
  obtain ⟨w, hw, hid⟩ := Axes.mem_ids.mp hv
  rw [hsize, ← hid, ← h w hw]
  exact hpos w hw

theorem Layout.size_eq_of_perm {as bs : List ℕ} (h : as.Perm bs) : size as = size bs := by
  induction h with
  | nil => rfl
  | cons a _ ih => rw [size_cons, size_cons, ih]
  | swap a b as => simp only [size_cons, Nat.mul_left_comm]
  | trans _ _ ih ih' => exact ih.trans ih'

/-- Axes of the same variables have as many joint outcomes. -/
theorem Axes.Sized.count_eq {sizes : VariableId → ℕ} {axes axes' : Axes} (h : axes.Sized sizes)
    (h' : axes'.Sized sizes) (hids : axes.ids.Perm axes'.ids) : axes.count = axes'.count := by
  refine Layout.size_eq_of_perm ?_
  rw [h.arities, h'.arities]
  exact hids.map sizes

namespace Table

variable {α : Type} {t t' : Table α} {v w : Variable} {sizes : VariableId → ℕ}

/-! ### Rows of cells -/

/-- The rows are the cells. -/
theorem flatten_rows {width : ℕ} (hwidth : 0 < width) (cells : Array α) :
    (rows width cells).flatten = cells.toList := by
  have hrows : ∀ n, ((List.range n).map fun i =>
      (cells.extract (i * width) (i * width + width)).toList).flatten =
        cells.toList.take (n * width) := by
    intro n
    induction n with
    | zero => simp
    | succ n ih =>
        rw [List.range_succ, List.map_append, List.flatten_append, ih, Nat.succ_mul, List.take_add]
        simp [List.extract_eq_take_drop]
  rw [rows, hrows]
  refine List.take_of_length_le ?_
  rw [Array.length_toList]
  have := Nat.lt_div_mul_add (a := cells.size + width - 1) hwidth
  omega

theorem length_flatMap_rows {width : ℕ} (hwidth : 0 < width) (cells : Array α) {g : List α → List α}
    (hg : ∀ row, (g row).length = row.length) :
    ((rows width cells).flatMap g).length = cells.size := by
  rw [List.length_flatMap, List.map_congr_left fun row _ => hg row, ← List.length_flatten,
    flatten_rows hwidth, Array.length_toList]

section

variable [Cell α]

theorem length_of_bestShares? {row shares : List α} (h : bestShares? row = some shares) :
    shares.length = row.length := by
  unfold bestShares? at h
  obtain ⟨best, -, h⟩ := Option.bind_eq_some_iff.mp h
  dsimp only at h
  split at h
  · cases h
  · rw [← Option.some.inj h, List.length_map]

theorem length_of_bestRows {state : ℕ} {rs : List (List α)} {cells : List α}
    (h : bestRows state rs = .ok cells) : cells.length = rs.flatten.length := by
  induction rs generalizing state cells with
  | nil =>
      cases h
      rfl
  | cons row rs ih =>
      rw [bestRows] at h
      split at h
      · cases h
      next shares hshares =>
        cases hrest : bestRows (state + 1) rs with
        | error e =>
            rw [hrest] at h
            cases h
        | ok rest =>
            rw [hrest] at h
            cases h
            rw [List.length_append, List.flatten_cons, List.length_append, ih hrest,
              length_of_bestShares? hshares]

end

/-! ### Moving a variable to the last place -/

theorem perm_ids_moveLast (hv : t.mentions v) :
    (t.axes.without v ++ [v]).ids.Perm t.axes.ids := by
  obtain ⟨w, -, hid, hperm⟩ := Axes.perm_cons_without hv
  refine List.Perm.trans ?_ (hperm.map (·.id)).symm
  rw [Axes.ids_append, List.map_cons, hid]
  exact List.perm_append_comm

/-- The identities stay where they are if a handle of the variable is the last axis already. -/
theorem ids_without_append_of_last {axes front : Axes} (haxes : axes = front ++ [w])
    (hid : w.id = v.id) (hnodup : axes.ids.Nodup) : (axes.without v ++ [v]).ids = axes.ids := by
  rw [haxes, Axes.ids_append, List.nodup_append] at hnodup
  have hfree : ∀ u ∈ front, ¬u.id = v.id := fun u hu huv =>
    hnodup.2.2 u.id (Axes.mem_ids_of_mem hu) w.id (by simp) (huv.trans hid.symm)
  have hwithout : axes.without v = front := by
    rw [haxes, Axes.without, List.eraseP_append_right _ (by simpa using hfree)]
    simp [hid]
  rw [hwithout, haxes, Axes.ids_append, Axes.ids_append]
  simp [hid]

variable [Build] [Cell α]

/-- Nothing moves if a handle of the variable is the last axis already. -/
theorem moveLast_of_id_last {front : Axes} (haxes : t.axes = front ++ [w]) (hid : w.id = v.id)
    (hnodup : t.axes.ids.Nodup) : t.moveLast v = t := by
  rw [Table.moveLast, Table.rearrange,
    if_pos (beq_iff_eq.mpr (ids_without_append_of_last haxes hid hnodup))]

theorem moveLast_of_last {front : Axes} (haxes : t.axes = front ++ [v])
    (hnodup : t.axes.ids.Nodup) : t.moveLast v = t := moveLast_of_id_last haxes rfl hnodup

omit [Build] in
/-- A rule has the decision as its last axis. -/
theorem axes_of_rule {B : Build} (h : t.rule v = .ok t') : t'.axes = (t.moveLast v).axes := by
  simp only [rule] at h
  cases hrows : bestRows 0 (rows v.arity (t.moveLast v).cells) with
  | error state =>
      rw [hrows] at h
      cases h
  | ok cells =>
      rw [hrows] at h
      cases h
      rfl

/-! ### The number of the cells -/

theorem Shaped.moveLast (ht : t.Shaped) (hv : t.mentions v) (hpos : 0 < v.arity) :
    (t.moveLast v).Shaped := by
  unfold Table.moveLast Table.rearrange
  split
  · exact ht
  · refine shaped_combine ((perm_ids_moveLast hv).nodup_iff.mpr ht.nodup) fun u hu => ?_
    rcases List.mem_append.mp hu with hu | hu
    · exact ht.arity_pos u (Axes.mem_of_mem_without hu)
    · rwa [List.mem_singleton.mp hu]

omit [Cell α] in
/-- A table stays shaped if its cells are replaced by as many others. -/
theorem Shaped.of_size (ht : t.Shaped) (haxes : t'.axes = t.axes)
    (hsize : t'.cells.size = t.cells.size) : t'.Shaped :=
  ⟨haxes ▸ ht.nodup, haxes ▸ ht.arity_pos, haxes ▸ hsize.trans ht.size_cells⟩

theorem Shaped.normalizeFor (ht : t.Shaped) (hv : t.mentions v) (hpos : 0 < v.arity) :
    (t.normalizeFor v).Shaped := by
  refine (ht.moveLast hv hpos).of_size rfl ?_
  exact List.size_toArray.trans (length_flatMap_rows hpos _ fun row => Cell.length_normalize row)

theorem Shaped.of_rule (ht : t.Shaped) (hv : t.mentions v) (hpos : 0 < v.arity)
    (h : t.rule v = .ok t') : t'.Shaped := by
  refine (ht.moveLast hv hpos).of_size (axes_of_rule h) ?_
  simp only [rule] at h
  cases hrows : bestRows 0 (rows v.arity (t.moveLast v).cells) with
  | error state =>
      rw [hrows] at h
      cases h
  | ok cells =>
      rw [hrows] at h
      cases h
      rw [List.size_toArray, length_of_bestRows hrows, flatten_rows hpos, Array.length_toList]

/-! ### Numbers of outcomes -/

omit [Build] [Cell α] in
theorem sized_without_append (ht : t.axes.Sized sizes) (hsize : v.arity = sizes v.id) :
    (t.axes.without v ++ [v]).Sized sizes := by
  intro w hw
  rcases List.mem_append.mp hw with hw | hw
  · exact ht w (Axes.mem_of_mem_without hw)
  · rwa [List.mem_singleton.mp hw]

theorem sized_moveLast (ht : t.axes.Sized sizes) (hsize : v.arity = sizes v.id) :
    (t.moveLast v).axes.Sized sizes := by
  unfold Table.moveLast Table.rearrange
  split
  · exact ht
  · exact sized_without_append ht hsize

theorem Shaped.rearrange {order : Axes} (ht : t.Shaped) (hsized : t.axes.Sized sizes)
    (horder : order.Sized sizes) (hids : order.ids.Perm t.axes.ids) : (t.rearrange order).Shaped := by
  unfold Table.rearrange
  split
  · exact ht
  · exact shaped_combine (hids.nodup_iff.mpr ht.nodup) fun v hv =>
      hsized.arity_pos ht.arity_pos (hids.mem_iff.mp (Axes.mem_ids_of_mem hv)) (horder v hv)

theorem sized_rearrange {order : Axes} (ht : t.axes.Sized sizes) (horder : order.Sized sizes) :
    (t.rearrange order).axes.Sized sizes := by
  unfold Table.rearrange
  split
  · exact ht
  · exact horder

end Table

end Influence
