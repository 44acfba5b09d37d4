import Influence.Proofs.Coordinates
import Influence.Table.Basic

/-! # Axes and assignments

Axes are compared by identity, so the facts below are about `Axes.ids`: which identities `union` and
`without` leave, and that both keep the axes distinct.

An `Assignment` is read along axes.  `Assignment.set` changes one outcome, and `Assignment.InRange`
says that the outcomes of some axes are outcomes of theirs.  `offset_on` writes the offset of a cell
as a sum over the axes, which does not depend on their order (`sum_strides_eq`). -/

namespace Influence

namespace Axes

/-! ### Identities -/

theorem mem_ids {axes : Axes} {id : VariableId} : id ∈ axes.ids ↔ ∃ v ∈ axes, v.id = id := by
  simp [ids]

theorem mem_ids_of_mem {axes : Axes} {v : Variable} (h : v ∈ axes) : v.id ∈ axes.ids :=
  mem_ids.mpr ⟨v, h, rfl⟩

theorem mentions_eq_false_iff {axes : Axes} {v : Variable} :
    mentions axes v = false ↔ v.id ∉ axes.ids := by
  rw [← Bool.not_eq_true, mentions_iff]

theorem mem_ids_filter_mentions {a b : Axes} {id : VariableId} :
    id ∈ (ids (a.filter fun v => !mentions b v)) ↔ id ∈ a.ids ∧ id ∉ b.ids := by
  simp only [mem_ids, List.mem_filter, Bool.not_eq_true', mentions_eq_false_iff]
  constructor
  · rintro ⟨v, ⟨hv, hfree⟩, rfl⟩
    exact ⟨⟨v, hv, rfl⟩, hfree⟩
  · rintro ⟨⟨v, hv, rfl⟩, hfree⟩
    exact ⟨v, ⟨hv, hfree⟩, rfl⟩

theorem mem_ids_flatMap {β : Type} {l : List β} {f : β → Axes} {id : VariableId} :
    id ∈ (ids (l.flatMap f)) ↔ ∃ b ∈ l, id ∈ (f b).ids := by
  simp only [mem_ids, List.mem_flatMap]
  constructor
  · rintro ⟨v, ⟨b, hb, hv⟩, hid⟩
    exact ⟨b, hb, v, hv, hid⟩
  · rintro ⟨b, hb, v, hv, hid⟩
    exact ⟨v, ⟨b, hb, hv⟩, hid⟩

@[simp] theorem length_ids (axes : Axes) : axes.ids.length = axes.length := by simp [ids]

theorem nodup_ids_cons {v : Variable} {axes : Axes} :
    (ids (v :: axes)).Nodup ↔ v.id ∉ axes.ids ∧ axes.ids.Nodup := List.nodup_cons

/-- Distinct axes are determined by their identities. -/
theorem eq_of_id_eq {axes : Axes} (h : axes.ids.Nodup) {v w : Variable} (hv : v ∈ axes)
    (hw : w ∈ axes) (hid : v.id = w.id) : v = w :=
  List.inj_on_of_nodup_map h hv hw hid

theorem nodup_of_ids {axes : Axes} (h : axes.ids.Nodup) : axes.Nodup := List.Nodup.of_map _ h

theorem ids_filter_sublist (p : Variable → Bool) (axes : Axes) :
    (ids (axes.filter p)).Sublist axes.ids :=
  List.filter_sublist.map _

theorem nodup_ids_filter {axes : Axes} (h : axes.ids.Nodup) (p : Variable → Bool) :
    (ids (axes.filter p)).Nodup :=
  h.sublist (ids_filter_sublist p axes)

/-- Axes are some of them and the others. -/
theorem perm_ids_filter_append {a b : Axes} (ha : a.ids.Nodup) (hb : b.ids.Nodup)
    (hsub : b.ids ⊆ a.ids) : a.ids.Perm (ids ((a.filter fun v => !mentions b v) ++ b)) := by
  refine (List.perm_ext_iff_of_nodup ha ?_).mpr fun id => ?_
  · rw [ids_append, List.nodup_append]
    refine ⟨nodup_ids_filter ha _, hb, ?_⟩
    rintro id hid _ hid' rfl
    exact (mem_ids_filter_mentions.mp hid).2 hid'
  · rw [ids_append, List.mem_append, mem_ids_filter_mentions]
    constructor
    · intro hid
      by_cases h : id ∈ b.ids
      · exact .inr h
      · exact .inl ⟨hid, h⟩
    · rintro (⟨hid, -⟩ | hid)
      · exact hid
      · exact hsub hid

/-! ### Axes without a variable -/

theorem without_sublist (axes : Axes) (v : Variable) : (axes.without v).Sublist axes :=
  List.eraseP_sublist

theorem mem_of_mem_without {axes : Axes} {v w : Variable} (h : w ∈ axes.without v) : w ∈ axes :=
  (without_sublist axes v).subset h

theorem nodup_without {axes : Axes} (h : axes.ids.Nodup) (v : Variable) :
    (axes.without v).ids.Nodup :=
  h.sublist ((without_sublist axes v).map _)

/-- The handle of a mentioned variable and the other axes are all the axes. -/
theorem perm_cons_without {axes : Axes} {v : Variable} (h : axes.mentions v) :
    ∃ w ∈ axes, w.id = v.id ∧ axes.Perm (w :: axes.without v) := by
  obtain ⟨w, hw, hid⟩ := mem_ids.mp (mentions_iff.mp h)
  obtain ⟨u, before, after, -, hu, rfl, herase⟩ :=
    List.exists_of_eraseP (p := (·.id == v.id)) hw (by simpa using hid)
  refine ⟨u, by simp, by simpa using hu, ?_⟩
  rw [without, herase]
  exact List.perm_middle

theorem mem_ids_without {axes : Axes} (h : axes.ids.Nodup) {v : Variable} {id : VariableId} :
    id ∈ (axes.without v).ids ↔ id ∈ axes.ids ∧ id ≠ v.id := by
  induction axes with
  | nil => simp [without]
  | cons u axes ih =>
      obtain ⟨hu, haxes⟩ := nodup_ids_cons.mp h
      by_cases huv : u.id = v.id
      · have herase : without (u :: axes) v = axes := List.eraseP_cons_of_pos (by simpa using huv)
        rw [herase, ids_cons, List.mem_cons]
        constructor
        · intro hid
          exact ⟨.inr hid, fun h' => hu (by rw [huv, ← h']; exact hid)⟩
        · rintro ⟨rfl | hid, hne⟩
          · exact absurd huv hne
          · exact hid
      · have herase : without (u :: axes) v = u :: without axes v :=
          List.eraseP_cons_of_neg (by simpa using huv)
        rw [herase, ids_cons, ids_cons, List.mem_cons, List.mem_cons, ih haxes]
        constructor
        · rintro (rfl | ⟨hid, hne⟩)
          · exact ⟨.inl rfl, huv⟩
          · exact ⟨.inr hid, hne⟩
        · rintro ⟨rfl | hid, hne⟩
          · exact .inl rfl
          · exact .inr ⟨hid, hne⟩

theorem filter_ne_of_notMem {axes : Axes} {v : Variable} (h : v.id ∉ axes.ids) :
    (axes.filter fun w => !(w.id == v.id)) = axes := by
  refine List.filter_eq_self.mpr fun w hw => ?_
  simp only [Bool.not_eq_true', beq_eq_false_iff_ne]
  exact fun hid => h (by rw [← hid]; exact mem_ids_of_mem hw)

theorem without_eq_filter {axes : Axes} (h : axes.ids.Nodup) (v : Variable) :
    axes.without v = axes.filter fun w => !(w.id == v.id) := by
  induction axes with
  | nil => rfl
  | cons u axes ih =>
      obtain ⟨hu, haxes⟩ := nodup_ids_cons.mp h
      by_cases huv : u.id = v.id
      · rw [without, List.eraseP_cons_of_pos (by simpa using huv),
          List.filter_cons_of_neg (by simpa using huv), filter_ne_of_notMem (by rwa [← huv])]
      · rw [without, List.eraseP_cons_of_neg (by simpa using huv),
          List.filter_cons_of_pos (by simpa using huv), ← ih haxes, without]

/-- Taking variables out one after the other leaves the axes of all others. -/
theorem foldl_without {axes : Axes} (h : axes.ids.Nodup) (vars : Axes) :
    vars.foldl without axes = axes.filter fun w => !mentions vars w := by
  induction vars generalizing axes with
  | nil => exact (List.filter_eq_self.mpr fun _ _ => rfl).symm
  | cons v vars ih =>
      rw [List.foldl_cons, ih (nodup_without h v), without_eq_filter h, List.filter_filter]
      refine List.filter_congr fun w _ => ?_
      rw [mentions, mentions, List.any_cons, Bool.not_or, Bool.and_comm, Bool.beq_comm]

/-! ### Unions -/

theorem mem_ids_union {seen axes : Axes} {id : VariableId} :
    id ∈ (union seen axes).ids ↔ id ∈ seen.ids ∨ id ∈ axes.ids := by
  induction axes generalizing seen with
  | nil => simp
  | cons v axes ih =>
      rw [union, ih]
      by_cases h : mentions seen v
      · have hv := mentions_iff.mp h
        simp only [h, if_true, ids_cons, List.mem_cons]
        constructor
        · rintro (hs | ha)
          · exact .inl hs
          · exact .inr (.inr ha)
        · rintro (hs | rfl | ha)
          · exact .inl hs
          · exact .inl hv
          · exact .inr ha
      · simp [h, or_assoc]

theorem mem_of_mem_union {seen axes : Axes} {v : Variable} (h : v ∈ union seen axes) :
    v ∈ seen ∨ v ∈ axes := by
  induction axes generalizing seen with
  | nil => exact .inl h
  | cons u axes ih =>
      rw [union] at h
      rcases ih h with hs | ha
      · split at hs
        · exact .inl hs
        · rcases List.mem_append.mp hs with hs | hu
          · exact .inl hs
          · exact .inr (by simp [List.mem_singleton.mp hu])
      · exact .inr (List.mem_cons_of_mem _ ha)

theorem nodup_union {seen : Axes} (axes : Axes) (h : seen.ids.Nodup) :
    (union seen axes).ids.Nodup := by
  induction axes generalizing seen with
  | nil => exact h
  | cons v axes ih =>
      rw [union]
      split
      next => exact ih h
      next hv =>
        refine ih ?_
        rw [ids_append, List.nodup_append]
        refine ⟨h, by simp, ?_⟩
        rintro a ha b hb rfl
        exact hv (mentions_iff.mpr (by simpa [List.mem_singleton.mp hb] using ha))

theorem firstRepeat?_eq_none_iff {seen axes : Axes} :
    firstRepeat? seen axes = none ↔ axes.ids.Nodup ∧ ∀ v ∈ axes, v.id ∉ seen.ids := by
  induction axes generalizing seen with
  | nil => simp [firstRepeat?]
  | cons v axes ih =>
      rw [firstRepeat?]
      split
      next hv =>
        have := mentions_iff.mp hv
        simp [this]
      next hv =>
        have hv' : v.id ∉ seen.ids := fun h => hv (mentions_iff.mpr h)
        simp only [ih, ids_append, ids_cons, ids_nil, List.mem_append, List.mem_singleton,
          List.nodup_cons, List.forall_mem_cons, hv', not_false_eq_true, true_and, not_or]
        constructor
        · rintro ⟨hnodup, hfresh⟩
          refine ⟨⟨fun hmem => ?_, hnodup⟩, fun w hw => (hfresh w hw).1⟩
          obtain ⟨w, hw, hid⟩ := mem_ids.mp hmem
          exact (hfresh w hw).2 hid
        · rintro ⟨⟨hfresh, hnodup⟩, hseen⟩
          exact ⟨hnodup, fun w hw => ⟨hseen w hw, fun h => hfresh (by rw [← h]; exact mem_ids_of_mem hw)⟩⟩

/-! ### Numbers of outcomes -/

/-- The axes have the numbers of outcomes that `sizes` gives to their variables. -/
def Sized (sizes : VariableId → ℕ) (axes : Axes) : Prop := ∀ v ∈ axes, v.arity = sizes v.id

theorem Sized.subset {sizes : VariableId → ℕ} {a b : Axes} (h : Sized sizes b) (hab : a ⊆ b) :
    Sized sizes a := fun v hv => h v (hab hv)

theorem Sized.arities {sizes : VariableId → ℕ} {axes : Axes} (h : Sized sizes axes) :
    axes.arities = axes.ids.map sizes := by
  rw [Axes.arities, Axes.ids, List.map_map]
  exact List.map_congr_left h

theorem Sized.without {sizes : VariableId → ℕ} {axes : Axes} (h : Sized sizes axes) (v : Variable) :
    Sized sizes (axes.without v) := fun w hw => h w (mem_of_mem_without hw)

theorem Sized.union {sizes : VariableId → ℕ} {axes : Axes} (h : Sized sizes axes) :
    Sized sizes (union [] axes) := by
  intro v hv
  rcases mem_of_mem_union hv with hv | hv
  · cases hv
  · exact h v hv

/-- Handles of one variable agree on its number of outcomes. -/
def Agree (handles : Axes) : Prop :=
  ∀ v ∈ handles, ∀ w ∈ handles, v.id = w.id → v.arity = w.arity

instance (handles : Axes) : Decidable handles.Agree :=
  inferInstanceAs (Decidable (∀ v ∈ handles, ∀ w ∈ handles, v.id = w.id → v.arity = w.arity))

/-- The numbers of outcomes that some handles give to their variables, and `other` for the rest. -/
def sizes (handles : Axes) (other : VariableId → ℕ) : VariableId → ℕ := fun id =>
  ((handles.find? (·.id == id)).map (·.arity)).getD (other id)

/-- Distinct handles agree. -/
theorem agree_of_nodup {handles : Axes} (h : handles.ids.Nodup) : handles.Agree :=
  fun _ hv _ hw hid => congrArg (·.arity) (eq_of_id_eq h hv hw hid)

theorem Agree.subset {a b : Axes} (h : b.Agree) (hab : a ⊆ b) : a.Agree :=
  fun v hv w hw => h v (hab hv) w (hab hw)

theorem Agree.sized {handles : Axes} (h : handles.Agree) (other : VariableId → ℕ) :
    Sized (handles.sizes other) handles := by
  intro v hv
  unfold sizes
  cases hfind : handles.find? (·.id == v.id) with
  | none => exact absurd (List.find?_eq_none.mp hfind v hv) (by simp)
  | some w =>
      have hid : w.id = v.id := by simpa using List.find?_some hfind
      exact h v hv w (List.mem_of_find?_eq_some hfind) hid.symm

theorem sizes_of_notMem {handles : Axes} {id : VariableId} (h : id ∉ handles.ids)
    (other : VariableId → ℕ) : handles.sizes other id = other id := by
  have hfind : handles.find? (·.id == id) = none :=
    List.find?_eq_none.mpr fun v hv hid => h (by
      rw [← beq_iff_eq.mp hid]
      exact mem_ids_of_mem hv)
  rw [sizes, hfind]
  rfl

theorem sizes_pos {handles : Axes} (h : ∀ v ∈ handles, 0 < v.arity) (id : VariableId) :
    0 < handles.sizes (fun _ => 1) id := by
  unfold sizes
  cases hfind : handles.find? (·.id == id) with
  | none => exact Nat.one_pos
  | some v => exact h v (List.mem_of_find?_eq_some hfind)

/-- One of the axes is a handle of the variable, with the same number of outcomes. -/
def Includes (axes : Axes) (v : Variable) : Prop := ∃ w ∈ axes, w.id = v.id ∧ w.arity = v.arity

instance (axes : Axes) (v : Variable) : Decidable (axes.Includes v) :=
  inferInstanceAs (Decidable (∃ w ∈ axes, w.id = v.id ∧ w.arity = v.arity))

theorem includes_of_mem {axes : Axes} {v : Variable} (h : v ∈ axes) : axes.Includes v :=
  ⟨v, h, rfl, rfl⟩

theorem Includes.mentions {axes : Axes} {v : Variable} (h : axes.Includes v) : axes.mentions v := by
  obtain ⟨w, hw, hid, -⟩ := h
  exact mentions_iff.mpr (mem_ids.mpr ⟨w, hw, hid⟩)

theorem Includes.sized {sizes : VariableId → ℕ} {axes : Axes} {v : Variable} (h : axes.Includes v)
    (hsized : axes.Sized sizes) : v.arity = sizes v.id := by
  obtain ⟨w, hw, hid, harity⟩ := h
  rw [← harity, ← hid, hsized w hw]

end Axes

/-! ### Assignments -/

namespace Assignment

/-- The assignment with another outcome of one variable. -/
def set (x : Assignment) (v : Variable) (k : ℕ) : Assignment := Function.update x v.id k

@[simp] theorem set_same (x : Assignment) (v : Variable) (k : ℕ) : x.set v k v.id = k := by
  simp [set]

theorem set_of_id_eq (x : Assignment) {v : Variable} {id : VariableId} (h : id = v.id) (k : ℕ) :
    x.set v k id = k := by simp [set, h]

theorem set_of_ne (x : Assignment) {v : Variable} {id : VariableId} (h : id ≠ v.id) (k : ℕ) :
    x.set v k id = x id := by simp [set, h]

theorem set_set (x : Assignment) (v : Variable) (j k : ℕ) : (x.set v j).set v k = x.set v k := by
  simp [set]

theorem set_comm (x : Assignment) {v w : Variable} (h : v.id ≠ w.id) (j k : ℕ) :
    (x.set v j).set w k = (x.set w k).set v j :=
  Function.update_comm h _ _ _

theorem set_self (x : Assignment) (v : Variable) : x.set v (x v.id) = x := by simp [set]

/-- The outcomes of some axes are outcomes of theirs. -/
def InRange (x : Assignment) (axes : Axes) : Prop := ∀ v ∈ axes, x v.id < v.arity

@[simp] theorem inRange_nil (x : Assignment) : x.InRange [] := by simp [InRange]

@[simp] theorem inRange_cons {x : Assignment} {v : Variable} {axes : Axes} :
    x.InRange (v :: axes) ↔ x v.id < v.arity ∧ x.InRange axes := by simp [InRange]

theorem InRange.subset {x : Assignment} {a b : Axes} (h : x.InRange b) (hab : a ⊆ b) :
    x.InRange a := fun v hv => h v (hab hv)

theorem InRange.arity_pos {x : Assignment} {axes : Axes} (h : x.InRange axes) :
    ∀ v ∈ axes, 0 < v.arity := fun v hv => Nat.zero_lt_of_lt (h v hv)

theorem inRange_on {x : Assignment} {axes : Axes} :
    Layout.InRange axes.arities (x.on axes) ↔ x.InRange axes := by
  induction axes with
  | nil => simpa [on] using Layout.InRange.nil
  | cons v axes ih =>
      rw [Axes.arities_cons, inRange_cons, ← ih]
      exact Layout.inRange_cons

theorem on_eq_map_ids (x : Assignment) (axes : Axes) : x.on axes = axes.ids.map x := by
  rw [on, Axes.ids, List.map_map]
  rfl

theorem on_congr {x y : Assignment} {axes : Axes} (h : ∀ id ∈ axes.ids, x id = y id) :
    x.on axes = y.on axes :=
  List.map_congr_left fun _ hv => h _ (Axes.mem_ids_of_mem hv)

theorem on_set_of_notMem (x : Assignment) {v : Variable} {axes : Axes} (h : v.id ∉ axes.ids)
    (k : ℕ) : (x.set v k).on axes = x.on axes :=
  on_congr fun _ hid => x.set_of_ne (fun h' => h (by rw [← h']; exact hid)) k

end Assignment

/-! ### Offsets as sums over the axes -/

namespace Axes

theorem strideOf_congr {v w : Variable} (h : v.id = w.id) (axes : Axes) :
    strideOf v axes = strideOf w axes := by
  induction axes with
  | nil => rfl
  | cons u axes ih => simp only [strideOf, h, ih]

theorem strideOf_of_notMem {v : Variable} {axes : Axes} (h : v.id ∉ axes.ids) :
    strideOf v axes = 0 := by
  induction axes with
  | nil => rfl
  | cons u axes ih =>
      simp only [ids_cons, List.mem_cons, not_or] at h
      rw [strideOf, if_neg (by simpa using fun h' => h.1 (Eq.symm h')), ih h.2]

theorem offset_map {α : Type} (f g : α → ℕ) (l : List α) :
    Layout.offset (l.map f) (l.map g) = (l.map fun a => g a * f a).sum := by
  induction l with
  | nil => rfl
  | cons a l ih => simp [ih]

theorem distances_eq_map {axes : Axes} (h : axes.ids.Nodup) :
    axes.distances = axes.map fun v => strideOf v axes := by
  induction axes with
  | nil => rfl
  | cons u axes ih =>
      obtain ⟨hu, haxes⟩ := nodup_ids_cons.mp h
      have htail : (axes.map fun v => strideOf v (u :: axes)) = axes.map fun v => strideOf v axes := by
        refine List.map_congr_left fun v hv => ?_
        rw [strideOf, if_neg]
        simp only [beq_iff_eq]
        intro huv
        exact hu (by rw [huv]; exact mem_ids_of_mem hv)
      rw [List.map_cons, htail, ← ih haxes, strideOf, if_pos (by simp)]
      rfl

/-- The offset of a cell is the sum of outcomes times strides over the axes. -/
theorem offset_on {axes : Axes} (h : axes.ids.Nodup) (x : Assignment) :
    Layout.offset axes.distances (x.on axes) = (axes.map fun v => x v.id * strideOf v axes).sum := by
  rw [distances_eq_map h, Assignment.on, offset_map]

/-- The sum of outcomes times strides over distinct axes that contain all the axes of a table does
not depend on which these are. -/
theorem sum_strides_eq {out axes : Axes} (hout : out.ids.Nodup) (haxes : axes.ids.Nodup)
    (hsub : axes.ids ⊆ out.ids) (x : Assignment) :
    (out.map fun v => x v.id * strideOf v axes).sum =
      (axes.map fun v => x v.id * strideOf v axes).sum := by
  -- over identities both are sums of one function, which vanishes outside the axes
  let term : VariableId → ℕ := fun id => x id * strideOf ⟨id, 0, .chance⟩ axes
  have hterm : ∀ l : Axes, l.ids.Nodup →
      (l.map fun v => x v.id * strideOf v axes).sum = ∑ id ∈ l.ids.toFinset, term id := by
    intro l hl
    rw [List.sum_toFinset _ hl, ids, List.map_map]
    exact congrArg List.sum (List.map_congr_left fun v _ =>
      congrArg (x v.id * ·) (strideOf_congr (v := v) (w := ⟨v.id, 0, .chance⟩) rfl axes))
  rw [hterm out hout, hterm axes haxes]
  refine (Finset.sum_subset (fun id hid => ?_) fun id _ hid => ?_).symm
  · rw [List.mem_toFinset] at hid ⊢
    exact hsub hid
  · simp only [term]
    rw [strideOf_of_notMem (by simpa using hid), Nat.mul_zero]

end Axes

end Influence
