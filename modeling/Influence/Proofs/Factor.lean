import Influence.Proofs.Table.Rows

/-! # Checks on factors

The operations on factors check what the operations on tables leave out.  `isOrder_iff` says what an
order has to be, and the `returns_` lemmas say when the remaining operations return. -/

namespace Influence.Factor

variable {α : Type} [Cell α] {sizes : VariableId → ℕ} {f g : Factor α} {r r' : Registry} {v : Variable}

omit [Cell α] in
/-- An order lists the axes of a factor, each once. -/
theorem isOrder_iff (hnodup : f.axes.ids.Nodup) {order : Axes} :
    f.isOrder order ↔ order.ids.Perm f.axes.ids := by
  have hall : order.all f.mentions ↔ order.ids ⊆ f.axes.ids := by
    rw [List.all_eq_true]
    constructor
    · intro h id hid
      obtain ⟨v, hv, rfl⟩ := Axes.mem_ids.mp hid
      exact Table.mentions_iff.mp (h v hv)
    · exact fun h v hv => Table.mentions_iff.mpr (h (Axes.mem_ids_of_mem hv))
  simp only [isOrder, Bool.and_eq_true, beq_iff_eq, hall, Option.isNone_iff_eq_none,
    Axes.firstRepeat?_eq_none_iff]
  constructor
  · rintro ⟨⟨hlength, hsub⟩, horder, -⟩
    refine (horder.subperm hsub).perm_of_length_le ?_
    rw [Axes.length_ids, Axes.length_ids, hlength]
  · intro h
    refine ⟨⟨?_, h.subset⟩, h.nodup_iff.mpr hnodup, fun _ _ => List.not_mem_nil⟩
    have := h.length_eq
    rwa [Axes.length_ids, Axes.length_ids] at this

omit [Cell α] in
theorem isOrder_moveLast (hnodup : f.axes.ids.Nodup) (hv : f.mentions v) :
    f.isOrder (f.axes.without v ++ [v]) := by
  obtain ⟨w, -, hid, hperm⟩ := Axes.perm_cons_without hv
  rw [isOrder_iff hnodup]
  refine List.Perm.trans ?_ (hperm.map (·.id)).symm
  rw [Axes.ids_append, List.map_cons, hid]
  exact List.perm_append_comm

section

variable [Build]

theorem of_returns_moveLast (h : Returns (f.moveLast v) r g r') :
    f.mentions v ∧ g = ⟨r.nextFactor, f.table.moveLast v⟩ ∧ r' = r.after 1 := by
  obtain ⟨_, _, haxis, h⟩ := returns_bind.mp h
  obtain ⟨hv, rfl⟩ := returns_requireAxis.mp haxis
  exact ⟨hv, (of_returns_rearrange h).2⟩

theorem leads_moveLast (hnodup : f.axes.ids.Nodup) (hv : f.mentions v) :
    Leads (f.moveLast v) r fun g r' =>
      g = ⟨r.nextFactor, f.table.moveLast v⟩ ∧ r' = r.after 1 :=
  .after (returns_requireAxis (u := ()).mpr ⟨hv, rfl⟩) (leads_rearrange (isOrder_moveLast hnodup hv))

theorem of_returns_normalizeFor (h : Returns (f.normalizeFor v) r g r') :
    f.mentions v ∧ g = ⟨r.nextFactor + 1, f.table.normalizeFor v⟩ ∧ r' = r.after 2 := by
  obtain ⟨_, _, hmoved, h⟩ := returns_bind.mp h
  obtain ⟨hv, rfl, rfl⟩ := of_returns_moveLast hmoved
  exact ⟨hv, returns_make.mp h⟩

/-- A factor is normalized for its last axis without a new table. -/
theorem returns_normalizeFor_of_last (hnodup : f.axes.ids.Nodup)
    (hlast : (f.axes.without v ++ [v]).ids = f.axes.ids) :
    Returns (f.normalizeFor v) r g r' ↔
      f.mentions v ∧ g = ⟨r.nextFactor + 1, f.table.normalizeFor v⟩ ∧ r' = r.after 2 := by
  refine ⟨of_returns_normalizeFor, fun ⟨hv, h⟩ => ?_⟩
  have hmoved : Returns (f.moveLast v) r ⟨r.nextFactor, f.table⟩ (r.after 1) := by
    unfold moveLast rearrange
    simp only [returns_bind, returns_requireAxis, isOrder_moveLast hnodup hv, hlast, beq_self_eq_true]
    exact ⟨(), r, ⟨hv, rfl⟩, returns_make.mpr ⟨rfl, rfl⟩⟩
  exact returns_bind.mpr ⟨_, _, hmoved, returns_make.mpr h⟩

theorem returns_create_some {axes : Axes} {cells : Array α} :
    Returns (create axes (some cells)) r g r' ↔
      axes.ids.Nodup ∧ cells.size = axes.size ∧ g = ⟨r.nextFactor, ⟨axes, cells⟩⟩ ∧
        r' = r.after 1 := by
  unfold create
  have hrepeat : Axes.firstRepeat? [] axes = none ↔ axes.ids.Nodup := by
    rw [Axes.firstRepeat?_eq_none_iff]
    simp
  cases h : Axes.firstRepeat? [] axes with
  | none =>
      simp only [returns_guard, returns_make, hrepeat.mp h, not_not, true_and]
  | some u =>
      have hdup : ¬axes.ids.Nodup := fun hnodup => by
        rw [hrepeat.mpr hnodup] at h
        cases h
      simp only [returns_bind, returns_throw, hdup, false_and, exists_false]

theorem leads_ones {axes : Axes} (hnodup : axes.ids.Nodup) :
    Leads (ones axes) r fun g r' => g = ⟨r.nextFactor, (.ones axes : Table α)⟩ ∧ r' = r.after 1 := by
  refine Leads.bind (leads_requireRoom _) ?_
  rintro _ _ rfl
  exact .intro (returns_create_some.mpr ⟨hnodup, by simp [Table.ones], rfl, rfl⟩) ⟨rfl, rfl⟩

/-- Summing out variables one after the other, each of which the factor mentions. -/
theorem leads_sumOutAll {us : Axes} (hus : us.ids.Nodup) {f : Factor α}
    (hf : f.axes.ids.Nodup) (hmem : us.ids ⊆ f.axes.ids) (r : Registry) :
    Leads (us.foldlM Factor.sumOut f) r fun g r' => r.Later r' ∧
      g.table = us.foldl Table.sumOut f.table ∧ g.axes.ids.Nodup ∧
      ∀ id, id ∈ g.axes.ids ↔ id ∈ f.axes.ids ∧ id ∉ us.ids := by
  induction us generalizing f r with
  | nil => exact .pure ⟨.refl r, rfl, hf, by simp⟩
  | cons u us ih =>
      obtain ⟨hu, hus⟩ := Axes.nodup_ids_cons.mp hus
      rw [Axes.ids_cons, List.cons_subset] at hmem
      have hwithout : ∀ id, id ∈ (f.axes.without u).ids ↔ id ∈ f.axes.ids ∧ id ≠ u.id := fun _ =>
        Axes.mem_ids_without hf
      rw [List.foldlM_cons]
      refine Leads.bind (leads_sumOut (Table.mentions_iff.mpr hmem.1)) ?_
      rintro _ _ ⟨rfl, rfl⟩
      refine (ih hus (f := ⟨r.nextFactor, f.table.sumOut u⟩) (Axes.nodup_without hf u)
        (fun id hid => (hwithout id).mpr ⟨hmem.2 hid, fun h => hu (by rw [← h]; exact hid)⟩)
        (r.after 1)).imp ?_
      rintro g r' ⟨hlater, htable, hnodup, hids⟩
      refine ⟨.trans ⟨1, rfl⟩ hlater, htable, hnodup, fun id => (hids id).trans ?_⟩
      rw [Axes.ids_cons, List.mem_cons, not_or, ← and_assoc]
      exact and_congr_left fun _ => hwithout id

end

section

open scoped Exact

theorem returns_moveLast (hnodup : f.axes.ids.Nodup) :
    Returns (f.moveLast v) r g r' ↔
      f.mentions v ∧ g = ⟨r.nextFactor, f.table.moveLast v⟩ ∧ r' = r.after 1 := by
  refine ⟨of_returns_moveLast, fun ⟨hv, h⟩ => ?_⟩
  obtain ⟨_, _, hreturns, rfl, rfl⟩ := (leads_moveLast (r := r) hnodup hv).exists_returns
  exact h.1 ▸ h.2 ▸ hreturns

theorem returns_normalizeFor (hnodup : f.axes.ids.Nodup) :
    Returns (f.normalizeFor v) r g r' ↔
      f.mentions v ∧ g = ⟨r.nextFactor + 1, f.table.normalizeFor v⟩ ∧ r' = r.after 2 := by
  refine ⟨of_returns_normalizeFor, fun ⟨hv, h⟩ => ?_⟩
  exact returns_bind.mpr ⟨_, _, (returns_moveLast hnodup).mpr ⟨hv, rfl, rfl⟩, returns_make.mpr h⟩

/-- A rule is found for every variable of a factor. -/
theorem returns_rule {f g : Factor ℚ} (hfits : f.table.Fits sizes) (hsize : v.arity = sizes v.id) :
    Returns (f.rule v) r g r' ↔
      f.mentions v ∧ g = ⟨r.nextFactor + 1, f.table.replaceRows Table.shares v⟩ ∧
        r' = r.after 2 := by
  unfold rule
  simp only [returns_bind, returns_moveLast hfits.wellFormed.nodup]
  constructor
  · rintro ⟨_, _, ⟨hv, rfl, rfl⟩, h⟩
    rw [(hfits.isBestRule hv hsize).1, returns_make] at h
    exact ⟨hv, h⟩
  · rintro ⟨hv, h⟩
    refine ⟨_, _, ⟨hv, rfl, rfl⟩, ?_⟩
    rw [(hfits.isBestRule hv hsize).1, returns_make]
    exact h

theorem returns_ones {axes : Axes} (hnodup : axes.ids.Nodup) :
    Returns (ones axes) r g r' ↔ g = ⟨r.nextFactor, .ones axes⟩ ∧ r' = r.after 1 := by
  obtain ⟨_, _, hreturns, rfl, rfl⟩ := (leads_ones (r := r) (α := α) hnodup).exists_returns
  exact ⟨fun h => (h.unique hreturns), fun h => h.1 ▸ h.2 ▸ hreturns⟩

end

end Influence.Factor
