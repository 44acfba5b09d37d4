import Influence.Proofs.Elimination.Steps

/-! # The axes of the tables of a run

Distinct axes go through every step of a run (`Tables.Distinct`), and a variable that is neither
observed nor eliminated stays an axis of some table (`HasTable.mem_ids_eliminateAll`).  Neither
depends on the cells. -/

namespace Influence.Tables

variable {α : Type} {ts us : List (Table α)} {r : Registry} {v : Variable} {id : VariableId}

theorem isUtility_eq (r : Registry) (t : Table α) :
    isUtility r t = !(t.axes.filter fun v => r.kindOf v == .utility).isEmpty := by
  rw [Bool.eq_iff_iff, isUtility, List.any_eq_true, Bool.not_eq_true', ← Bool.not_eq_true,
    List.isEmpty_iff, List.filter_eq_nil_iff]
  simp

theorem mem_ids_axes : id ∈ (axes ts).ids ↔ ∃ t ∈ ts, id ∈ t.axes.ids := Axes.mem_ids_flatMap

theorem mem_ids_axes_append :
    id ∈ (axes (ts ++ us)).ids ↔ id ∈ (axes ts).ids ∨ id ∈ (axes us).ids := by
  simp [axes]

theorem mem_ids_axes_cons {t : Table α} :
    id ∈ (axes (t :: ts)).ids ↔ id ∈ t.axes.ids ∨ id ∈ (axes ts).ids := by
  simp [axes]

theorem any_mentions : ts.any (·.mentions v) ↔ v.id ∈ (axes ts).ids := by
  simp [mem_ids_axes, List.any_eq_true, Table.mentions_iff]

/-! ### Distinct axes -/

/-- No table has an axis twice. -/
def Distinct (ts : List (Table α)) : Prop := ∀ t ∈ ts, t.axes.ids.Nodup

theorem Distinct.filter (h : Distinct ts) (p : Table α → Bool) : Distinct (ts.filter p) :=
  fun t ht => h t (List.mem_of_mem_filter ht)

theorem Distinct.append (h : Distinct ts) (h' : Distinct us) : Distinct (ts ++ us) := fun t ht =>
  (List.mem_append.mp ht).elim (h t) (h' t)

theorem distinct_singleton {t : Table α} (h : t.axes.ids.Nodup) : Distinct [t] := fun _ hu =>
  (List.mem_singleton.mp hu) ▸ h

section

variable [Build] [Cell α]

theorem Distinct.observeAll (h : Distinct ts) (evidence : List Observation) :
    Distinct (observeAll evidence ts) := by
  induction evidence generalizing ts with
  | nil => exact h
  | cons o evidence ih =>
      refine ih ((h.filter _).append fun t ht => ?_)
      obtain ⟨u, hu, rfl⟩ := List.mem_map.mp ht
      exact Axes.nodup_without (h u (List.mem_of_mem_filter hu)) _

theorem Distinct.eliminateAll (h : Distinct ts) (vars : List Variable) :
    Distinct (eliminateAll vars ts) := by
  induction vars generalizing ts with
  | nil => exact h
  | cons v vars ih =>
      refine ih ((h.filter _).append ?_)
      split
      · exact distinct_singleton (Axes.nodup_without (Table.nodup_foldAll (h.filter _)) _)
      · exact fun _ ht => absurd ht List.not_mem_nil

theorem axes_foldl_sumOut (t : Table α) (vars : Axes) :
    (vars.foldl Table.sumOut t).axes = vars.foldl Axes.without t.axes := by
  induction vars generalizing t with
  | nil => rfl
  | cons v vars ih => exact ih (t.sumOut v)

theorem nodup_foldl_sumOut {t : Table α} (h : t.axes.ids.Nodup) (vars : Axes) :
    (vars.foldl Table.sumOut t).axes.ids.Nodup := by
  induction vars generalizing t with
  | nil => exact h
  | cons v vars ih => exact ih (Axes.nodup_without h v)

theorem Distinct.sumUtilities (h : Distinct ts) (s : Setting α) : Distinct (sumUtilities s r ts) := by
  refine (h.filter _).append ?_
  split
  · refine distinct_singleton (nodup_foldl_sumOut (Table.nodup_foldAll fun t ht => ?_) _)
    obtain ⟨u, hu, rfl⟩ := List.mem_map.mp ht
    exact StepM.nodup_weigh s (h u (List.mem_of_mem_filter hu))
  · exact fun _ ht => absurd ht List.not_mem_nil

theorem Distinct.prepare (h : Distinct ts) (s : Setting α) (target : Target) :
    Distinct (prepare s r ts target) := by
  cases target with
  | probability => exact h.filter _
  | totalUtility => exact h.sumUtilities s
  | utilityTerm v => exact h.filter _

/-! ### Eliminated variables -/

theorem mem_ids_summand (hts : Distinct ts) :
    id ∈ (summand v ts).axes.ids ↔ (∃ t ∈ ts, t.mentions v ∧ id ∈ t.axes.ids) ∧ id ≠ v.id := by
  have hproduct : (Table.product (ts.filter (·.mentions v))).axes.ids.Nodup :=
    Table.nodup_foldAll (hts.filter _)
  rw [summand, Table.axes_sumOut, Axes.mem_ids_without hproduct, Table.product,
    Table.mem_ids_foldAll]
  simp [and_assoc]

theorem mem_ids_eliminate (hts : Distinct ts) :
    id ∈ (axes (eliminate v ts)).ids ↔ id ∈ (axes ts).ids ∧ id ≠ v.id := by
  have hone : ∀ t : Table α, t ∈ eliminate v ts ↔ (t ∈ ts ∧ ¬t.mentions v) ∨
      (∃ u ∈ ts, u.mentions v) ∧ t = summand v ts := by
    intro t
    by_cases h : ∃ u ∈ ts, u.mentions v
    · simp [eliminate, h]
    · simp [eliminate, h]
  simp only [mem_ids_axes, hone]
  constructor
  · rintro ⟨t, ⟨ht, hno⟩ | ⟨-, rfl⟩, hid⟩
    · refine ⟨⟨t, ht, hid⟩, fun h => hno ?_⟩
      rw [Table.mentions_iff, ← h]
      exact hid
    · obtain ⟨⟨t, ht, -, hid⟩, hne⟩ := (mem_ids_summand hts).mp hid
      exact ⟨⟨t, ht, hid⟩, hne⟩
  · rintro ⟨⟨t, ht, hid⟩, hne⟩
    by_cases hv : t.mentions v
    · exact ⟨_, .inr ⟨⟨t, ht, hv⟩, rfl⟩, (mem_ids_summand hts).mpr ⟨⟨t, ht, hv, hid⟩, hne⟩⟩
    · exact ⟨t, .inl ⟨ht, hv⟩, hid⟩

theorem mem_ids_eliminateAll (hts : Distinct ts) {vars : Axes} :
    id ∈ (axes (eliminateAll vars ts)).ids ↔ id ∈ (axes ts).ids ∧ id ∉ vars.ids := by
  induction vars generalizing ts with
  | nil => simp
  | cons v vars ih =>
      have hrest : Distinct (eliminate v ts) := hts.eliminateAll [v]
      rw [eliminateAll_cons, ih hrest, mem_ids_eliminate hts, Axes.ids_cons, List.mem_cons, not_or,
        and_assoc]

/-! ### Variables that survive -/

/-- The variable is an axis of a table that mentions no utility. -/
def HasTable (r : Registry) (v : Variable) (ts : List (Table α)) : Prop :=
  ∃ t ∈ ts, v.id ∈ t.axes.ids ∧ isUtility r t = false

/-- A variable that is not observed keeps a table. -/
theorem HasTable.observeAll (h : HasTable r v ts) (hts : Distinct ts) {evidence : List Observation}
    (hv : v.id ∉ Axes.ids (evidence.map (·.subject))) : HasTable r v (observeAll evidence ts) := by
  induction evidence generalizing ts with
  | nil => exact h
  | cons o evidence ih =>
      obtain ⟨hne, hv⟩ := not_or.mp (List.mem_cons.not.mp hv)
      refine ih ?_ (hts.observeAll [o]) hv
      obtain ⟨t, ht, hmem, hutility⟩ := h
      by_cases ho : t.mentions o.subject
      · refine ⟨t.restrict o.subject o.outcome, List.mem_append_right _
          (List.mem_map_of_mem (List.mem_filter.mpr ⟨ht, ho⟩)), ?_, ?_⟩
        · exact (Axes.mem_ids_without (hts t ht)).mpr ⟨hmem, hne⟩
        · rw [isUtility, List.any_eq_false] at hutility ⊢
          exact fun u hu => hutility u (Axes.mem_of_mem_without hu)
      · exact ⟨t, List.mem_append_left _ (List.mem_filter.mpr ⟨ht, by simpa using ho⟩), hmem, hutility⟩

end

end Influence.Tables

/-! ### Hidden variables -/

namespace Influence.Workspace

variable {α : Type} {w : Workspace α} {s : Setting α} {evidence : List Observation}
  {query : List Variable} {single : Bool}

theorem axes_tables (w : Workspace α) : Tables.axes w.tables = w.pool.flatMap (·.axes) :=
  List.flatMap_map _ _ _

theorem mem_hidden {v : Variable} :
    v ∈ w.hidden s evidence query single ↔
      v ∈ Axes.union [] (Tables.axes w.tables) ∧ w.registry.kindOf v = .chance ∧
        v.id ∉ w.eliminated ∧ v.id ∉ Axes.ids (evidence.map (·.subject)) ∧
        v.id ∉ Axes.ids query ∧ v.id ∉ Axes.ids (w.required s single) := by
  rw [hidden, ← axes_tables, List.mem_filter]
  simp only [isEliminated, Bool.and_eq_true, beq_iff_eq, Bool.not_eq_true',
    Axes.mentions_eq_false_iff, List.contains_eq_mem, decide_eq_false_iff_not, and_assoc]

theorem nodup_hidden : (Axes.ids (w.hidden s evidence query single)).Nodup :=
  Axes.nodup_ids_filter (Axes.nodup_union _ (by simp)) _

theorem hidden_subset : Axes.ids (w.hidden s evidence query single) ⊆ (Tables.axes w.tables).ids := by
  intro id hid
  obtain ⟨v, hv, rfl⟩ := Axes.mem_ids.mp hid
  have hv := Axes.mem_ids_of_mem (mem_hidden.mp hv).1
  simpa [Axes.mem_ids_union] using hv

end Influence.Workspace
