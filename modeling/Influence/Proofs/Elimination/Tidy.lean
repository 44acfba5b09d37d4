import Influence.Proofs.Elimination.Integrity

/-! # What every run leaves behind

At every point of a run, also after a failure, whatever factors and handles it began with, every factor of
the pool was there at the start or has been made since, its axes are distinct handles that were known at
the start, and as long as the handles of one variable agree on whether it is a chance variable, no chance
variable comes back after it has been eliminated.  This is the discipline `Discipline.tidy`.

The last point needs some care.  Summing the utilities eliminates a variable if a handle of it is a
utility, and a factor with another handle of that variable stays.  But then the registry does not know
the variable, hence each of its handles keeps the declared kind, and none of these is chance
(`Registry.NeverChance`). -/

namespace Influence

variable {α : Type}

/-! ### Kinds -/

namespace Registry

variable {r r' : Registry} {handles : Axes} {u v d : Variable} {id : VariableId}

/-- Handles of one variable agree on whether it is a chance variable at present. -/
def AgreesOnChance (r : Registry) (handles : Axes) : Prop :=
  ∀ u ∈ handles, ∀ v ∈ handles, u.id = v.id → (r.kindOf u = .chance ↔ r.kindOf v = .chance)

instance : Decidable (r.AgreesOnChance handles) :=
  inferInstanceAs (Decidable (∀ u ∈ handles, ∀ v ∈ handles, u.id = v.id →
    (r.kindOf u = .chance ↔ r.kindOf v = .chance)))

theorem AgreesOnChance.withChance (h : r.AgreesOnChance handles) (hd : d.id ∈ Axes.ids r.handles) :
    (r.withChance d).AgreesOnChance handles := by
  intro u hu v hv huv
  rw [kindOf_withChance hd, kindOf_withChance hd, huv]
  split
  · exact Iff.rfl
  · exact h u hu v hv huv

theorem kindOf_of_notMem (h : v.id ∉ Axes.ids r.handles) : r.kindOf v = v.kind := by
  have hnone : r.find? v.id = none := List.find?_eq_none.mpr fun w hw hid => by
    rw [← beq_iff_eq.mp hid] at h
    exact h (Axes.mem_ids_of_mem hw)
  rw [kindOf, hnone]
  rfl

/-- The registry does not know the variable, and no handle of it was declared as chance. -/
structure NeverChance (r : Registry) (handles : Axes) (id : VariableId) : Prop where
  unregistered : id ∉ Axes.ids r.handles
  declared : ∀ v ∈ handles, v.id = id → v.kind ≠ .chance

theorem NeverChance.kindOf_ne (h : r.NeverChance handles v.id) (hv : v ∈ handles) :
    r.kindOf v ≠ .chance := by
  rw [kindOf_of_notMem h.unregistered]
  exact h.declared v hv rfl

/-- A variable with two handles of which only one is a utility. -/
theorem AgreesOnChance.neverChance (h : r.AgreesOnChance handles) (hu : u ∈ handles)
    (hid : v.id = u.id) (hutility : r.kindOf u = .utility) (hother : r.kindOf v ≠ .utility) :
    r.NeverChance handles u.id := by
  have hunregistered : u.id ∉ Axes.ids r.handles := fun hmem =>
    hother (by rw [kindOf_of_issued hmem hid, hutility])
  refine ⟨hunregistered, fun w hw hwid hchance => ?_⟩
  have hwkind : r.kindOf w = .chance := by
    rw [kindOf_of_notMem (by rwa [hwid]), hchance]
  have hukind : r.kindOf u = .chance := (h u hu w hw hwid.symm).mpr hwkind
  rw [hutility] at hukind
  cases hukind

/-- The same variables are known, numbers that have been handed out stay so, and handles that agree on
chance still do. -/
structure Continues (handles : Axes) (r r' : Registry) : Prop where
  le : r.nextFactor ≤ r'.nextFactor
  ids_eq : Axes.ids r'.handles = Axes.ids r.handles
  agrees : r.AgreesOnChance handles → r'.AgreesOnChance handles

instance : IsPreorder Registry (Continues handles) where
  refl _ := ⟨Nat.le_refl _, rfl, fun h => h⟩
  trans _ _ _ h h' := ⟨h.le.trans h'.le, h'.ids_eq.trans h.ids_eq, h'.agrees ∘ h.agrees⟩

theorem Later.continues (h : r.Later r') : r.Continues handles r' := by
  obtain ⟨k, rfl⟩ := h
  exact ⟨Nat.le_add_right _ _, rfl, fun h => h⟩

theorem NeverChance.of_continues (h : r'.NeverChance handles id) (hr : r.Continues handles r') :
    r.NeverChance handles id := ⟨hr.ids_eq ▸ h.unregistered, h.declared⟩

theorem NeverChance.continues (h : r.NeverChance handles id) (hr : r.Continues handles r') :
    r'.NeverChance handles id := ⟨hr.ids_eq ▸ h.unregistered, h.declared⟩

theorem continues_withChance (hd : d.id ∈ Axes.ids r.handles) :
    r.Continues handles (r.withChance d) :=
  ⟨Nat.le_refl _, ids_withChance r d, fun h => h.withChance hd⟩

end Registry

/-! ### The discipline -/

section

variable [Build] [Cell α]

/-- Nothing is asked of the tables.  A variable may come back after it has been eliminated if it is never
a chance variable. -/
def Discipline.tidy (s : Setting α) (r : Registry) (factors : List (Factor α)) :
    Discipline ‹Build› ‹Build› s StepM.insert where
  stops := fun _ => False
  known := s.handles factors
  knows := fun _ => True
  knows_of_mem := fun _ _ => trivial
  foreign := (Workspace.start r factors).pool
  exempt := fun id => r.AgreesOnChance (s.handles factors) → r.NeverChance (s.handles factors) id
  holds := r.Continues (s.handles factors)
  base := fun _ => True
  holds_after := fun hr h => trans_of (Registry.Continues _) h hr.continues
  holds_withChance := fun hd h => trans_of (Registry.Continues _) h (Registry.continues_withChance hd)
  exempt_of_utility := fun hr hu _ hid hutility hother hagrees =>
    ((hr.agrees hagrees).neverChance hu hid hutility hother).of_continues hr
  runFrom_put := fun _ _ _ => rfl
  restrict := fun _ _ _ => .of_returns fun _ _ _ _ => trivial
  sumOut := fun _ _ => .of_returns fun _ _ _ _ => trivial
  foldAll := fun _ _ _ => .of_returns fun _ _ _ _ => trivial
  scale := fun _ _ => .of_returns fun _ _ _ _ => trivial
  rule := fun _ _ => .of_returns fun _ _ _ _ => trivial

/-- After any operations, failed ones among them, the workspace is tidy. -/
theorem Discipline.tidy_afterOperations (s : Setting α) (r : Registry) {factors : List (Factor α)}
    (hdistinct : ∀ f ∈ factors, f.axes.ids.Nodup) (cs : List Operation) :
    (Discipline.tidy s r factors).Governs (.start r factors)
      ((Workspace.start r factors).afterOperations s cs) := by
  refine Governs.afterOperations (fun _ hd _ => List.mem_append_right _ hd) (fun _ => trivial)
    (fun _ => id) ?_ cs
  constructor
  case since => exact ⟨Nat.le_refl _, List.Subset.refl _⟩
  case ascending => exact Pool.pairwise_ofList factors
  case made => exact fun _ hf => .inr hf
  case holds => exact refl_of (Registry.Continues _) r
  case admits =>
    intro f hf
    have hmem := Pool.mem_ofList hf
    exact ⟨trivial, hdistinct f hmem,
      fun v hv => List.mem_append_left _ (List.mem_flatMap.mpr ⟨f, hmem, hv⟩), fun _ _ => nofun⟩

end

end Influence
