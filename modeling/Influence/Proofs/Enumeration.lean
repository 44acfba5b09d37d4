import Influence.Proofs.Axes

/-! # Enumeration of joint outcomes

`Axes.sumOver vars F x` adds up `F` over all joint outcomes of `vars`, with every other variable as
in `x`.  It is the brute-force form of an elimination.

A function that does not look at some variables `Ignores` them.  The distributive law
(`sumOver_mul_left`) takes such a function out of a sum over those variables, and the order of the
variables does not matter (`sumOver_perm`). -/

namespace Influence

variable {sizes : VariableId → ℕ}

namespace Assignment

/-- Every variable has one of its outcomes. -/
def Valid (sizes : VariableId → ℕ) (x : Assignment) : Prop := ∀ id, x id < sizes id

theorem Valid.inRange {x : Assignment} (hx : x.Valid sizes) {axes : Axes} (h : axes.Sized sizes) :
    x.InRange axes := fun v hv => by
  rw [h v hv]
  exact hx v.id

theorem Valid.set {x : Assignment} (hx : x.Valid sizes) {v : Variable} {k : ℕ}
    (hk : k < sizes v.id) : (x.set v k).Valid sizes := by
  intro id
  by_cases h : id = v.id
  · rw [set_of_id_eq x h, h]
    exact hk
  · rw [set_of_ne x h]
    exact hx id

end Assignment

/-! ### Functions that ignore variables -/

/-- The function does not depend on the outcomes of some variables. -/
def Ignores (F : Assignment → ℚ) (vars : Axes) : Prop :=
  ∀ x y : Assignment, (∀ id, id ∉ vars.ids → x id = y id) → F x = F y

theorem Ignores.mul {F G : Assignment → ℚ} {vars : Axes} (hF : Ignores F vars)
    (hG : Ignores G vars) : Ignores (fun x => F x * G x) vars := by
  intro x y h
  change F x * G x = F y * G y
  rw [hF x y h, hG x y h]

theorem Ignores.mono {F : Assignment → ℚ} {a b : Axes} (hF : Ignores F b) (hab : a.ids ⊆ b.ids) :
    Ignores F a := fun x y h => hF x y fun id hid => h id fun h' => hid (hab h')

theorem Ignores.set {F : Assignment → ℚ} {v : Variable} (hF : Ignores F [v]) (x : Assignment)
    (k : ℕ) : F (x.set v k) = F x :=
  hF _ _ fun id hid => x.set_of_ne (by simpa using hid) k

namespace Axes

/-- The sum over all joint outcomes of some variables, with the other variables as they are. -/
def sumOver : Axes → (Assignment → ℚ) → Assignment → ℚ
  | [], F, x => F x
  | v :: vars, F, x => ∑ k ∈ Finset.range v.arity, sumOver vars F (x.set v k)

variable {vars a b : Axes} {F G : Assignment → ℚ} {x y : Assignment} {v : Variable}

@[simp] theorem sumOver_nil : sumOver [] F x = F x := rfl

@[simp] theorem sumOver_cons :
    sumOver (v :: vars) F x = ∑ k ∈ Finset.range v.arity, sumOver vars F (x.set v k) := rfl

theorem sumOver_append (a b : Axes) (F : Assignment → ℚ) (x : Assignment) :
    sumOver (a ++ b) F x = sumOver a (sumOver b F) x := by
  induction a generalizing x with
  | nil => rfl
  | cons v a ih => simp only [List.cons_append, sumOver_cons, ih]

theorem sized_cons : Sized sizes (v :: vars) ↔ v.arity = sizes v.id ∧ vars.Sized sizes := by
  simp [Sized]

/-- A sum grows with its terms, which may be compared where only the summed variables differ from
the given assignment. -/
theorem sumOver_le (hvars : vars.Sized sizes) (hx : x.Valid sizes)
    (h : ∀ y : Assignment, y.Valid sizes → (∀ id, id ∉ vars.ids → y id = x id) → F y ≤ G y) :
    sumOver vars F x ≤ sumOver vars G x := by
  induction vars generalizing x with
  | nil => exact h x hx fun _ _ => rfl
  | cons v vars ih =>
      obtain ⟨hv, hvars⟩ := sized_cons.mp hvars
      refine Finset.sum_le_sum fun k hk => ih hvars (hx.set ?_) fun y hy hagree => h y hy ?_
      · rw [← hv]
        exact Finset.mem_range.mp hk
      · intro id hid
        simp only [ids_cons, List.mem_cons, not_or] at hid
        rw [hagree id hid.2, Assignment.set_of_ne x hid.1]

theorem sumOver_congr (hvars : vars.Sized sizes) (hx : x.Valid sizes)
    (h : ∀ y : Assignment, y.Valid sizes → (∀ id, id ∉ vars.ids → y id = x id) → F y = G y) :
    sumOver vars F x = sumOver vars G x :=
  le_antisymm (sumOver_le hvars hx fun y hy hagree => (h y hy hagree).le)
    (sumOver_le hvars hx fun y hy hagree => (h y hy hagree).ge)

@[simp] theorem sumOver_zero (vars : Axes) (x : Assignment) : sumOver vars (fun _ => 0) x = 0 := by
  induction vars generalizing x with
  | nil => rfl
  | cons v vars ih => simp [ih]

theorem sumOver_add (F G : Assignment → ℚ) (x : Assignment) :
    sumOver vars (fun y => F y + G y) x = sumOver vars F x + sumOver vars G x := by
  induction vars generalizing x with
  | nil => rfl
  | cons v vars ih => simp only [sumOver_cons, ih, Finset.sum_add_distrib]

/-- A variable with one outcome need not be summed over. -/
theorem sumOver_single (hone : ∀ v ∈ vars, v.arity = 1) (hsized : vars.Sized sizes)
    (hx : x.Valid sizes) (F : Assignment → ℚ) : sumOver vars F x = F x := by
  induction vars with
  | nil => rfl
  | cons v vars ih =>
      obtain ⟨hv, hsized⟩ := sized_cons.mp hsized
      have hzero : x v.id = 0 := by
        have := hx v.id
        have := hone v (by simp)
        omega
      rw [sumOver_cons, hone v (by simp), Finset.sum_range_one, ← hzero, Assignment.set_self]
      exact ih (fun w hw => hone w (by simp [hw])) hsized

theorem sumOver_nonneg (hvars : vars.Sized sizes) (hx : x.Valid sizes)
    (h : ∀ y : Assignment, y.Valid sizes → (∀ id, id ∉ vars.ids → y id = x id) → 0 ≤ F y) :
    0 ≤ sumOver vars F x := by
  rw [← sumOver_zero vars x]
  exact sumOver_le hvars hx h

/-- What is nowhere negative and adds up to zero is zero everywhere. -/
theorem sumOver_mul_eq_zero (hvars : vars.Sized sizes) (hx : x.Valid sizes)
    (hF : ∀ y : Assignment, y.Valid sizes → 0 ≤ F y) (h : sumOver vars F x = 0)
    (G : Assignment → ℚ) : sumOver vars (fun y => F y * G y) x = 0 := by
  induction vars generalizing x with
  | nil => exact mul_eq_zero_of_left h (G x)
  | cons v vars ih =>
      obtain ⟨hv, hvars⟩ := sized_cons.mp hvars
      have hset : ∀ k ∈ Finset.range v.arity, (x.set v k).Valid sizes := fun k hk =>
        hx.set (hv ▸ Finset.mem_range.mp hk)
      rw [sumOver_cons] at h ⊢
      have hzero := (Finset.sum_eq_zero_iff_of_nonneg fun k hk =>
        sumOver_nonneg hvars (hset k hk) fun y hy _ => hF y hy).mp h
      exact Finset.sum_eq_zero fun k hk => ih hvars (hset k hk) (hzero k hk)

/-! ### The distributive law -/

theorem ignores_sumOver (hF : Ignores F a) (vars : Axes) : Ignores (sumOver vars F) a := by
  induction vars with
  | nil => exact hF
  | cons v vars ih =>
      intro x y h
      refine Finset.sum_congr rfl fun k _ => ih _ _ fun id hid => ?_
      by_cases hv : id = v.id
      · rw [Assignment.set_of_id_eq x hv, Assignment.set_of_id_eq y hv]
      · rw [Assignment.set_of_ne x hv, Assignment.set_of_ne y hv]
        exact h id hid

theorem sumOver_mul_left (hG : Ignores G vars) (F : Assignment → ℚ) (x : Assignment) :
    sumOver vars (fun y => G y * F y) x = G x * sumOver vars F x := by
  induction vars generalizing x with
  | nil => rfl
  | cons v vars ih =>
      rw [sumOver_cons, sumOver_cons, Finset.mul_sum]
      refine Finset.sum_congr rfl fun k _ => ?_
      rw [ih (hG.mono (by simp)), hG (x.set v k) x fun id hid => ?_]
      exact x.set_of_ne (fun h => hid (by simp [h])) k

/-- Sums over separate variables are multiplied. -/
theorem sumOver_append_mul (hF : Ignores F b) (hG : Ignores G a) (x : Assignment) :
    sumOver (a ++ b) (fun y => F y * G y) x = sumOver a F x * sumOver b G x := by
  rw [sumOver_append, funext fun y => sumOver_mul_left hF G y, mul_comm,
    ← sumOver_mul_left (ignores_sumOver hG b)]
  simp only [mul_comm]

/-! ### The order of the variables -/

theorem sumOver_set (h : v.id ∉ vars.ids) (F : Assignment → ℚ) (x : Assignment) (k : ℕ) :
    sumOver vars F (x.set v k) = sumOver vars (fun y => F (y.set v k)) x := by
  induction vars generalizing x with
  | nil => rfl
  | cons w vars ih =>
      simp only [ids_cons, List.mem_cons, not_or] at h
      refine Finset.sum_congr rfl fun j _ => ?_
      rw [Assignment.set_comm x h.1, ih h.2]

/-- A variable that is summed first inside may be summed first outside. -/
theorem sumOver_cons_inner (h : v.id ∉ vars.ids) (F : Assignment → ℚ) (x : Assignment) :
    sumOver vars (fun y => ∑ k ∈ Finset.range v.arity, F (y.set v k)) x =
      sumOver (v :: vars) F x := by
  have hsum : ∀ (n : ℕ) (x : Assignment),
      sumOver vars (fun y => ∑ k ∈ Finset.range n, F (y.set v k)) x =
        ∑ k ∈ Finset.range n, sumOver vars (fun y => F (y.set v k)) x := by
    intro n
    clear h
    induction vars with
    | nil => exact fun _ => rfl
    | cons w vars ih =>
        intro x
        simp only [sumOver_cons, ih]
        exact Finset.sum_comm
  rw [hsum, sumOver_cons]
  exact Finset.sum_congr rfl fun k _ => (sumOver_set h F x k).symm

theorem sumOver_perm {a b : Axes} (hperm : a.Perm b) (hnodup : a.ids.Nodup) (F : Assignment → ℚ)
    (x : Assignment) : sumOver a F x = sumOver b F x := by
  induction hperm generalizing x with
  | nil => rfl
  | cons v _ ih => exact Finset.sum_congr rfl fun k _ => ih (nodup_ids_cons.mp hnodup).2 _
  | swap v w vars =>
      obtain ⟨hw, -⟩ := nodup_ids_cons.mp hnodup
      simp only [sumOver_cons]
      rw [Finset.sum_comm]
      refine Finset.sum_congr rfl fun j _ => Finset.sum_congr rfl fun k _ => ?_
      rw [Assignment.set_comm x fun h => hw (by simp [h])]
  | trans hab _ ih₁ ih₂ =>
      exact (ih₁ hnodup x).trans (ih₂ ((hab.map _).nodup_iff.mp hnodup) x)

theorem sumOver_canonical (ha : a.Sized sizes) (F : Assignment → ℚ) (x : Assignment) :
    sumOver a F x = sumOver (a.ids.map fun id => ⟨id, sizes id, .chance⟩) F x := by
  induction a generalizing x with
  | nil => rfl
  | cons v a ih =>
      obtain ⟨hv, ha⟩ := sized_cons.mp ha
      rw [ids_cons, List.map_cons, sumOver_cons, sumOver_cons, hv]
      exact Finset.sum_congr rfl fun k _ => ih ha _

/-- Only the identities of the variables matter, and those in any order. -/
theorem sumOver_perm_ids (ha : a.Sized sizes) (hb : b.Sized sizes) (hperm : a.ids.Perm b.ids)
    (hnodup : a.ids.Nodup) (F : Assignment → ℚ) (x : Assignment) :
    sumOver a F x = sumOver b F x := by
  rw [sumOver_canonical ha, sumOver_canonical hb]
  refine sumOver_perm (hperm.map _) ?_ F x
  simpa [ids, Function.comp_def] using hnodup

end Axes

end Influence
