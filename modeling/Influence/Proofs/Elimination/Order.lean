import Influence.Elimination.Heuristic
import Influence.Proofs.Axes

/-! # The order of an elimination pass

A heuristic sorts the variables of a pass by a strict order of its own (`Heuristic.Before`): by the
number of variables that share a factor with them and then by identity, or by identity alone.  Of
distinct variables one always comes before the other, so the sorted list depends neither on the order
in which the variables are given nor on that of the factors (`Heuristic.order_eq_of_perm`). -/

namespace Influence.Heuristic

open scoped Exact

variable {α : Type} {h : Heuristic} {fs fs' : List (Factor α)} {hidden hidden' : List Variable}
  {v w : Variable}

/-- The variables of the factors that mention `v`. -/
def neighbours (fs : List (Factor α)) (v : Variable) : Set VariableId :=
  {id | ∃ f ∈ fs, v.id ∈ f.axes.ids ∧ id ∈ f.axes.ids}

/-- One variable is to be eliminated before another one. -/
def Before (fs : List (Factor α)) : Heuristic → Variable → Variable → Prop
  | minDegree, v, w => (neighbours fs v).ncard < (neighbours fs w).ncard ∨
      (neighbours fs v).ncard = (neighbours fs w).ncard ∧ v.id < w.id
  | declaration, v, w => v.id < w.id

/-! ### Degrees -/

theorem degree_eq_ncard (fs : List (Factor α)) (v : Variable) :
    degree fs v = (neighbours fs v).ncard := by
  have hnodup : (Axes.union [] ((fs.filter (·.mentions v)).flatMap (·.axes))).ids.Nodup :=
    Axes.nodup_union _ List.nodup_nil
  have hset : neighbours fs v =
      (Axes.union [] ((fs.filter (·.mentions v)).flatMap (·.axes))).ids.toFinset := by
    ext id
    simp only [neighbours, Set.mem_ofPred_eq, List.coe_toFinset, Axes.mem_ids_union, Axes.ids_nil,
      List.not_mem_nil, false_or, Axes.mem_ids_flatMap, List.mem_filter, and_assoc]
    exact exists_congr fun f => and_congr_right fun _ => and_congr_left' Axes.mentions_iff.symm
  rw [hset, Set.ncard_coe_finset, List.toFinset_card_of_nodup hnodup, Axes.length_ids, degree]

theorem neighbours_congr (h : fs.Perm fs') (v : Variable) : neighbours fs v = neighbours fs' v := by
  ext id
  exact exists_congr fun f => and_congr_left' h.mem_iff

theorem before_congr (hfs : fs.Perm fs') : h.Before fs v w ↔ h.Before fs' v w := by
  cases h with
  | minDegree => rw [Before, Before, neighbours_congr hfs, neighbours_congr hfs]
  | declaration => exact Iff.rfl

theorem Before.asymm (hvw : h.Before fs v w) : ¬h.Before fs w v := by
  cases h with
  | minDegree =>
      simp only [Before, UInt32.lt_iff_toNat_lt] at hvw ⊢
      omega
  | declaration => exact UInt32.lt_asymm hvw

/-! ### Sorting -/

/-- The rank by which the variables are sorted, before their identities. -/
def rank (h : Heuristic) (fs : List (Factor α)) : Variable → ℕ :=
  match h with
  | minDegree => degree fs
  | declaration => fun _ => 0

theorem order_eq (h : Heuristic) (hidden : List Variable) (fs : List (Factor α)) :
    h.order hidden fs =
      (Sorting.sort precedes (hidden.map fun v => (h.rank fs v, v))).map (·.2) := by
  cases h <;> rfl

theorem precedes_total (a b : ℕ × Variable) : precedes a b ∨ precedes b a := by
  simp only [precedes, Bool.or_eq_true, Bool.and_eq_true, decide_eq_true_eq, beq_iff_eq,
    UInt32.le_iff_toNat_le]
  omega

theorem precedes_trans (a b c : ℕ × Variable) (hab : precedes a b) (hbc : precedes b c) :
    precedes a c := by
  simp only [precedes, Bool.or_eq_true, Bool.and_eq_true, decide_eq_true_eq, beq_iff_eq,
    UInt32.le_iff_toNat_le] at hab hbc ⊢
  omega

/-- Of two distinct variables the one that may come first comes strictly first. -/
theorem before_of_precedes (hne : v.id ≠ w.id)
    (hvw : precedes (h.rank fs v, v) (h.rank fs w, w)) : h.Before fs v w := by
  rw [← UInt32.toNat_inj.ne] at hne
  simp only [precedes, Bool.or_eq_true, Bool.and_eq_true, decide_eq_true_eq, beq_iff_eq,
    UInt32.le_iff_toNat_le] at hvw
  cases h with
  | minDegree =>
      simp only [rank, degree_eq_ncard] at hvw
      simp only [Before, UInt32.lt_iff_toNat_lt]
      omega
  | declaration =>
      simp only [Before, UInt32.lt_iff_toNat_lt]
      simp only [rank] at hvw
      omega

/-- The variables are eliminated in strictly ascending order. -/
theorem pairwise_order (hnodup : (Axes.ids hidden).Nodup) :
    (h.order hidden fs).Pairwise (h.Before fs) := by
  have hids : (Axes.ids (h.order hidden fs)).Perm (Axes.ids hidden) := (perm_order h hidden fs).map _
  have hdistinct : (h.order hidden fs).Pairwise fun v w => v.id ≠ w.id :=
    List.pairwise_map.mp (hids.nodup_iff.mpr hnodup)
  have hsorted := Sorting.pairwise_sort precedes precedes_total precedes_trans
    (hidden.map fun v => (h.rank fs v, v))
  have hrank : ∀ p ∈ Sorting.sort precedes (hidden.map fun v => (h.rank fs v, v)),
      p = (h.rank fs p.2, p.2) := by
    intro p hp
    obtain ⟨v, -, rfl⟩ := List.mem_map.mp (Sorting.mem_sort precedes |>.mp hp)
    rfl
  rw [order_eq] at hdistinct ⊢
  rw [List.pairwise_map] at hdistinct ⊢
  refine (hsorted.and hdistinct).imp_of_mem fun {p q} hp hq hpq => ?_
  rw [hrank p hp, hrank q hq] at hpq
  exact before_of_precedes hpq.2 hpq.1

/-- The order of a pass depends only on which variables and factors there are. -/
theorem order_eq_of_perm (hnodup : (Axes.ids hidden).Nodup) (hhidden : hidden'.Perm hidden)
    (hfs : fs'.Perm fs) : h.order hidden' fs' = h.order hidden fs := by
  have hids : (Axes.ids hidden').Perm (Axes.ids hidden) := hhidden.map _
  have hnodup' : (Axes.ids hidden').Nodup := hids.nodup_iff.mpr hnodup
  have hsorted' : (h.order hidden' fs').Pairwise (h.Before fs) :=
    (pairwise_order hnodup').imp fun hvw => (before_congr hfs).mp hvw
  refine List.Perm.eq_of_pairwise (fun v w _ _ hvw hwv => absurd hwv hvw.asymm) hsorted'
    (pairwise_order hnodup) ?_
  exact (perm_order h hidden' fs').trans (hhidden.trans (perm_order h hidden fs).symm)

end Influence.Heuristic
