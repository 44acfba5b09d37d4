import Influence.Proofs.Table.Rows

/-! # Tables of distributions

A `Law` is a table that gives the distribution of one variable, its `head`, in every state of its
other axes.  In a diagram the heads are distinct and the other axes of a law come before its head,
which `Law.Sound` says with a rank.  What follows from sums alone asks for less: a law is
`Law.Normal` if it adds up to one over its head, be its cells negative or not.

* `sumOver_heads`: the product of some laws adds up to one over their heads.
* `sumOver_set_laws`: a sum over heads does not depend on a variable if all heads after it are
  summed. -/

namespace Influence

open scoped Exact

/-- A table with the variable whose distribution it gives. -/
structure Law where
  head : Variable
  table : Table ℚ

namespace Law

variable {sizes rank : VariableId → ℕ} {laws : List Law} {l : Law} {x : Assignment}

/-- The table adds up to one over the head, whose rank is above that of the other axes. -/
structure Normal (sizes rank : VariableId → ℕ) (l : Law) : Prop where
  fits : l.table.Fits sizes
  arity : l.head.arity = sizes l.head.id
  mem : l.head.id ∈ l.table.axes.ids
  sum_one : ∀ x : Assignment, x.Valid sizes →
    ∑ k ∈ Finset.range l.head.arity, l.table.valueAt (x.set l.head k) = 1
  rank_lt : ∀ id ∈ l.table.axes.ids, id ≠ l.head.id → rank id < rank l.head.id

/-- The table gives the distribution of the head, whose rank is above that of the other axes. -/
structure Sound (sizes rank : VariableId → ℕ) (l : Law) : Prop extends Normal sizes rank l where
  nonneg : ∀ x : Assignment, x.Valid sizes → 0 ≤ l.table.valueAt x

/-- The heads of some laws. -/
def heads (laws : List Law) : Axes := laws.map (·.head)

/-- The tables of some laws. -/
def tables (laws : List Law) : List (Table ℚ) := laws.map (·.table)

@[simp] theorem heads_cons (l : Law) (laws : List Law) : heads (l :: laws) = l.head :: heads laws :=
  rfl

@[simp] theorem tables_cons (l : Law) (laws : List Law) :
    tables (l :: laws) = l.table :: tables laws := rfl

theorem sized_heads (hlaws : ∀ l ∈ laws, l.Normal sizes rank) : (heads laws).Sized sizes := by
  intro v hv
  obtain ⟨l, hl, rfl⟩ := List.mem_map.mp hv
  exact (hlaws l hl).arity

theorem mem_ids_heads {id : VariableId} :
    id ∈ (heads laws).ids ↔ ∃ l ∈ laws, l.head.id = id := by
  simp [heads, Axes.ids]

theorem ids_heads_subset (hlaws : ∀ l ∈ laws, l.Normal sizes rank) :
    (heads laws).ids ⊆ (Tables.axes (tables laws)).ids := by
  intro id hid
  obtain ⟨l, hl, rfl⟩ := mem_ids_heads.mp hid
  exact Tables.mem_ids_axes.mpr ⟨l.table, List.mem_map_of_mem hl, (hlaws l hl).mem⟩

theorem weight_nonneg (hlaws : ∀ l ∈ laws, l.Sound sizes rank) (hx : x.Valid sizes) :
    0 ≤ Tables.weight (tables laws) x := by
  refine Tables.weight_nonneg fun t ht => ?_
  obtain ⟨l, hl, rfl⟩ := List.mem_map.mp ht
  exact (hlaws l hl).nonneg x hx

/-- Some law has a head of largest rank. -/
theorem exists_last (rank : VariableId → ℕ) (hne : laws ≠ []) :
    ∃ l rest, laws.Perm (l :: rest) ∧ ∀ l' ∈ rest, rank l'.head.id ≤ rank l.head.id := by
  induction laws with
  | nil => exact absurd rfl hne
  | cons l laws ih =>
      by_cases hempty : laws = []
      · exact ⟨l, [], by rw [hempty], by simp⟩
      · obtain ⟨last, rest, hperm, hle⟩ := ih hempty
        rcases Nat.le_total (rank l.head.id) (rank last.head.id) with h | h
        · refine ⟨last, l :: rest, (hperm.cons l).trans (.swap _ _ _), fun l' hl' => ?_⟩
          rcases List.mem_cons.mp hl' with rfl | hl'
          · exact h
          · exact hle l' hl'
        · refine ⟨l, laws, .refl _, fun l' hl' => ?_⟩
          rcases List.mem_cons.mp (hperm.mem_iff.mp hl') with rfl | hl'
          · exact h
          · exact (hle l' hl').trans h

theorem notMem_of_le {l l' : Law} (hl' : l'.Normal sizes rank) (hne : l.head.id ≠ l'.head.id)
    (hle : rank l'.head.id ≤ rank l.head.id) : l.head.id ∉ l'.table.axes.ids := fun hmem =>
  absurd (hl'.rank_lt _ hmem hne) (Nat.not_lt.mpr hle)

/-- **Laws add up to one.**  Summed over all their heads, the product of some laws is one. -/
theorem sumOver_heads (hlaws : ∀ l ∈ laws, l.Normal sizes rank) (hnodup : (heads laws).ids.Nodup)
    (hx : x.Valid sizes) : Axes.sumOver (heads laws) (Tables.weight (tables laws)) x = 1 := by
  induction hlength : laws.length generalizing laws with
  | zero =>
      rw [List.length_eq_zero_iff.mp hlength]
      rfl
  | succ k ih =>
      obtain ⟨l, rest, hperm, hle⟩ := exists_last rank (List.ne_nil_of_length_eq_add_one hlength)
      have hnormal : ∀ l' ∈ l :: rest, l'.Normal sizes rank := fun l' hl' =>
        hlaws l' (hperm.mem_iff.mpr hl')
      obtain ⟨hl, hrest⟩ := List.forall_mem_cons.mp hnormal
      have hheads : (heads laws).Perm (l.head :: heads rest) := hperm.map _
      obtain ⟨hfresh, hnodup'⟩ := Axes.nodup_ids_cons.mp ((hheads.map _).nodup_iff.mp hnodup)
      have hignores : Ignores (Tables.weight (tables rest)) [l.head] := by
        refine Tables.ignores_weight fun t ht v hv => ?_
        obtain ⟨l', hl', rfl⟩ := List.mem_map.mp ht
        rw [List.mem_singleton.mp hv]
        exact notMem_of_le (hrest l' hl')
          (fun h => hfresh (mem_ids_heads.mpr ⟨l', hl', h.symm⟩)) (hle l' hl')
      calc Axes.sumOver (heads laws) (Tables.weight (tables laws)) x
          = Axes.sumOver (l.head :: heads rest) (Tables.weight (tables (l :: rest))) x := by
            rw [Axes.sumOver_perm hheads hnodup]
            exact congrArg (fun F => Axes.sumOver _ F x)
              (funext fun y => Tables.weight_perm (hperm.map _) y)
        _ = Axes.sumOver (heads rest) (Tables.weight (tables rest)) x := by
            rw [← Axes.sumOver_cons_inner hfresh]
            refine Axes.sumOver_congr (sized_heads hrest) hx fun y hy _ => ?_
            simp only [tables_cons, Tables.weight_cons, hignores.set]
            rw [← Finset.sum_mul, hl.sum_one y hy, one_mul]
        _ = 1 := by
            refine ih hrest hnodup' ?_
            have := hperm.length_eq
            rw [List.length_cons] at this
            omega

/-! ### Heads after a variable -/

/-- The laws whose heads come after a variable. -/
def after (rank : VariableId → ℕ) (d : Variable) (laws : List Law) : List Law :=
  laws.filter fun l => rank d.id < rank l.head.id

/-- The laws whose heads do not come after a variable. -/
def upTo (rank : VariableId → ℕ) (d : Variable) (laws : List Law) : List Law :=
  laws.filter fun l => !decide (rank d.id < rank l.head.id)

section

variable {d : Variable} {vars : Axes}

theorem perm_after_upTo (rank : VariableId → ℕ) (d : Variable) (laws : List Law) :
    laws.Perm (after rank d laws ++ upTo rank d laws) :=
  (List.filter_append_perm _ laws).symm

theorem mem_after : l ∈ after rank d laws ↔ l ∈ laws ∧ rank d.id < rank l.head.id := by
  simp [after]

theorem mem_upTo : l ∈ upTo rank d laws ↔ l ∈ laws ∧ rank l.head.id ≤ rank d.id := by
  simp [upTo]

/-- The laws after a variable add up to one, and the others are left. -/
theorem sumOver_laws (hlaws : ∀ l ∈ laws, l.Normal sizes rank) (hnodup : (heads laws).ids.Nodup)
    (hvars : vars.ids.Nodup) (hsized : vars.Sized sizes)
    (hheads : ∀ v ∈ vars, v.id ∈ (heads laws).ids)
    (hlate : ∀ l ∈ laws, rank d.id < rank l.head.id → l.head.id ∈ vars.ids) (hx : x.Valid sizes) :
    Axes.sumOver vars (Tables.weight (tables laws)) x =
      Axes.sumOver (vars.filter fun v => !decide (rank d.id < rank v.id))
        (Tables.weight (tables (upTo rank d laws))) x := by
  let late : Axes := vars.filter fun v => rank d.id < rank v.id
  let early : Axes := vars.filter fun v => !decide (rank d.id < rank v.id)
  have hperm : vars.Perm (early ++ late) :=
    (List.filter_append_perm _ vars).symm.trans List.perm_append_comm
  have hafter : ∀ l ∈ after rank d laws, l.Normal sizes rank := fun l hl => hlaws l (mem_after.mp hl).1
  have hnodup' : (heads (after rank d laws)).ids.Nodup :=
    hnodup.sublist ((List.filter_sublist.map _).map _)
  -- the later variables are exactly the heads of the later laws
  have hids : late.ids.Perm (heads (after rank d laws)).ids := by
    refine (List.perm_ext_iff_of_nodup (Axes.nodup_ids_filter hvars _) hnodup').mpr fun id => ?_
    rw [mem_ids_heads, Axes.mem_ids]
    constructor
    · rintro ⟨v, hv, rfl⟩
      obtain ⟨hv, hlt⟩ := List.mem_filter.mp hv
      obtain ⟨l, hl, hid⟩ := mem_ids_heads.mp (hheads v hv)
      exact ⟨l, mem_after.mpr ⟨hl, by simpa [hid] using hlt⟩, hid⟩
    · rintro ⟨l, hl, rfl⟩
      obtain ⟨hl, hlt⟩ := mem_after.mp hl
      obtain ⟨v, hv, hid⟩ := Axes.mem_ids.mp (hlate l hl hlt)
      exact ⟨v, List.mem_filter.mpr ⟨hv, by simpa [hid] using hlt⟩, hid⟩
  have hignores : Ignores (Tables.weight (tables (upTo rank d laws))) late := by
    refine Tables.ignores_weight fun t ht v hv hmem => ?_
    obtain ⟨l, hl, rfl⟩ := List.mem_map.mp ht
    obtain ⟨hl, hle⟩ := mem_upTo.mp hl
    have hlt : rank d.id < rank v.id := by simpa using (List.mem_filter.mp hv).2
    by_cases hid : v.id = l.head.id
    · rw [hid] at hlt
      omega
    · have := (hlaws l hl).rank_lt _ hmem hid
      omega
  rw [Axes.sumOver_perm hperm hvars, Axes.sumOver_append]
  refine Axes.sumOver_congr (hsized.subset List.filter_sublist.subset) hx fun y hy _ => ?_
  have hsplit : Tables.weight (tables laws) = fun z => Tables.weight (tables (upTo rank d laws)) z *
      Tables.weight (tables (after rank d laws)) z := by
    funext z
    have hperm' : (tables laws).Perm (tables (after rank d laws) ++ tables (upTo rank d laws)) := by
      have := (perm_after_upTo rank d laws).map (·.table)
      rwa [List.map_append] at this
    rw [Tables.weight_perm hperm', Tables.weight_append, mul_comm]
  rw [hsplit, Axes.sumOver_mul_left hignores,
    Axes.sumOver_perm_ids (hsized.subset List.filter_sublist.subset) (sized_heads hafter) hids
      (Axes.nodup_ids_filter hvars _), sumOver_heads hafter hnodup' hy, mul_one]

/-- A sum over heads does not depend on a variable if all heads after it are summed. -/
theorem sumOver_set_laws (hlaws : ∀ l ∈ laws, l.Normal sizes rank) (hnodup : (heads laws).ids.Nodup)
    (hvars : vars.ids.Nodup) (hsized : vars.Sized sizes)
    (hheads : ∀ v ∈ vars, v.id ∈ (heads laws).ids)
    (hlate : ∀ l ∈ laws, rank d.id < rank l.head.id → l.head.id ∈ vars.ids)
    (hd : d.id ∉ (heads laws).ids) (hx : x.Valid sizes) {k : ℕ} (hk : k < sizes d.id) :
    Axes.sumOver vars (Tables.weight (tables laws)) (x.set d k) =
      Axes.sumOver vars (Tables.weight (tables laws)) x := by
  rw [sumOver_laws hlaws hnodup hvars hsized hheads hlate (hx.set hk),
    sumOver_laws hlaws hnodup hvars hsized hheads hlate hx]
  refine (Axes.ignores_sumOver ?_ _).set x k
  refine Tables.ignores_weight fun t ht v hv hmem => ?_
  obtain ⟨l, hl, rfl⟩ := List.mem_map.mp ht
  obtain ⟨hl, hle⟩ := mem_upTo.mp hl
  rw [List.mem_singleton.mp hv] at hmem
  have := (hlaws l hl).rank_lt _ hmem fun h => hd (mem_ids_heads.mpr ⟨l, hl, h.symm⟩)
  omega

end

end Law

end Influence
