import Influence.Proofs.Elimination.Decision
import Influence.Proofs.Elimination.Reordering
import Influence.Proofs.Table.Marginal

/-! # Pools that leave the same choice

Two pools leave a decision the same choice if the tables that bear on it order its outcomes alike in
every state (`Tables.SameChoice`).  Then the rules of the decision are alike
(`Tables.SameChoice.exists_decide`):

* the best shares of a row depend only on the order of its cells;
* the axes that are dropped from a rule are those on which it does not depend, in whatever order they
  are tried (`Tables.narrows_dropUnobserved`).

Pools that are alike leave the same choice, and the tables found for the decision are alike
(`Tables.Alike.exists_decide`). -/

namespace Influence

open scoped Exact

variable {sizes : VariableId → ℕ}

/-! ### What a table depends on -/

namespace Table

variable {t u : Table ℚ} {v : Variable} {id : VariableId}

/-- The value of a table changes with the outcome of a variable. -/
def DependsOn (sizes : VariableId → ℕ) (t : Table ℚ) (id : VariableId) : Prop :=
  ∃ x y : Assignment, x.Valid sizes ∧ y.Valid sizes ∧ (∀ i, i ≠ id → x i = y i) ∧
    t.valueAt x ≠ t.valueAt y

theorem dependsOn_congr (h : ∀ x : Assignment, x.Valid sizes → u.valueAt x = t.valueAt x) :
    u.DependsOn sizes id ↔ t.DependsOn sizes id := by
  refine exists₂_congr fun x y => and_congr_right fun hx => and_congr_right fun hy => ?_
  rw [h x hx, h y hy]

theorem valueAt_set_of_not_dependsOn (h : ¬t.DependsOn sizes v.id) {x : Assignment}
    (hx : x.Valid sizes) {k : ℕ} (hk : k < sizes v.id) : t.valueAt (x.set v k) = t.valueAt x := by
  by_contra hne
  exact h ⟨_, x, hx.set hk, hx, fun _ hi => x.set_of_ne hi k, hne⟩

/-- The cells of a table are compared along an axis to find out whether it depends on it. -/
theorem Fits.isConstantAlong_iff (ht : t.Fits sizes) (hpos : ∀ id, 0 < sizes id)
    (hv : t.mentions v) (hsize : v.arity = sizes v.id) :
    t.isConstantAlong v ↔ ¬t.DependsOn sizes v.id := by
  rw [isConstantAlong, List.all_eq_true]
  constructor
  · rintro hall ⟨x, y, hx, hy, hxy, hne⟩
    have hsame : ∀ j < v.arity, (t.restrict v j).sameCells (t.restrict v 0) := by
      intro j hj
      rcases Nat.eq_zero_or_pos j with rfl | hjpos
      · exact beq_self_eq_true _
      · refine hall j (List.mem_range'_1.mpr ⟨hjpos, ?_⟩)
        omega
    have hread : ∀ z : Assignment, z.Valid sizes → (t.restrict v 0).valueAt z = t.valueAt z :=
      fun z hz => ht.valueAt_restrict_of_sameCells hv hsize hsame hz
    rw [← hread x hx, ← hread y hy] at hne
    refine hne (valueAt_congr _ fun i hi => hxy i ?_)
    exact ((Axes.mem_ids_without ht.wellFormed.nodup).mp hi).2
  · intro hfree k hk
    obtain ⟨hle, hlt⟩ := List.mem_range'_1.mp hk
    have hk : k < sizes v.id := by omega
    refine beq_iff_eq.mpr ((ht.restrict v 0).cells_eq (ht.restrict v k) rfl hpos fun y hy => ?_)
    rw [ht.valueAt_restrict hv hy, ht.valueAt_restrict hv hy,
      valueAt_set_of_not_dependsOn hfree hy hk, valueAt_set_of_not_dependsOn hfree hy (hpos _)]

end Table

/-! ### Dropped axes -/

namespace Tables

variable {s : Setting ℚ} {d v : Variable} {vars vars' : Axes} {p p' q q' : Table ℚ × Table ℚ}

/-- The second pair of tables lacks those of some axes on which the rule does not depend.  The table
from which the rule was taken is read at the first outcome of each. -/
structure Narrows (sizes : VariableId → ℕ) (vars : Axes) (p q : Table ℚ × Table ℚ) : Prop where
  paired : Paired sizes q
  ids : ∀ id, id ∈ q.2.axes.ids ↔ id ∈ p.2.axes.ids ∧ (id ∈ vars.ids → p.2.DependsOn sizes id)
  rule : ∀ x : Assignment, x.Valid sizes → q.2.valueAt x = p.2.valueAt x
  combined : ∀ x : Assignment, x.Valid sizes →
    (∀ id ∈ p.2.axes.ids, id ∉ q.2.axes.ids → x id = 0) → q.1.valueAt x = p.1.valueAt x

theorem Narrows.trans {r : Table ℚ × Table ℚ} (h : Narrows sizes vars p q)
    (h' : Narrows sizes vars' q r) : Narrows sizes (vars ++ vars') p r where
  paired := h'.paired
  ids := fun id => by
    rw [h'.ids, h.ids, Table.dependsOn_congr h.rule, Axes.ids_append, List.mem_append]
    tauto
  rule := fun x hx => (h'.rule x hx).trans (h.rule x hx)
  combined := fun x hx hzero => by
    refine (h'.combined x hx fun id hid => hzero id ((h.ids id).mp hid).1).trans
      (h.combined x hx fun id hid hout => hzero id hid fun hid' => hout ?_)
    exact ((h'.ids id).mp hid').1

/-- One axis is dropped, unless the rule depends on it. -/
theorem narrows_dropAxis (hpos : ∀ id, 0 < sizes id) (hp : Paired sizes p)
    (hmem : v.id ∈ p.2.axes.ids) (hsize : v.arity = sizes v.id) :
    Narrows sizes [v] p (dropAxis p v) := by
  have hmentions : p.2.mentions v := Table.mentions_iff.mpr hmem
  have hmentions' : p.1.mentions v := Table.mentions_iff.mpr (hp.perm.mem_iff.mpr hmem)
  have hconstant := hp.right.isConstantAlong_iff hpos hmentions hsize
  unfold dropAxis
  split
  next hdrop =>
    have hfree := hconstant.mp hdrop
    have hwithout : ∀ id, id ∈ (p.2.restrict v 0).axes.ids ↔ id ∈ p.2.axes.ids ∧ id ≠ v.id :=
      fun _ => Axes.mem_ids_without hp.right.wellFormed.nodup
    constructor
    case paired => exact hp.restrict v
    case ids =>
      intro id
      rw [hwithout]
      by_cases hid : id = v.id
      · simp [hid, hfree]
      · simp [hid]
    case rule =>
      intro x hx
      rw [hp.right.valueAt_restrict hmentions hx,
        Table.valueAt_set_of_not_dependsOn hfree hx (hpos _)]
    case combined =>
      intro x hx hzero
      have hv : x v.id = 0 := hzero _ hmem fun h => ((hwithout _).mp h).2 rfl
      refine (hp.left.valueAt_restrict hmentions' hx 0).trans ?_
      rw [← hv, Assignment.set_self]
  next hkeep =>
    have hdepends : p.2.DependsOn sizes v.id := by
      by_contra hfree
      exact hkeep (hconstant.mpr hfree)
    refine ⟨hp, fun id => ?_, fun _ _ => rfl, fun _ _ _ => rfl⟩
    refine (and_iff_left fun hid => ?_).symm
    rwa [List.mem_singleton.mp hid]

/-- Axes are dropped one after the other. -/
theorem narrows_dropAxes (hpos : ∀ id, 0 < sizes id) (hp : Paired sizes p)
    (hnodup : vars.ids.Nodup) (hsized : vars.Sized sizes) (hsub : vars.ids ⊆ p.2.axes.ids) :
    Narrows sizes vars p (vars.foldl dropAxis p) := by
  induction vars generalizing p with
  | nil => exact ⟨hp, by simp, fun _ _ => rfl, fun _ _ _ => rfl⟩
  | cons v vars ih =>
      obtain ⟨hfresh, hnodup⟩ := Axes.nodup_ids_cons.mp hnodup
      obtain ⟨hsize, hsized⟩ := Axes.sized_cons.mp hsized
      rw [Axes.ids_cons, List.cons_subset] at hsub
      refine (narrows_dropAxis hpos hp hsub.1 hsize).trans
        (ih (hp.dropAxis v) hnodup hsized fun id hid => ?_)
      exact hp.mem_dropAxis (hsub.2 hid) fun h => hfresh (h ▸ hid)

theorem narrows_dropUnobserved (hpos : ∀ id, 0 < sizes id) (hp : Paired sizes p) (s : Setting ℚ)
    (d : Variable) : Narrows sizes (unobserved s d p.2) p (dropUnobserved s d p) := by
  have hsub : unobserved s d p.2 ⊆ p.2.axes := List.filter_sublist.subset
  exact narrows_dropAxes hpos hp (Axes.nodup_ids_filter hp.right.wellFormed.nodup _)
    (hp.right.sized.subset hsub) (List.map_subset _ hsub)

/-- Rules that are alike are still so when axes have been dropped. -/
theorem Narrows.alike_rule (h : Narrows sizes vars p q) (h' : Narrows sizes vars' p' q')
    (hvars : ∀ id, id ∈ vars'.ids ↔ id ∈ vars.ids) (hrule : Table.Alike sizes p.2 p'.2) :
    Table.Alike sizes q.2 q'.2 where
  fits := h.paired.right
  fits' := h'.paired.right
  ids := fun id => by
    rw [h.ids, h'.ids, hrule.ids, hvars, Table.dependsOn_congr hrule.value]
  value := fun x hx => by rw [h'.rule x hx, h.rule x hx, hrule.value x hx]

/-- So are the tables from which they were taken. -/
theorem Narrows.alike_combined (h : Narrows sizes vars p q) (h' : Narrows sizes vars' p' q')
    (hvars : ∀ id, id ∈ vars'.ids ↔ id ∈ vars.ids) (hpos : ∀ id, 0 < sizes id)
    (hrule : Table.Alike sizes p.2 p'.2) (hcombined : Table.Alike sizes p.1 p'.1) :
    Table.Alike sizes q.1 q'.1 := by
  have hids := (h.alike_rule h' hvars hrule).ids
  refine ⟨h.paired.left, h'.paired.left, fun id => ?_, fun x hx => ?_⟩
  · rw [h.paired.perm.mem_iff, h'.paired.perm.mem_iff, hids]
  · -- both tables are read at the first outcome of every axis that was dropped
    let y : Assignment := fun id => if id ∈ q.2.axes.ids then x id else 0
    have hy : y.Valid sizes := fun id => by
      by_cases hid : id ∈ q.2.axes.ids
      · simpa only [y, if_pos hid] using hx id
      · simpa only [y, if_neg hid] using hpos id
    have hkept : ∀ id ∈ q.2.axes.ids, x id = y id := fun id hid => (if_pos hid).symm
    have hzero : ∀ id, id ∉ q.2.axes.ids → y id = 0 := fun id hid => if_neg hid
    calc q'.1.valueAt x
        = q'.1.valueAt y := Table.valueAt_congr _ fun id hid =>
          hkept id ((hids id).mp (h'.paired.perm.subset hid))
      _ = p'.1.valueAt y := h'.combined y hy fun id _ hid => hzero id ((hids id).not.mp hid)
      _ = p.1.valueAt y := hcombined.value y hy
      _ = q.1.valueAt y := (h.combined y hy fun id _ hid => hzero id hid).symm
      _ = q.1.valueAt x := (Table.valueAt_congr _ fun id hid =>
          hkept id (h.paired.perm.subset hid)).symm

/-! ### Choices -/

variable {parents : List Variable} {t u : Table ℚ} {ts us : List (Table ℚ)}

/-- The tables of two lists order the outcomes of a decision alike in every state. -/
structure SameChoice (sizes : VariableId → ℕ) (d : Variable) (ts us : List (Table ℚ)) : Prop where
  ids : ∀ id, id ∈ (axes us).ids ↔ id ∈ (axes ts).ids
  le_iff : ∀ x : Assignment, x.Valid sizes → ∀ j < d.arity, ∀ k < d.arity,
    weight us (x.set d j) ≤ weight us (x.set d k) ↔ weight ts (x.set d j) ≤ weight ts (x.set d k)

theorem decide_congr {s' : Setting ℚ} (h : s'.dependencies = s.dependencies) (d : Variable)
    (ts : List (Table ℚ)) : decide s' d ts = decide s d ts := by
  unfold decide bearing dropUnobserved unobserved
  rw [h]

theorem mem_bearing_of_decide (h : decide s d ts = .ok p) : d.id ∈ (axes (bearing s d ts)).ids := by
  have hempty : ¬(bearing s d ts).isEmpty := fun hempty => by
    rw [decide, if_pos hempty] at h
    cases h
  obtain ⟨t, ht⟩ := List.exists_mem_of_ne_nil _ (List.isEmpty_iff.not.mp hempty)
  exact mem_ids_axes.mpr ⟨t, ht, mentions_of_mem_bearing ht⟩

/-- What is found for a decision on which some table bears. -/
theorem exists_decide (hts : ∀ t ∈ ts, t.Fits sizes) (hsize : d.arity = sizes d.id)
    (hmem : d.id ∈ (axes (bearing s d ts)).ids) :
    ∃ rule, Paired sizes (Table.product (bearing s d ts), rule) ∧
      Table.IsConditional sizes d rule.valueAt ∧
      (∀ x : Assignment, x.Valid sizes →
        rule.valueAt x = Table.bestShare d (weight (bearing s d ts)) x) ∧
      decide s d ts = .ok (dropUnobserved s d (.product (bearing s d ts), rule)) := by
  have hfits : ∀ t ∈ bearing s d ts, t.Fits sizes := fun t ht => hts t (List.mem_of_mem_filter ht)
  have hproduct : (Table.product (bearing s d ts)).Fits sizes := Table.fits_foldAll hfits
  have hmentions : (Table.product (bearing s d ts)).mentions d :=
    Table.mentions_iff.mpr (Table.mem_ids_foldAll.mpr (mem_ids_axes.mp hmem))
  obtain ⟨hrule, hbest⟩ := hproduct.isBestRule hmentions hsize
  obtain ⟨hruleFits, hperm⟩ := hproduct.rule hmentions hsize hrule
  refine ⟨Table.replaceRows Table.shares (Table.product (bearing s d ts)) d,
    ⟨hproduct, hruleFits, hperm.symm⟩, hbest.toIsConditional, fun x hx => ?_, ?_⟩
  · rw [hproduct.valueAt_rule hmentions hsize hx]
    refine Table.bestShare_congr rfl rfl fun j hj k hk => ?_
    have hset : ∀ i < d.arity, (x.set d i).Valid sizes := fun i hi => hx.set (by rwa [← hsize])
    rw [Table.Fits.valueAt_product hfits (hset j hj), Table.Fits.valueAt_product hfits (hset k hk)]
    rfl
  · have hempty : ¬(bearing s d ts).isEmpty := fun hempty => by
      rw [List.isEmpty_iff.mp hempty] at hmem
      cases hmem
    rw [decide, if_neg hempty, hrule]

theorem ids_subset_of_decide (hpos : ∀ id, 0 < sizes id) (hts : ∀ t ∈ ts, t.Fits sizes)
    (hsize : d.arity = sizes d.id) (h : decide s d ts = .ok p) :
    p.2.axes.ids ⊆ (axes ts).ids := by
  obtain ⟨rule, hpaired, -, -, hdecide⟩ := exists_decide hts hsize (mem_bearing_of_decide h)
  obtain rfl := Except.ok.inj (h.symm.trans hdecide)
  intro id hid
  have hproduct := hpaired.perm.symm.subset
    (((narrows_dropUnobserved hpos hpaired s d).ids id).mp hid).1
  obtain ⟨t, ht, hid⟩ := Table.mem_ids_foldAll.mp hproduct
  exact mem_ids_axes.mpr ⟨t, List.mem_of_mem_filter ht, hid⟩

theorem ids_subset_of_decide_eliminateAll {vars : List Variable} (hpos : ∀ id, 0 < sizes id)
    (hts : ∀ t ∈ ts, t.Fits sizes) (hsize : d.arity = sizes d.id)
    (h : decide s d (eliminateAll vars ts) = .ok p) : p.2.axes.ids ⊆ (axes ts).ids := fun _ hid =>
  ((mem_ids_eliminateAll (distinct_of_fits hts)).mp
    (ids_subset_of_decide hpos (fits_eliminateAll hts vars) hsize h hid)).1

theorem isConditional_of_decide (hpos : ∀ id, 0 < sizes id) (hts : ∀ t ∈ ts, t.Fits sizes)
    (hsize : d.arity = sizes d.id) (h : decide s d ts = .ok p) :
    Table.IsConditional sizes d p.2.valueAt := by
  obtain ⟨rule, hpaired, hconditional, -, hdecide⟩ :=
    exists_decide hts hsize (mem_bearing_of_decide h)
  obtain rfl := Except.ok.inj (h.symm.trans hdecide)
  exact hconditional.congr hsize (narrows_dropUnobserved hpos hpaired s d).rule

/-- **Pools that leave the same choice have the same rule.** -/
theorem SameChoice.exists_decide (h : SameChoice sizes d (bearing s d ts) (bearing s d us))
    (hpos : ∀ id, 0 < sizes id) (hts : ∀ t ∈ ts, t.Fits sizes) (hus : ∀ t ∈ us, t.Fits sizes)
    (hsize : d.arity = sizes d.id) (hdecide : decide s d ts = .ok p) :
    ∃ q, decide s d us = .ok q ∧ Table.Alike sizes p.2 q.2 ∧
      (Alike sizes (bearing s d ts) (bearing s d us) → Table.Alike sizes p.1 q.1) := by
  have hmem := mem_bearing_of_decide hdecide
  obtain ⟨rule, hpaired, -, hvalue, hp⟩ := Tables.exists_decide hts hsize hmem
  obtain ⟨rule', hpaired', -, hvalue', hq⟩ := Tables.exists_decide hus hsize ((h.ids _).mpr hmem)
  obtain rfl := Except.ok.inj (hdecide.symm.trans hp)
  have hids : ∀ id, id ∈ rule'.axes.ids ↔ id ∈ rule.axes.ids := fun id => by
    rw [← hpaired.perm.mem_iff, ← hpaired'.perm.mem_iff]
    simpa only [Table.product, Table.mem_ids_foldAll, ← mem_ids_axes] using h.ids id
  have halike : Table.Alike sizes rule rule' := by
    refine ⟨hpaired.right, hpaired'.right, hids, fun x hx => ?_⟩
    rw [hvalue x hx, hvalue' x hx]
    exact Table.bestShare_congr rfl rfl (h.le_iff x hx)
  have hvars : ∀ id, id ∈ Axes.ids (unobserved s d rule') ↔ id ∈ Axes.ids (unobserved s d rule) :=
    fun id => by
      rw [unobserved, unobserved, Axes.mem_ids_filter_mentions, Axes.mem_ids_filter_mentions, hids]
  have hnarrows := narrows_dropUnobserved hpos hpaired s d
  have hnarrows' := narrows_dropUnobserved hpos hpaired' s d
  exact ⟨_, hq, hnarrows.alike_rule hnarrows' hvars halike, fun hbearing =>
    hnarrows.alike_combined hnarrows' hvars hpos halike hbearing.product⟩

/-! ### Pools that are alike -/

theorem bearsOn_iff : bearsOn d parents t ↔ d.id ∈ t.axes.ids ∧
    (parents = [] ∨ t.axes.ids.length = 1 ∨ ∃ id ∈ t.axes.ids, id ∈ Axes.ids parents) := by
  have hany : t.axes.any (Axes.mentions parents) ↔ ∃ id ∈ t.axes.ids, id ∈ Axes.ids parents := by
    rw [List.any_eq_true]
    constructor
    · rintro ⟨v, hv, hmem⟩
      exact ⟨v.id, Axes.mem_ids_of_mem hv, Axes.mentions_iff.mp hmem⟩
    · rintro ⟨id, hid, hmem⟩
      obtain ⟨v, hv, rfl⟩ := Axes.mem_ids.mp hid
      exact ⟨v, hv, Axes.mentions_iff.mpr hmem⟩
  rw [bearsOn, Bool.and_eq_true, Bool.or_eq_true, Bool.or_eq_true, Table.mentions_iff, hany,
    List.isEmpty_iff, beq_iff_eq, or_assoc, Axes.length_ids]

theorem bearsOn_congr (ht : t.axes.ids.Nodup) (hu : u.axes.ids.Nodup)
    (hids : ∀ id, id ∈ u.axes.ids ↔ id ∈ t.axes.ids) (d : Variable) (parents : List Variable) :
    bearsOn d parents t = bearsOn d parents u := by
  have hperm : u.axes.ids.Perm t.axes.ids := (List.perm_ext_iff_of_nodup hu ht).mpr hids
  rw [Bool.eq_iff_iff, bearsOn_iff, bearsOn_iff, hperm.length_eq]
  simp only [hids]

theorem Alike.bearing (h : Alike sizes ts us) :
    Alike sizes (bearing s d ts) (bearing s d us) :=
  h.filter fun _ _ htu =>
    bearsOn_congr htu.fits.wellFormed.nodup htu.fits'.wellFormed.nodup htu.ids _ _

theorem Alike.sameChoice (h : Alike sizes ts us) (hsize : d.arity = sizes d.id) :
    SameChoice sizes d ts us where
  ids := fun _ => h.mem_ids_axes
  le_iff := fun x hx j hj k hk => by
    rw [h.weight_eq (hx.set (by rwa [← hsize])), h.weight_eq (hx.set (by rwa [← hsize]))]

/-- **What is found for a decision does not depend on the order of tables and axes.** -/
theorem Alike.exists_decide (h : Alike sizes ts us) (hpos : ∀ id, 0 < sizes id)
    (hsize : d.arity = sizes d.id) (hdecide : decide s d ts = .ok p) :
    ∃ q, decide s d us = .ok q ∧ Table.Alike sizes p.1 q.1 ∧ Table.Alike sizes p.2 q.2 := by
  obtain ⟨q, hq, hrule, hcombined⟩ := (h.bearing.sameChoice hsize).exists_decide hpos
    (fun _ ht => h.fits ht) (fun _ hu => h.symm.fits hu) hsize hdecide
  exact ⟨q, hq, hcombined h.bearing, hrule⟩

end Tables

end Influence
