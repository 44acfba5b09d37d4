import Influence.Proofs.Elimination.Rescaling
import Influence.Proofs.Elimination.SameChoice

/-! # A decision beside other problems

A pool may hold the tables of several unrelated problems, over variables that no two of them share.
Their utilities are one table, though, the sum of all (`Table.Widens`).  An elimination keeps the
problems apart otherwise (`Law.Eliminable.exists_broadens`): the laws of the other problems add up to
one, and what the other utilities add does not depend on a decision of this problem.

So a decision finds the same rule as in its own problem (`Law.Beside.exists_decide`), as long as the same
tables bear on it.  The sum of the utilities mentions variables of the other problems as well, hence it may
be passed over where the utility alone was a table over nothing but the decision. -/

namespace Influence

open scoped Exact

variable {sizes rank : VariableId → ℕ} {own : Axes} {d : Variable}

/-! ### Pools that are seen alike -/

namespace Tables

variable {s : Setting ℚ} {ts us : List (Table ℚ)} {p : Table ℚ × Table ℚ} {known : Axes}

/-- The tables of two lists order the outcomes of a decision alike in every state, and mention the same
ones of some variables. -/
structure SameView (sizes : VariableId → ℕ) (d : Variable) (known : Axes)
    (ts us : List (Table ℚ)) : Prop where
  ids : ∀ id ∈ known.ids, id ∈ (axes us).ids ↔ id ∈ (axes ts).ids
  le_iff : ∀ x : Assignment, x.Valid sizes → ∀ j < d.arity, ∀ k < d.arity,
    weight us (x.set d j) ≤ weight us (x.set d k) ↔ weight ts (x.set d j) ≤ weight ts (x.set d k)

theorem dependsOn_mem {t : Table ℚ} {id : VariableId} (h : t.DependsOn sizes id) :
    id ∈ t.axes.ids := by
  obtain ⟨x, y, -, -, hxy, hne⟩ := h
  by_contra hid
  exact hne (t.valueAt_congr fun i hi => hxy i fun h => hid (h ▸ hi))

/-- **A rule that is observed is found in every pool that is seen alike.**  Variables that are not
observed do not matter to it, and are dropped. -/
theorem SameView.exists_decide
    (h : SameView sizes d (d :: s.dependencies.parents d) (bearing s d ts) (bearing s d us))
    (hpos : ∀ id, 0 < sizes id) (hts : ∀ t ∈ ts, t.Fits sizes) (hus : ∀ t ∈ us, t.Fits sizes)
    (hsize : d.arity = sizes d.id) (hdecide : decide s d ts = .ok p)
    (hobserved : p.2.axes.ids ⊆ Axes.ids (d :: s.dependencies.parents d)) :
    ∃ q, decide s d us = .ok q ∧ Table.Alike sizes p.2 q.2 := by
  have hmem := mem_bearing_of_decide hdecide
  obtain ⟨rule, hpaired, -, hvalue, hp⟩ := Tables.exists_decide hts hsize hmem
  obtain ⟨rule', hpaired', -, hvalue', hq⟩ :=
    Tables.exists_decide hus hsize ((h.ids d.id (by simp)).mpr hmem)
  obtain rfl := Except.ok.inj (hdecide.symm.trans hp)
  have hnarrows := narrows_dropUnobserved hpos hpaired s d
  have hnarrows' := narrows_dropUnobserved hpos hpaired' s d
  have hsame : ∀ x : Assignment, x.Valid sizes → rule'.valueAt x = rule.valueAt x := by
    intro x hx
    rw [hvalue x hx, hvalue' x hx]
    exact Table.bestShare_congr rfl rfl (h.le_iff x hx)
  have hunobserved : ∀ (rule : Table ℚ) (id : VariableId), id ∈ (unobserved s d rule).ids ↔
      id ∈ rule.axes.ids ∧ id ∉ Axes.ids (d :: s.dependencies.parents d) := fun rule id => by
    rw [unobserved, Axes.mem_ids_filter_mentions]
  have hknown : ∀ id ∈ Axes.ids (d :: s.dependencies.parents d),
      id ∈ rule'.axes.ids ↔ id ∈ rule.axes.ids := fun id hid => by
    rw [← hpaired.perm.mem_iff, ← hpaired'.perm.mem_iff]
    simpa only [Table.product, Table.mem_ids_foldAll, ← mem_ids_axes] using h.ids id hid
  refine ⟨_, hq, hnarrows.paired.right, hnarrows'.paired.right, fun id => ?_, fun x hx => ?_⟩
  · by_cases hid : id ∈ Axes.ids (d :: s.dependencies.parents d)
    · rw [hnarrows.ids, hnarrows'.ids, hknown id hid]
      exact and_congr_right fun _ => iff_of_true (fun h => absurd hid ((hunobserved _ _).mp h).2)
        fun h => absurd hid ((hunobserved _ _).mp h).2
    · -- the rule depends on nothing that is not observed
      have hfree : ¬rule.DependsOn sizes id := fun hdepends => hid (hobserved
        ((hnarrows.ids id).mpr ⟨dependsOn_mem hdepends, fun _ => hdepends⟩))
      refine iff_of_false (fun hmem => hfree ?_) fun hmem => hid (hobserved hmem)
      obtain ⟨hmem, hdepends⟩ := (hnarrows'.ids id).mp hmem
      exact (Table.dependsOn_congr hsame).mp (hdepends ((hunobserved rule' id).mpr ⟨hmem, hid⟩))
  · rw [hnarrows'.rule x hx, hnarrows.rule x hx, hsame x hx]

/-- What is found depends on the tables only through those that bear on the decision. -/
theorem decide_congr_bearing (h : bearing s d us = bearing s d ts) : decide s d us = decide s d ts := by
  unfold decide
  rw [h]

theorem decide_append {rest : List (Table ℚ)} (h : d.id ∉ (axes rest).ids) (ts : List (Table ℚ)) :
    decide s d (rest ++ ts) = decide s d ts := by
  refine decide_congr_bearing ?_
  rw [bearing, List.filter_append, List.filter_eq_nil_iff.mpr fun t ht hbears => ?_]
  · rfl
  · exact h (mem_ids_axes.mpr ⟨t, ht, (bearsOn_iff.mp hbears).1⟩)

/-! ### Tables that are left alone -/

theorem eliminate_append {v : Variable} {rest : List (Table ℚ)} (h : ∀ t ∈ rest, v.id ∉ t.axes.ids)
    (ts : List (Table ℚ)) : eliminate v (rest ++ ts) = rest ++ eliminate v ts := by
  induction rest with
  | nil => rfl
  | cons t rest ih =>
      obtain ⟨ht, hrest⟩ := List.forall_mem_cons.mp h
      rw [List.cons_append, eliminate_cons_of_not_mentions (Table.mentions_iff.not.mpr ht), ih hrest,
        List.cons_append]

theorem eliminateAll_append {vars : Axes} {rest : List (Table ℚ)}
    (h : ∀ t ∈ rest, ∀ v ∈ vars, v.id ∉ t.axes.ids) (ts : List (Table ℚ)) :
    eliminateAll vars (rest ++ ts) = rest ++ eliminateAll vars ts := by
  induction vars generalizing ts with
  | nil => rfl
  | cons v vars ih =>
      rw [eliminateAll_cons, eliminate_append fun t ht => h t ht v (by simp),
        ih fun t ht w hw => h t ht w (by simp [hw])]
      rfl

end Tables

/-! ### Utilities that are added -/

/-- The table `u'` is the table `u` of the own variables, with a function of other variables added. -/
structure Table.Widens (sizes : VariableId → ℕ) (own : Axes) (u u' : Table ℚ) : Prop where
  fits : u.Fits sizes
  fits' : u'.Fits sizes
  subset : u.axes.ids ⊆ own.ids
  ids : ∀ id ∈ own.ids, id ∈ u'.axes.ids ↔ id ∈ u.axes.ids
  value : ∃ G : Assignment → ℚ, Ignores G own ∧
    ∀ x : Assignment, x.Valid sizes → u'.valueAt x = u.valueAt x + G x

/-- The table `t'` is the table `t` of the own variables, with a function added that does not depend on a
decision.  Nor do the other tables. -/
structure Tables.Broadens (sizes : VariableId → ℕ) (own : Axes) (d : Variable) (t t' : Table ℚ)
    (rest : List (Table ℚ)) : Prop where
  subset : t.axes.ids ⊆ own.ids
  ids : ∀ id ∈ own.ids, id ∈ t'.axes.ids ↔ id ∈ t.axes.ids
  value : ∃ f : Assignment → ℚ, (∀ x : Assignment, x.Valid sizes → ConstantAt d f x) ∧
    ∀ x : Assignment, x.Valid sizes → t'.valueAt x = t.valueAt x + f x
  constant : ∀ s ∈ rest, ∀ x : Assignment, x.Valid sizes → ConstantAt d s.valueAt x

namespace Law.Eliminable

variable {laws : List Law} {vars : Axes} {u u' s : Table ℚ} {x : Assignment}

/-- If all heads are eliminated, then laws and a table that is one leave tables that are one. -/
theorem valueAt_eq_one (h : Eliminable sizes rank laws vars) (hall : (heads laws).ids ⊆ vars.ids)
    (hu : u.Fits sizes) (hone : ∀ x : Assignment, x.Valid sizes → u.valueAt x = 1)
    (hs : s ∈ Tables.eliminateAll vars (u :: tables laws)) (hx : x.Valid sizes) :
    s.valueAt x = 1 := by
  obtain ⟨blocks, hblocks, b, hb, rfl, hothers⟩ := h.exists_block hu hone hs
  have hlaws : ∀ l ∈ b.laws, l.Normal sizes rank := fun l hl =>
    h.normal l (hblocks.laws.mem_iff.mp (List.mem_flatMap.mpr ⟨b, hb, hl⟩))
  have hnodup : (heads b.laws).ids.Nodup := hblocks.nodup_heads_laws h.nodup_heads hb
  -- the block sums over exactly the heads of its laws
  have hperm : b.summed.ids.Perm (heads b.laws).ids := by
    refine (List.perm_ext_iff_of_nodup (hblocks.sound b hb).nodup hnodup).mpr fun id => ⟨fun hid => ?_,
      fun hid => ?_⟩
    · exact hblocks.mem_heads_of_summed h.normal h.subset hb hid
    · obtain ⟨l, hl, rfl⟩ := mem_ids_heads.mp hid
      have hlaw : l ∈ laws := hblocks.laws.mem_iff.mp (List.mem_flatMap.mpr ⟨b, hb, hl⟩)
      exact hblocks.mem_summed_of_head h.normal hb hl (hall (mem_ids_heads.mpr ⟨l, hlaw, rfl⟩))
  rw [hblocks.valueAt_eq_sumOver hb hothers hx, Axes.sumOver_perm_ids (hblocks.sound b hb).sized
    (sized_heads hlaws) hperm (hblocks.sound b hb).nodup, sumOver_heads hlaws hnodup hx]

/-- **Unrelated laws add up to one.**  If all their heads are eliminated, then what is left of the
utility is the own utility again, with a function of other variables added. -/
theorem exists_widens (h : Eliminable sizes rank laws vars) (hall : (heads laws).ids ⊆ vars.ids)
    (hout : ∀ id ∈ (Tables.axes (tables laws)).ids, id ∉ own.ids) (hu : u.Widens sizes own u') :
    ∃ t rest, Tables.Alike sizes (Tables.eliminateAll vars (u' :: tables laws)) (t :: rest) ∧
      u.Widens sizes own t ∧ ∀ id ∈ (Tables.axes rest).ids, id ∉ own.ids := by
  have hvars : ∀ v ∈ vars, v.id ∉ own.ids := fun v hv =>
    hout _ (ids_heads_subset h.normal (h.subset (Axes.mem_ids_of_mem hv)))
  obtain ⟨c, hsub, hfactors, hturns⟩ := Tables.exists_surrounding h.fits h.nodup h.sized
    fun id => decide (id ∈ u'.axes.ids)
  -- ones in the place of the utility show what the own utility is multiplied by
  let outer : Axes := u'.axes.filter fun v => !own.mentions v
  have hmemOuter : ∀ id, id ∈ outer.ids ↔ id ∈ u'.axes.ids ∧ id ∉ own.ids := fun id =>
    Axes.mem_ids_filter_mentions
  have hones : (Table.ones outer : Table ℚ).Fits sizes :=
    Table.fits_ones (Axes.nodup_ids_filter hu.fits'.wellFormed.nodup _)
      (fun v hv => hu.fits'.wellFormed.arity_pos v (List.mem_of_mem_filter hv))
      (hu.fits'.sized.subset List.filter_sublist.subset)
  have hone : ∀ x : Assignment, x.Valid sizes → (Table.ones outer : Table ℚ).valueAt x = 1 :=
    fun x hx => Table.valueAt_ones (hx.inRange hones.sized)
  obtain ⟨t, ht, halike⟩ := hturns u' hu.fits' fun v _ => by
    rw [Bool.eq_iff_iff, Table.mentions_iff, decide_eq_true_iff]
  obtain ⟨one, hone', halikeOne⟩ := hturns (Table.ones outer) hones fun v hv => by
    rw [Bool.eq_iff_iff, Table.mentions_iff, decide_eq_true_iff]
    exact (hmemOuter v.id).trans (and_iff_left (hvars v hv))
  have hrest : ∀ id ∈ (Tables.axes (one :: c.rest)).ids, id ∉ own.ids := by
    intro id hid
    obtain ⟨hid, -⟩ := (Tables.mem_ids_eliminateAll (Tables.distinct_of_fits
      (List.forall_mem_cons.mpr ⟨hones, h.fits⟩))).mp (halikeOne.mem_ids_axes.mp hid)
    rcases Tables.mem_ids_axes_cons.mp hid with hid | hid
    · exact ((hmemOuter id).mp hid).2
    · exact hout id hid
  have hunit : ∀ x : Assignment, x.Valid sizes →
      Axes.sumOver c.summed (Tables.weight c.factors) x = 1 := by
    intro x hx
    obtain ⟨s, hs, hsone⟩ := halikeOne.symm.exists_mem (List.mem_cons_self : one ∈ one :: c.rest)
    rw [← h.valueAt_eq_one hall hones hone hs hx, hsone.value x hx, hone'.value x hx]
    refine Axes.sumOver_congr (h.sized.subset hsub) hx fun y hy _ => ?_
    rw [hone y hy, mul_one]
  refine ⟨t, c.rest, halike, ?_, fun id hid =>
    hrest id (Tables.mem_ids_axes_cons.mpr (.inr hid))⟩
  have hfree : ∀ id ∈ (Tables.axes c.factors).ids, id ∉ own.ids := fun id hid => hout id (hfactors hid)
  constructor
  case fits => exact hu.fits
  case fits' => exact ht.fits
  case subset => exact hu.subset
  case ids =>
    intro id hid
    have hsummed : id ∉ c.summed.ids := fun hmem => by
      obtain ⟨v, hv, rfl⟩ := Axes.mem_ids.mp hmem
      exact hvars v (hsub hv) hid
    rw [ht.ids, ← hu.ids id hid]
    exact (and_iff_left hsummed).trans (or_iff_left fun hmem => hfree id hmem hid)
  case value =>
    obtain ⟨G, hG, hvalue⟩ := hu.value
    refine ⟨fun x => Axes.sumOver c.summed (fun y => Tables.weight c.factors y * G y) x,
      Axes.ignores_sumOver (Ignores.mul (Tables.ignores_weight fun s hs v hv hmem => ?_) hG) _,
      fun x hx => ?_⟩
    · exact hfree v.id (Tables.mem_ids_axes.mpr ⟨s, hs, hmem⟩) (Axes.mem_ids_of_mem hv)
    · have hignores : Ignores u.valueAt c.summed := Table.ignores_valueAt fun v hv hmem =>
        hvars v (hsub hv) (hu.subset hmem)
      calc t.valueAt x
          = Axes.sumOver c.summed (fun y => u.valueAt y * Tables.weight c.factors y +
              Tables.weight c.factors y * G y) x := by
            rw [ht.value x hx]
            refine Axes.sumOver_congr (h.sized.subset hsub) hx fun y hy _ => ?_
            rw [hvalue y hy]
            ring
        _ = u.valueAt x + Axes.sumOver c.summed (fun y => Tables.weight c.factors y * G y) x := by
            rw [Axes.sumOver_add, Axes.sumOver_mul_left hignores, hunit x hx, mul_one]

/-- **What other utilities add does not depend on a decision** once all heads after it are eliminated. -/
theorem exists_broadens (h : Eliminable sizes rank laws vars) (hcovers : Covers rank d laws vars)
    (hsize : d.arity = sizes d.id) (hd : d.id ∈ own.ids)
    (hin : (Tables.axes (tables laws)).ids ⊆ own.ids) (hu : u.Widens sizes own u') :
    ∃ t t' rest, Tables.Broadens sizes own d t t' rest ∧
      Tables.Alike sizes (Tables.eliminateAll vars (u :: tables laws)) (t :: rest) ∧
      Tables.Alike sizes (Tables.eliminateAll vars (u' :: tables laws)) (t' :: rest) := by
  have hvars : ∀ v ∈ vars, v.id ∈ own.ids := fun v hv =>
    hin (ids_heads_subset h.normal (h.subset (Axes.mem_ids_of_mem hv)))
  obtain ⟨c, one, hsub, hfactors, hturns, hone, hconstant⟩ := h.exists_turns hu.fits hcovers hsize
  have hsummed : c.summed.ids ⊆ own.ids := fun id hid => by
    obtain ⟨v, hv, rfl⟩ := Axes.mem_ids.mp hid
    exact hvars v (hsub hv)
  obtain ⟨t, ht, halike⟩ := hturns u hu.fits fun _ _ => .rfl
  obtain ⟨t', ht', halike'⟩ := hturns u' hu.fits' fun v hv => hu.ids v.id (hvars v hv)
  refine ⟨t, t', c.rest, ?_, halike, halike'⟩
  constructor
  case subset =>
    intro id hid
    rcases ((ht.ids id).mp hid).1 with hid | hid
    · exact hu.subset hid
    · exact hin (hfactors hid)
  case ids =>
    intro id hid
    rw [ht.ids, ht'.ids, hu.ids id hid]
  case value =>
    obtain ⟨G, hG, hvalue⟩ := hu.value
    have hGd : Ignores G [d] := hG.mono (by simpa using hd)
    refine ⟨fun x => G x * one.valueAt x, fun x hx => ConstantAt.mul (fun j _ k _ => ?_)
      (hconstant one (by simp) x hx), fun x hx => ?_⟩
    · rw [hGd.set, hGd.set]
    · have hmul : ∀ F : Assignment → ℚ, ∀ y, G y * (Tables.weight c.factors y * F y) =
          Tables.weight c.factors y * (G y * F y) := fun F y => by ring
      calc t'.valueAt x
          = Axes.sumOver c.summed (fun y => Tables.weight c.factors y * u.valueAt y +
              G y * (Tables.weight c.factors y * (Table.ones u.axes : Table ℚ).valueAt y)) x := by
            rw [ht'.value x hx]
            refine Axes.sumOver_congr (h.sized.subset hsub) hx fun y hy _ => ?_
            rw [hvalue y hy, Table.valueAt_ones (hy.inRange hu.fits.sized)]
            ring
        _ = t.valueAt x + G x * one.valueAt x := by
            rw [Axes.sumOver_add, Axes.sumOver_mul_left (hG.mono hsummed), ht.value x hx,
              hone.value x hx]
  case constant => exact fun s hs => hconstant s (List.mem_cons_of_mem _ hs)

end Law.Eliminable

/-! ### Decisions -/

namespace Tables

variable {s : Setting ℚ} {t t' : Table ℚ} {rest : List (Table ℚ)}

/-- A broader table bears on a decision exactly if the narrower one does, unless that mentions nothing but
the decision. -/
theorem Broadens.bearsOn_eq (h : Broadens sizes own d t t' rest) (ht : t.Fits sizes)
    (hd : d.id ∈ own.ids) {parents : List Variable} (hparents : Axes.ids parents ⊆ own.ids)
    (hmore : parents ≠ [] → t.axes.ids ≠ [d.id]) :
    bearsOn d parents t' = bearsOn d parents t := by
  have hsub : t.axes.ids ⊆ t'.axes.ids := fun id hid => (h.ids id (h.subset hid)).mpr hid
  have hshared : (∃ id ∈ t'.axes.ids, id ∈ Axes.ids parents) ↔
      ∃ id ∈ t.axes.ids, id ∈ Axes.ids parents :=
    exists_congr fun id => and_congr_left fun hid => h.ids id (hparents hid)
  rw [Bool.eq_iff_iff, bearsOn_iff, bearsOn_iff, h.ids d.id hd, hshared]
  refine and_congr_right fun hmem => ?_
  by_cases hne : parents = []
  · simp [hne]
  · have hlength : t.axes.ids.length ≠ 1 := fun hlength => hmore hne <| by
      obtain ⟨id, hid⟩ := List.length_eq_one_iff.mp hlength
      rw [hid] at hmem ⊢
      rw [List.mem_singleton.mp hmem]
    have hle := (ht.wellFormed.nodup.subperm hsub).length_le
    have hpos := List.length_pos_of_mem hmem
    refine or_congr_right (or_congr_left (iff_of_false ?_ hlength))
    omega

/-- The tables that bear on a decision order its outcomes alike. -/
theorem Broadens.sameView (h : Broadens sizes own d t t' rest) (hsize : d.arity = sizes d.id)
    (hknown : Axes.ids (d :: s.dependencies.parents d) ⊆ own.ids)
    (hbears : bearsOn d (s.dependencies.parents d) t' = bearsOn d (s.dependencies.parents d) t) :
    SameView sizes d (d :: s.dependencies.parents d) (bearing s d (t :: rest))
      (bearing s d (t' :: rest)) := by
  unfold bearing
  by_cases hmem : bearsOn d (s.dependencies.parents d) t
  case neg =>
    rw [List.filter_cons_of_neg hmem, List.filter_cons_of_neg (by rwa [hbears])]
    exact ⟨fun _ _ => .rfl, fun _ _ _ _ _ _ => .rfl⟩
  case pos =>
    rw [List.filter_cons_of_pos hmem, List.filter_cons_of_pos (by rwa [hbears])]
    let others := rest.filter (bearsOn d (s.dependencies.parents d))
    refine ⟨fun id hid => ?_, fun x hx j hj k hk => ?_⟩
    · rw [mem_ids_axes_cons, mem_ids_axes_cons, h.ids id (hknown hid)]
    · have hset : ∀ i < d.arity, (x.set d i).Valid sizes := fun i hi => hx.set (by rwa [← hsize])
      obtain ⟨f, hf, hvalue⟩ := h.value
      have hothers : ConstantAt d (weight others) x :=
        constantAt_weight fun s hs => h.constant s (List.mem_of_mem_filter hs) x hx
      have hweight : ∀ i < d.arity, weight (t' :: others) (x.set d i) =
          weight (t :: others) (x.set d i) + f (x.set d j) * weight others (x.set d j) := by
        intro i hi
        rw [weight_cons, weight_cons, hvalue _ (hset i hi), hf x hx i hi j hj, hothers i hi j hj]
        ring
      rw [hweight j hj, hweight k hk, add_le_add_iff_right]

end Tables

/-- The utilities of a problem in a pool with other problems.  Without own utilities all of them are about
other variables. -/
inductive Tables.Added (sizes : VariableId → ℕ) (own : Axes) :
    List (Table ℚ) → List (Table ℚ) → Prop where
  | utility {u u' : Table ℚ} : u.Widens sizes own u' → Added sizes own [u] [u']
  | none {us : List (Table ℚ)} : (∀ t ∈ us, t.Fits sizes) →
      (∀ id ∈ (Tables.axes us).ids, id ∉ own.ids) → Added sizes own [] us

namespace Law

variable {s : Setting ℚ} {laws others : List Law} {vars vars' : Axes} {us us' : List (Table ℚ)}
  {p : Table ℚ × Table ℚ}

theorem tables_append (laws others : List Law) : tables (laws ++ others) = tables laws ++ tables others :=
  List.map_append

theorem heads_append (laws others : List Law) : heads (laws ++ others) = heads laws ++ heads others :=
  List.map_append

/-- The laws of a problem, which is about the own variables, and those of other problems. -/
structure Beside (own : Axes) (laws others : List Law) : Prop where
  inside : (Tables.axes (tables laws)).ids ⊆ own.ids
  outside : ∀ id ∈ (Tables.axes (tables others)).ids, id ∉ own.ids

/-- The heads of the other problems may be eliminated first.  What that leaves of the other problems is
then left alone. -/
theorem Beside.alike_eliminateAll {kept : Axes} (h : Beside own laws others)
    (hlaws : ∀ l ∈ laws ++ others, l.Normal sizes rank) (hnodup : (heads (laws ++ others)).ids.Nodup)
    (hkept : kept.ids ⊆ own.ids) (hvars : HeadsBut sizes laws kept vars)
    (hvars' : HeadsBut sizes (laws ++ others) kept vars') (hus : ∀ t ∈ us, t.Fits sizes)
    {ts rest : List (Table ℚ)} (hrest : ∀ id ∈ (Tables.axes rest).ids, id ∉ own.ids)
    (hleft : Tables.Alike sizes (Tables.eliminateAll (heads others) (us ++ tables others)) (ts ++ rest)) :
    Tables.Alike sizes (Tables.eliminateAll vars' (us ++ tables (laws ++ others)))
      (rest ++ Tables.eliminateAll vars (ts ++ tables laws)) := by
  obtain ⟨hlawsOwn, hlawsOther⟩ := List.forall_mem_append.mp hlaws
  have hfits : ∀ t ∈ us ++ tables (laws ++ others), t.Fits sizes := by
    refine List.forall_mem_append.mpr ⟨hus, fun t ht => ?_⟩
    obtain ⟨l, hl, rfl⟩ := List.mem_map.mp ht
    exact (hlaws l hl).fits
  have hout : ∀ id ∈ (heads others).ids, id ∉ own.ids := fun id hid =>
    h.outside id (ids_heads_subset hlawsOther hid)
  have hmem : ∀ id, id ∈ (heads (laws ++ others)).ids ↔
      id ∈ (heads laws).ids ∨ id ∈ (heads others).ids := fun id => by
    rw [heads_append, Axes.ids_append, List.mem_append]
  rw [heads_append, Axes.ids_append, List.nodup_append] at hnodup
  have hperm : vars'.ids.Perm (Axes.ids (heads others ++ vars)) := by
    refine (List.perm_ext_iff_of_nodup hvars'.nodup ?_).mpr fun id => ?_
    · rw [Axes.ids_append, List.nodup_append]
      refine ⟨hnodup.2.1, hvars.nodup, ?_⟩
      rintro id hid _ hid' rfl
      exact hnodup.2.2 id ((hvars.mem_iff id).mp hid').1 id hid rfl
    · rw [hvars'.mem_iff, hmem, Axes.ids_append, List.mem_append, hvars.mem_iff]
      have : id ∈ (heads others).ids → id ∉ kept.ids := fun hid hmem => hout id hid (hkept hmem)
      tauto
  have hsized : Axes.Sized sizes (heads others ++ vars) := fun v hv =>
    (List.mem_append.mp hv).elim (sized_heads hlawsOther v) (hvars.sized v)
  have hpool : (us ++ tables (laws ++ others)).Perm (tables laws ++ (us ++ tables others)) := by
    rw [tables_append, ← List.append_assoc, ← List.append_assoc]
    exact List.perm_append_comm.append_right _
  have hsplit : ∀ ts : List (Table ℚ), Tables.eliminateAll (heads others ++ vars) ts =
      Tables.eliminateAll vars (Tables.eliminateAll (heads others) ts) := fun ts => List.foldl_append
  have hfirst : Tables.eliminateAll (heads others) (tables laws ++ (us ++ tables others)) =
      tables laws ++ Tables.eliminateAll (heads others) (us ++ tables others) :=
    Tables.eliminateAll_append (fun t ht v hv hid => hout v.id (Axes.mem_ids_of_mem hv)
      (h.inside (Tables.mem_ids_axes.mpr ⟨t, ht, hid⟩))) _
  have hsecond : Tables.eliminateAll vars (rest ++ (ts ++ tables laws)) =
      rest ++ Tables.eliminateAll vars (ts ++ tables laws) :=
    Tables.eliminateAll_append (fun t ht v hv hid => hrest v.id (Tables.mem_ids_axes.mpr ⟨t, ht, hid⟩)
      (h.inside (ids_heads_subset hlawsOwn ((hvars.mem_iff v.id).mp (Axes.mem_ids_of_mem hv)).1))) _
  have hown : ∀ t ∈ tables laws, t.Fits sizes := fun t ht =>
    hfits t (List.mem_append_right _ (by rw [tables_append]; exact List.mem_append_left _ ht))
  have hrearrange : (tables laws ++ (ts ++ rest)).Perm (rest ++ (ts ++ tables laws)) := by
    refine List.perm_append_comm.trans ((List.perm_append_comm.append_right _).trans (.of_eq ?_))
    exact List.append_assoc _ _ _
  have hall : ∀ t ∈ tables laws ++ (ts ++ rest), t.Fits sizes :=
    List.forall_mem_append.mpr ⟨hown, fun t ht => hleft.symm.fits ht⟩
  have halike := (Tables.Alike.of_perm hfits hpool).eliminateAll_perm hvars'.sized hsized hvars'.nodup hperm
  rw [hsplit, hfirst] at halike
  rw [← hsecond]
  exact halike.trans (((Tables.Alike.refl hown).append hleft).trans
    (.of_perm hall hrearrange) |>.eliminateAll hvars.sized)

/-- **A decision finds the same rule beside other problems**, if the rule is observed and no table over
nothing but the decision bears on it. -/
theorem Beside.exists_decide (h : Beside own laws others)
    (hlaws : ∀ l ∈ laws ++ others, l.Normal sizes rank) (hnodup : (heads (laws ++ others)).ids.Nodup)
    (hus : Tables.Added sizes own us us') (hpos : ∀ id, 0 < sizes id) (hsize : d.arity = sizes d.id)
    (hknown : Axes.ids (d :: s.dependencies.parents d) ⊆ own.ids)
    (hvars : HeadsBut sizes laws (s.dependencies.parents d) vars)
    (hvars' : HeadsBut sizes (laws ++ others) (s.dependencies.parents d) vars')
    (hcovers : Covers rank d laws vars) {ts ts' : List (Table ℚ)}
    (hts : Tables.Alike sizes ts (Tables.eliminateAll vars (us ++ tables laws)))
    (hts' : Tables.Alike sizes ts' (Tables.eliminateAll vars' (us' ++ tables (laws ++ others))))
    (hdecide : Tables.decide s d ts = .ok p)
    (hobserved : p.2.axes.ids ⊆ Axes.ids (d :: s.dependencies.parents d))
    (hmore : s.dependencies.parents d ≠ [] → ∀ t ∈ ts, t.axes.ids ≠ [d.id]) :
    ∃ q, Tables.decide s d ts' = .ok q ∧ Table.Alike sizes p.2 q.2 := by
  have hsub := hknown
  rw [Axes.ids_cons, List.cons_subset] at hsub
  obtain ⟨hd, hparents⟩ := hsub
  obtain ⟨hlawsOwn, hlawsOther⟩ := List.forall_mem_append.mp hlaws
  have hheads := hnodup
  rw [heads_append, Axes.ids_append, List.nodup_append] at hheads
  have hown : Eliminable sizes rank laws vars := hvars.eliminable hlawsOwn hheads.1
  have hother : Eliminable sizes rank others (heads others) :=
    ⟨hlawsOther, hheads.2.1, hheads.2.1, sized_heads hlawsOther, List.Subset.refl _⟩
  -- it is enough to find the rule in what is left of this problem
  have hfinish : ∀ {us us' rest : List (Table ℚ)} {p' : Table ℚ × Table ℚ},
      (∀ t ∈ us', t.Fits sizes) → (∀ id ∈ (Tables.axes rest).ids, id ∉ own.ids) →
      Tables.Alike sizes (Tables.eliminateAll (heads others) (us' ++ tables others)) (us ++ rest) →
      Tables.Alike sizes ts' (Tables.eliminateAll vars' (us' ++ tables (laws ++ others))) →
      Tables.decide s d (Tables.eliminateAll vars (us ++ tables laws)) = .ok p' →
      ∃ q, Tables.decide s d ts' = .ok q ∧ Table.Alike sizes p'.2 q.2 := by
    intro us us' rest p' hfits hrest hleft hts' hp'
    have halike := h.alike_eliminateAll hlaws hnodup hparents hvars hvars' hfits hrest hleft
    obtain ⟨q, hq, -, hrule⟩ := (hts'.trans halike).symm.exists_decide hpos hsize
      ((Tables.decide_append (fun hid => hrest d.id hid hd) _).trans hp')
    exact ⟨q, hq, hrule⟩
  cases hus with
  | none hfits hout =>
      have hpool : ∀ t ∈ us' ++ tables others, t.Fits sizes :=
        List.forall_mem_append.mpr ⟨hfits, hother.fits⟩
      have hleft : Tables.Alike sizes (Tables.eliminateAll (heads others) (us' ++ tables others))
          ([] ++ Tables.eliminateAll (heads others) (us' ++ tables others)) :=
        .refl (Tables.fits_eliminateAll hpool _)
      have hrest : ∀ id ∈ (Tables.axes (Tables.eliminateAll (heads others) (us' ++ tables others))).ids,
          id ∉ own.ids := by
        intro id hid
        obtain ⟨hid, -⟩ := (Tables.mem_ids_eliminateAll (Tables.distinct_of_fits hpool)).mp hid
        exact (Tables.mem_ids_axes_append.mp hid).elim (hout id) (h.outside id)
      obtain ⟨p₁, hp₁, -, hrule₁⟩ := hts.exists_decide hpos hsize hdecide
      obtain ⟨q, hq, hrule₂⟩ := hfinish hfits hrest hleft hts' hp₁
      exact ⟨q, hq, hrule₁.trans hrule₂⟩
  | @utility u u' hu =>
      obtain ⟨t, rest, hleft, hwidens, hrest⟩ :=
        hother.exists_widens (List.Subset.refl _) h.outside hu
      have hleft' : Tables.Alike sizes (Tables.eliminateAll (heads others) ([u'] ++ tables others))
          ([t] ++ rest) := hleft
      obtain ⟨narrow, broad, after, hbroadens, hnarrow, hbroad⟩ :=
        hown.exists_broadens hcovers hsize hd h.inside hwidens
      have hnarrow := hts.trans hnarrow
      have hmore' : s.dependencies.parents d ≠ [] → narrow.axes.ids ≠ [d.id] := by
        intro hne hids
        obtain ⟨t, ht, halike⟩ := hnarrow.symm.exists_mem (List.mem_cons_self : narrow ∈ narrow :: after)
        have hperm : t.axes.ids.Perm narrow.axes.ids := (List.perm_ext_iff_of_nodup
          halike.fits'.wellFormed.nodup halike.fits.wellFormed.nodup).mpr halike.ids
        exact hmore hne t ht (List.perm_singleton.mp (hids ▸ hperm))
      have hview := hbroadens.sameView hsize hknown
        (hbroadens.bearsOn_eq (hnarrow.symm.fits (by simp)) hd hparents hmore')
      obtain ⟨p₁, hp₁, -, hrule₁⟩ := hnarrow.exists_decide hpos hsize hdecide
      obtain ⟨p₂, hp₂, hrule₂⟩ := hview.exists_decide hpos (fun _ ht => hnarrow.symm.fits ht)
        (fun _ ht => hbroad.symm.fits ht) hsize hp₁ fun id hid => hobserved ((hrule₁.ids id).mp hid)
      obtain ⟨p₃, hp₃, -, hrule₃⟩ := hbroad.symm.exists_decide hpos hsize hp₂
      obtain ⟨q, hq, hrule₄⟩ := hfinish (by simpa using hu.fits') hrest hleft' hts' hp₃
      exact ⟨q, hq, ((hrule₁.trans hrule₂).trans hrule₃).trans hrule₄⟩

end Law

end Influence
