import Influence.Proofs.Elimination.Choice
import Influence.Proofs.Elimination.Parallel
import Influence.Proofs.Elimination.Surrounding

/-! # Rescaled utilities

A pool consists of laws and one other table, the utility.  If the utility is scaled and a constant is
added to it, then what is left of it by an elimination is scaled alike, and what is added to that is made
of laws alone.  So it does not depend on a decision if all heads after the decision are eliminated
(`Law.Eliminable.exists_shifts`), and the decision is left the same choice (`Tables.Shifts.sameChoice`).

A run on rescaled utilities therefore finds the same rules (`StepM.counterpart_of_rescales`).  Laws need
not be probabilities for this: it is enough that they add up to one. -/

namespace Influence

open scoped Exact

variable {sizes rank : VariableId → ℕ}

/-- The second table is the first one, scaled by `a`, with a constant added. -/
structure Table.Rescales (sizes : VariableId → ℕ) (a : ℚ) (u u' : Table ℚ) : Prop where
  fits : u.Fits sizes
  fits' : u'.Fits sizes
  ids : ∀ id, id ∈ u'.axes.ids ↔ id ∈ u.axes.ids
  value : ∃ b, ∀ x : Assignment, x.Valid sizes → u'.valueAt x = a * u.valueAt x + b

namespace Tables

variable {s : Setting ℚ} {d : Variable} {a : ℚ} {t t' : Table ℚ} {rest ts us : List (Table ℚ)}
  {p : Table ℚ × Table ℚ}

/-- The table `t'` is `t`, scaled by `a`, with a function added that does not depend on a decision.
Nor do the other tables. -/
structure Shifts (sizes : VariableId → ℕ) (d : Variable) (a : ℚ) (t t' : Table ℚ)
    (rest : List (Table ℚ)) : Prop where
  ids : ∀ id, id ∈ t'.axes.ids ↔ id ∈ t.axes.ids
  value : ∃ f : Assignment → ℚ, (∀ x : Assignment, x.Valid sizes → ConstantAt d f x) ∧
    ∀ x : Assignment, x.Valid sizes → t'.valueAt x = a * t.valueAt x + f x
  constant : ∀ s ∈ rest, ∀ x : Assignment, x.Valid sizes → ConstantAt d s.valueAt x

/-- **What is added leaves a decision the same choice.** -/
theorem Shifts.sameChoice (h : Shifts sizes d a t t' rest) (ha : 0 < a) (ht : t.Fits sizes)
    (ht' : t'.Fits sizes) (hsize : d.arity = sizes d.id) :
    SameChoice sizes d (bearing s d (t :: rest)) (bearing s d (t' :: rest)) := by
  have hbears := bearsOn_congr ht.wellFormed.nodup ht'.wellFormed.nodup h.ids d
    (s.dependencies.parents d)
  unfold bearing
  by_cases hmem : bearsOn d (s.dependencies.parents d) t
  case neg =>
    rw [List.filter_cons_of_neg hmem, List.filter_cons_of_neg (by rwa [← hbears])]
    exact ⟨fun _ => .rfl, fun _ _ _ _ _ _ => .rfl⟩
  case pos =>
    rw [List.filter_cons_of_pos hmem, List.filter_cons_of_pos (by rwa [← hbears])]
    let others := rest.filter (bearsOn d (s.dependencies.parents d))
    refine ⟨fun id => ?_, fun x hx j hj k hk => ?_⟩
    · rw [mem_ids_axes_cons, mem_ids_axes_cons, h.ids]
    · have hset : ∀ i < d.arity, (x.set d i).Valid sizes := fun i hi => hx.set (by rwa [← hsize])
      obtain ⟨f, hf, hvalue⟩ := h.value
      have hothers : ConstantAt d (weight others) x :=
        constantAt_weight fun s hs => h.constant s (List.mem_of_mem_filter hs) x hx
      -- the product is scaled by `a`, and the same amount is added for every outcome
      have hweight : ∀ i < d.arity, weight (t' :: others) (x.set d i) =
          a * weight (t :: others) (x.set d i) + f (x.set d j) * weight others (x.set d j) := by
        intro i hi
        rw [weight_cons, weight_cons, hvalue _ (hset i hi), hf x hx i hi j hj, hothers i hi j hj]
        ring
      rw [hweight j hj, hweight k hk, add_le_add_iff_right, mul_le_mul_iff_right₀ ha]

/-- The rules found in two pools are alike if what is added does not depend on the decision. -/
theorem Shifts.exists_decide (h : Shifts sizes d a t t' rest) (ha : 0 < a)
    (hpos : ∀ id, 0 < sizes id) (hsize : d.arity = sizes d.id) (hts : Alike sizes ts (t :: rest))
    (hus : Alike sizes us (t' :: rest)) (hdecide : decide s d ts = .ok p) :
    ∃ q, decide s d us = .ok q ∧ Table.Alike sizes p.2 q.2 := by
  have hfits : ∀ s ∈ t :: rest, s.Fits sizes := fun s hs => hts.symm.fits hs
  have hfits' : ∀ s ∈ t' :: rest, s.Fits sizes := fun s hs => hus.symm.fits hs
  obtain ⟨p₁, hp₁, -, hrule₁⟩ := hts.exists_decide hpos hsize hdecide
  obtain ⟨q₁, hq₁, hrule, -⟩ := (h.sameChoice ha (hfits t (by simp)) (hfits' t' (by simp))
    hsize).exists_decide hpos hfits hfits' hsize hp₁
  obtain ⟨q, hq, -, hrule₂⟩ := hus.symm.exists_decide hpos hsize hq₁
  exact ⟨q, hq, (hrule₁.trans hrule).trans hrule₂⟩

end Tables

/-! ### Laws whose heads are eliminated -/

namespace Law

theorem normal_of_decide {s : Setting ℚ} {d : Variable} {ts : List (Table ℚ)}
    {p : Table ℚ × Table ℚ} (hpos : ∀ id, 0 < sizes id) (hts : ∀ t ∈ ts, t.Fits sizes)
    (hsize : d.arity = sizes d.id) (h : Tables.decide s d ts = .ok p)
    (hobserved : p.2.axes.ids ⊆ Axes.ids (s.dependencies.parents d ++ [d]))
    (hrank : ∀ v ∈ s.dependencies.parents d, rank v.id < rank d.id) :
    Law.Normal sizes rank ⟨d, p.2⟩ := by
  obtain ⟨hpaired, hmem⟩ := Tables.paired_of_decide hts hsize h
  refine ⟨hpaired.right, hsize, hmem, (Tables.isConditional_of_decide hpos hts hsize h).sum_one,
    fun id hid hne => ?_⟩
  have hparent := hobserved hid
  rw [Axes.ids_append, List.mem_append] at hparent
  obtain ⟨v, hv, rfl⟩ := Axes.mem_ids.mp (hparent.resolve_right (by simpa using hne))
  exact hrank v hv

variable {laws : List Law} {vars : Axes} {u u' s : Table ℚ} {d : Variable} {x : Assignment} {a : ℚ}

/-- The variables are heads of laws. -/
structure Eliminable (sizes rank : VariableId → ℕ) (laws : List Law) (vars : Axes) : Prop where
  normal : ∀ l ∈ laws, l.Normal sizes rank
  nodup_heads : (heads laws).ids.Nodup
  nodup : vars.ids.Nodup
  sized : vars.Sized sizes
  subset : vars.ids ⊆ (heads laws).ids

/-- The heads after a variable are eliminated, but not the variable. -/
structure Covers (rank : VariableId → ℕ) (d : Variable) (laws : List Law) (vars : Axes) : Prop where
  notMem : d.id ∉ (heads laws).ids
  late : ∀ l ∈ laws, rank d.id < rank l.head.id → l.head.id ∈ vars.ids

/-- The variables are the heads of some laws but for those of `kept`. -/
structure HeadsBut (sizes : VariableId → ℕ) (laws : List Law) (kept vars : Axes) : Prop where
  nodup : vars.ids.Nodup
  sized : vars.Sized sizes
  mem_iff : ∀ id, id ∈ vars.ids ↔ id ∈ (heads laws).ids ∧ id ∉ kept.ids

namespace HeadsBut

variable {kept : Axes} (h : HeadsBut sizes laws kept vars)

include h

theorem eliminable (hlaws : ∀ l ∈ laws, l.Normal sizes rank) (hnodup : (heads laws).ids.Nodup) :
    Eliminable sizes rank laws vars :=
  ⟨hlaws, hnodup, h.nodup, h.sized, fun id hid => ((h.mem_iff id).mp hid).1⟩

/-- If what is kept comes before a variable, then everything after the variable is eliminated. -/
theorem covers (hd : d.id ∉ (heads laws).ids) (hkept : ∀ v ∈ kept, rank v.id < rank d.id) :
    Covers rank d laws vars where
  notMem := hd
  late := fun l hl hlt => by
    refine (h.mem_iff _).mpr ⟨mem_ids_heads.mpr ⟨l, hl, rfl⟩, fun hmem => ?_⟩
    obtain ⟨v, hv, hid⟩ := Axes.mem_ids.mp hmem
    have := hkept v hv
    rw [hid] at this
    omega

end HeadsBut

namespace Eliminable

variable (h : Eliminable sizes rank laws vars)

include h

theorem fits : ∀ t ∈ tables laws, t.Fits sizes := by
  intro t ht
  obtain ⟨l, hl, rfl⟩ := List.mem_map.mp ht
  exact (h.normal l hl).fits

/-- What laws and a table that is one turn into is made of laws, and of tables that are one. -/
theorem exists_block (hu : u.Fits sizes) (hone : ∀ x : Assignment, x.Valid sizes → u.valueAt x = 1)
    (hs : s ∈ Tables.eliminateAll vars (u :: tables laws)) :
    ∃ blocks, Decomposes sizes laws [u] vars blocks ∧ ∃ b ∈ blocks, b.table = s ∧
      ∀ x : Assignment, x.Valid sizes → Tables.weight b.others x = 1 := by
  have hlaws : ∀ l ∈ [] ++ laws, l.Normal sizes rank := h.normal
  have hnodup : (Axes.ids ([] ++ vars)).Nodup := h.nodup
  obtain ⟨start, hstart, htables⟩ := Decomposes.start hlaws hu
  obtain ⟨blocks, hblocks, htables'⟩ := hstart.eliminateAll hnodup h.sized fun id hid => by
    rw [htables]
    exact Tables.mem_ids_axes_cons.mpr (.inr (ids_heads_subset h.normal (h.subset hid)))
  rw [htables] at htables'
  obtain ⟨b, hb, rfl⟩ := List.mem_map.mp (htables' ▸ hs)
  refine ⟨blocks, hblocks, b, hb, rfl, fun y hy => List.prod_eq_one fun k hk => ?_⟩
  obtain ⟨t, ht, rfl⟩ := List.mem_map.mp hk
  rw [List.mem_singleton.mp (hblocks.others.subset (List.mem_flatMap.mpr ⟨b, hb, ht⟩))]
  exact hone y hy

/-- What laws and a table that is one turn into does not depend on a decision if all heads after it are
eliminated. -/
theorem constantAt (hcovers : Covers rank d laws vars) (hsize : d.arity = sizes d.id)
    (hu : u.Fits sizes) (hone : ∀ x : Assignment, x.Valid sizes → u.valueAt x = 1)
    (hs : s ∈ Tables.eliminateAll vars (u :: tables laws)) (hx : x.Valid sizes) :
    ConstantAt d s.valueAt x := by
  obtain ⟨blocks, hblocks, b, hb, rfl, hothers⟩ := h.exists_block hu hone hs
  have hset : ∀ k < d.arity, b.table.valueAt (x.set d k) = b.table.valueAt x := fun k hk =>
    hblocks.valueAt_set_of_weight_others h.normal h.nodup_heads h.subset hcovers.late
      hcovers.notMem hb hothers hx (by rwa [← hsize])
  intro j hj k hk
  rw [hset j hj, hset k hk]

/-- Tables that mention the same ones of the eliminated variables as a utility turn in one surrounding.  What
a table that is one turns into shows what constants are multiplied by there, and it does not depend on a
decision if all heads after it are eliminated. -/
theorem exists_turns (hu : u.Fits sizes) (hcovers : Covers rank d laws vars)
    (hsize : d.arity = sizes d.id) :
    ∃ (c : Surrounding) (one : Table ℚ), c.summed ⊆ vars ∧
      (Tables.axes c.factors).ids ⊆ (Tables.axes (tables laws)).ids ∧
      (∀ u' : Table ℚ, u'.Fits sizes → (∀ v ∈ vars, v.id ∈ u'.axes.ids ↔ v.id ∈ u.axes.ids) →
        ∃ t, c.Turns sizes u' t ∧
          Tables.Alike sizes (Tables.eliminateAll vars (u' :: tables laws)) (t :: c.rest)) ∧
      c.Turns sizes (Table.ones u.axes) one ∧
      ∀ s ∈ one :: c.rest, ∀ x : Assignment, x.Valid sizes → ConstantAt d s.valueAt x := by
  obtain ⟨c, hsub, hfactors, hturns⟩ := Tables.exists_surrounding h.fits h.nodup h.sized
    fun id => decide (id ∈ u.axes.ids)
  have hturns' : ∀ u' : Table ℚ, u'.Fits sizes →
      (∀ v ∈ vars, v.id ∈ u'.axes.ids ↔ v.id ∈ u.axes.ids) → ∃ t, c.Turns sizes u' t ∧
        Tables.Alike sizes (Tables.eliminateAll vars (u' :: tables laws)) (t :: c.rest) :=
    fun u' hu' hids => hturns u' hu' fun v hv => by
      rw [Bool.eq_iff_iff, Table.mentions_iff, decide_eq_true_iff, hids v hv]
  have hones : (Table.ones u.axes : Table ℚ).Fits sizes :=
    Table.fits_ones hu.wellFormed.nodup hu.wellFormed.arity_pos hu.sized
  obtain ⟨one, hone, halike⟩ := hturns' (Table.ones u.axes) hones fun _ _ => .rfl
  refine ⟨c, one, hsub, hfactors, hturns', hone, fun s hs x hx => ?_⟩
  obtain ⟨r, hr, hsr⟩ := halike.symm.exists_mem hs
  refine (constantAt_congr fun k hk => ?_).mp (h.constantAt hcovers hsize hones
    (fun y hy => Table.valueAt_ones (hy.inRange hu.sized)) hr hx)
  exact hsr.value _ (hx.set (by rwa [← hsize]))

/-- **What is added to a utility is multiplied by laws only.** -/
theorem exists_shifts (hu : u.Rescales sizes a u') (hcovers : Covers rank d laws vars)
    (hsize : d.arity = sizes d.id) :
    ∃ t t' rest, Tables.Shifts sizes d a t t' rest ∧
      Tables.Alike sizes (Tables.eliminateAll vars (u :: tables laws)) (t :: rest) ∧
      Tables.Alike sizes (Tables.eliminateAll vars (u' :: tables laws)) (t' :: rest) := by
  obtain ⟨c, one, hsub, -, hturns, hone, hconstant⟩ := h.exists_turns hu.fits hcovers hsize
  obtain ⟨t, ht, halike⟩ := hturns u hu.fits fun _ _ => .rfl
  obtain ⟨t', ht', halike'⟩ := hturns u' hu.fits' fun v _ => hu.ids v.id
  refine ⟨t, t', c.rest, ?_, halike, halike'⟩
  constructor
  case ids =>
    intro id
    rw [ht.ids, ht'.ids, hu.ids]
  case value =>
    obtain ⟨b, hb⟩ := hu.value
    refine ⟨fun x => b * one.valueAt x, fun x hx j hj k hk => ?_, fun x hx => ?_⟩
    · exact congrArg (b * ·) (hconstant one (by simp) x hx j hj k hk)
    · refine ht'.value_linear ht hone (h.sized.subset hsub) (fun y hy => ?_) hx
      rw [hb y hy, Table.valueAt_ones (hy.inRange hu.fits.sized), mul_one]
  case constant => exact fun s hs => hconstant s (List.mem_cons_of_mem _ hs)

end Eliminable

end Law

/-! ### Workspaces with laws -/

namespace Workspace

variable {s : Setting ℚ} {d : Variable} {ds : List Variable} {laws : List Law} {w w' w₁ : Workspace ℚ}
  {rule : Table ℚ} {a : ℚ}

/-- Every variable that is not an open decision or a utility has a law, and the open decisions are the
given ones. -/
structure HasLaws (sizes rank : VariableId → ℕ) (s : Setting ℚ) (ds : List Variable)
    (laws : List Law) (w : Workspace ℚ) : Prop where
  normal : ∀ l ∈ laws, l.Normal sizes rank
  nodup : (Law.heads laws).ids.Nodup
  kind : ∀ v : Variable, v.id ∈ Axes.ids w.registry.handles →
    (w.registry.kindOf v = .chance ↔ v.id ∈ (Law.heads laws).ids)
  issued : (Law.heads laws).ids ⊆ Axes.ids w.registry.handles
  undecided : w.undecided s = ds.reverse
  eliminated : ∀ id ∈ w.eliminated, id ∉ (Law.heads laws).ids ∧ id ∉ Axes.ids ds

namespace HasLaws

theorem required_eq (h : w.HasLaws sizes rank s (d :: ds) laws) :
    w.required s true = s.dependencies.parents d := by
  rw [required, h.undecided]
  simp

theorem notMem_heads (h : w.HasLaws sizes rank s (d :: ds) laws) (hw : w.Open sizes (d :: ds)) :
    d.id ∉ (Law.heads laws).ids := by
  rw [← h.kind d (hw.decisions.issued d (by simp)), hw.decisions.kind d (by simp)]
  decide

theorem mem_decisionOrder (h : w.HasLaws sizes rank s (d :: ds) laws) : d ∈ s.decisionOrder := by
  refine List.mem_of_mem_filter (p := fun v => w.registry.kindOf v == .decision) ?_
  rw [← Workspace.undecided, h.undecided]
  simp

/-- Before a decision is resolved all heads are hidden but those that it observes. -/
theorem headsBut (h : w.HasLaws sizes rank s (d :: ds) laws) (hw : w.Open sizes (d :: ds))
    (hissued : (Tables.axes w.tables).ids ⊆ Axes.ids w.registry.handles)
    (hmem : (Law.heads laws).ids ⊆ (Tables.axes w.tables).ids) :
    Law.HeadsBut sizes laws (s.dependencies.parents d) (w.hidden s [] [] true) where
  nodup := nodup_hidden
  sized := sized_hidden hw.fits
  mem_iff := fun id => by
    constructor
    · intro hid
      obtain ⟨v, hv, rfl⟩ := Axes.mem_ids.mp hid
      obtain ⟨-, hchance, -, -, -, hfree⟩ := mem_hidden.mp hv
      rw [h.required_eq] at hfree
      exact ⟨(h.kind v (hissued (hidden_subset hid))).mp hchance, hfree⟩
    · rintro ⟨hhead, hfree⟩
      obtain ⟨v, hv, rfl⟩ := Axes.mem_ids.mp (Axes.mem_ids_union.mpr (.inr (hmem hhead)) :
        id ∈ (Axes.union [] (Tables.axes w.tables)).ids)
      refine Axes.mem_ids_of_mem (mem_hidden.mpr ⟨hv, ?_, fun helim => ?_, by simp, by simp, ?_⟩)
      · exact (h.kind v (h.issued hhead)).mpr hhead
      · exact (h.eliminated _ helim).1 hhead
      · rwa [h.required_eq]

/-- The rule of a decision, or any other law of it, is one more law. -/
theorem resolves (h : w.HasLaws sizes rank s (d :: ds) laws) (hw : w.Open sizes (d :: ds))
    (hres : w.Resolves d rule w₁) {rule' : Table ℚ} (hrule : Law.Normal sizes rank ⟨d, rule'⟩) :
    w₁.HasLaws sizes rank s ds (laws ++ [⟨d, rule'⟩]) := by
  have hd : d.id ∈ Axes.ids w.registry.handles := hw.decisions.issued d (by simp)
  have hids : Axes.ids w₁.registry.handles = Axes.ids w.registry.handles := by
    rw [hres.handles, Registry.ids_withChance]
  have hheads : (Law.heads (laws ++ [⟨d, rule'⟩])).ids = (Law.heads laws).ids ++ [d.id] := by
    simp [Law.heads, Axes.ids]
  have hkind : ∀ v : Variable, w₁.registry.kindOf v =
      if v.id = d.id then .chance else w.registry.kindOf v := fun v => by
    rw [Registry.kindOf_congr hres.handles, Registry.kindOf_withChance hd]
  obtain ⟨hfresh, hnodup⟩ := Axes.nodup_ids_cons.mp hw.decisions.nodup
  constructor
  case normal => simpa [or_imp, forall_and] using And.intro h.normal hrule
  case nodup =>
    rw [hheads]
    refine List.nodup_append.mpr ⟨h.nodup, List.nodup_singleton _, ?_⟩
    rintro id hid _ hid' rfl
    rw [List.mem_singleton.mp hid'] at hid
    exact h.notMem_heads hw hid
  case kind =>
    intro v hv
    rw [hids] at hv
    rw [hkind, hheads, List.mem_append, List.mem_singleton, ← h.kind v hv]
    split
    next hid => simp [hid]
    next hid => simp [hid]
  case issued =>
    rw [hheads, hids]
    exact List.append_subset.mpr ⟨h.issued, by simpa using hd⟩
  case undecided =>
    have hfilter : w₁.undecided s = (w.undecided s).filter fun v => !decide (v.id = d.id) := by
      unfold Workspace.undecided
      rw [List.filter_filter]
      refine List.filter_congr fun v _ => ?_
      rw [hkind]
      by_cases hid : v.id = d.id <;> simp [hid]
    rw [hfilter, h.undecided, List.reverse_cons, List.filter_append,
      List.filter_eq_self.mpr fun v hv => ?_, List.filter_eq_nil_iff.mpr (by simp), List.append_nil]
    have hmem := Axes.mem_ids_of_mem (List.mem_reverse.mp hv)
    simpa using fun hid : v.id = d.id => hfresh (hid ▸ hmem)
  case eliminated =>
    intro id hid
    rw [hres.eliminated] at hid
    obtain ⟨hlaw, hopen⟩ := h.eliminated id hid
    rw [Axes.ids_cons, List.mem_cons, not_or] at hopen
    rw [hheads, List.mem_append, List.mem_singleton]
    exact ⟨not_or.mpr ⟨hlaw, hopen.1⟩, hopen.2⟩

end HasLaws

/-- The workspaces have the same laws.  If there is a utility then it is scaled by `a` in the second
one, and a constant is added to it. -/
structure Rescales (sizes rank : VariableId → ℕ) (a : ℚ) (s : Setting ℚ) (ds : List Variable)
    (w w' : Workspace ℚ) : Prop where
  scope : w.SameScope w'
  tables : ∃ laws, w.HasLaws sizes rank s ds laws ∧ (Tables.Alike sizes w.tables w'.tables ∨
    ∃ u u' : Table ℚ, u.Rescales sizes a u' ∧
      Tables.Alike sizes w.tables (u :: Law.tables laws) ∧
      Tables.Alike sizes w'.tables (u' :: Law.tables laws))

end Workspace

/-! ### Decisions -/

namespace StepM

variable {a : ℚ} {s s' : Setting ℚ} {pick pick' : Pick ℚ}

/-- **The rules are the same after the utilities have been rescaled.** -/
theorem counterpart_of_rescales (hpos : ∀ id, 0 < sizes id) (ha : 0 < a)
    (hdeps : s'.dependencies = s.dependencies) (horder : s'.decisionOrder = s.decisionOrder)
    (hrank : ∀ d ∈ s.decisionOrder, ∀ v ∈ s.dependencies.parents d, rank v.id < rank d.id)
    (hpick : ∀ d w, (pick d w).Perm (w.hidden s [] [] true))
    (hpick' : ∀ d w, (pick' d w).Perm (w.hidden s' [] [] true)) :
    Counterpart sizes (fun p q => Table.Alike sizes p.2 q.2)
      (Workspace.Rescales sizes rank a s) s s' pick pick' := by
  rintro d ds w w' p hw hw' ⟨hscope, laws, hlaws, htables⟩ hdecide hobserved
  obtain ⟨hsize, -⟩ := Axes.sized_cons.mp hw.sized
  have hrank := hrank d hlaws.mem_decisionOrder
  -- both runs eliminate what is hidden in the first one
  have hsized : Axes.Sized sizes (w.hidden s [] [] true) := Workspace.sized_hidden hw.fits
  have heliminate : ∀ {us : List (Table ℚ)}, Tables.Alike sizes w.tables us → Tables.Alike sizes
      (Tables.eliminateAll (pick d w) w.tables) (Tables.eliminateAll (w.hidden s [] [] true) us) :=
    Workspace.alike_eliminateAll hw.fits (hpick d w) hsized (.refl _)
  have heliminate' : ∀ {us : List (Table ℚ)}, Tables.Alike sizes w'.tables us → Tables.Alike sizes
      (Tables.eliminateAll (pick' d w') w'.tables) (Tables.eliminateAll (w.hidden s [] [] true) us) :=
    Workspace.alike_eliminateAll hw'.fits (hpick' d w') hsized
      (hscope.perm_hidden hdeps horder).symm
  obtain ⟨q, hq, hrule⟩ : ∃ q, Tables.decide s d (Tables.eliminateAll (pick' d w') w'.tables) =
      .ok q ∧ Table.Alike sizes p.2 q.2 := by
    rcases htables with halike | ⟨u, u', hu, hleft, hright⟩
    · obtain ⟨q, hq, -, hrule⟩ := ((heliminate (.refl hw.fits)).trans
        (heliminate' halike.symm).symm).exists_decide hpos hsize hdecide
      exact ⟨q, hq, hrule⟩
    · have hmem : (Law.heads laws).ids ⊆ (Tables.axes w.tables).ids := fun id hid =>
        hleft.mem_ids_axes.mp (Tables.mem_ids_axes_cons.mpr
          (.inr (Law.ids_heads_subset hlaws.normal hid)))
      have hvars := hlaws.headsBut hw hscope.issued hmem
      obtain ⟨t, t', rest, hshifts, ht, ht'⟩ := (hvars.eliminable hlaws.normal hlaws.nodup).exists_shifts
        hu (hvars.covers (hlaws.notMem_heads hw) hrank) hsize
      exact hshifts.exists_decide ha hpos hsize ((heliminate hleft).trans ht)
        ((heliminate' hright).trans ht') hdecide
  refine ⟨q, (Tables.decide_congr hdeps d _).trans hq, hrule, fun w₁ w₁' hres hres' => ?_⟩
  have hsub := Tables.ids_subset_of_decide_eliminateAll hpos hw.fits hsize hdecide
  have hlaw := Law.normal_of_decide hpos (Tables.fits_eliminateAll hw.fits (pick d w)) hsize hdecide
    hobserved hrank
  refine ⟨hscope.resolves hres hres' hrule.ids hsub, _, hlaws.resolves hw hres hlaw, ?_⟩
  rw [hres.tables, hres'.tables]
  rcases htables with halike | ⟨u, u', hu, hleft, hright⟩
  · exact .inl (halike.append (Tables.alike_singleton hrule))
  · rw [Law.tables, List.map_append]
    exact .inr ⟨u, u', hu, hleft.append (Tables.alike_singleton (.refl hrule.fits)),
      hright.append (Tables.alike_singleton hrule.symm)⟩

end StepM

end Influence
