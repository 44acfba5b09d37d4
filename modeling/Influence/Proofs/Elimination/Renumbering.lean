import Influence.Proofs.Elimination.Alike
import Influence.Proofs.Table.Shape

/-! # Decisions with other creation numbers

A decision gets the same tables in workspaces that are alike but for the creation numbers
(`Lockstep.decideHere`), and backward induction finds the same rules in them, or fails for the same cause
(`Lockstep.solveDecisions`). -/

namespace Influence

variable {α : Type}

namespace Lockstep

section

/-- Whether a decision can be relabelled depends on the handles only. -/
theorem relabelAsChance {r t : Registry} (h : r.handles = t.handles) (v : Variable) :
    Lockstep (fun _ _ => True) (fun _ r' _ t' => r' = r.withChance v ∧ t' = t.withChance v)
      (runFrom (Registry.relabelAsChance v) r) (runFrom (Registry.relabelAsChance v) t) := by
  have hfind : r.find? v.id = t.find? v.id := by
    unfold Registry.find?
    rw [h]
  unfold Registry.relabelAsChance
  refine bind (R := fun a r' b t' => a = r' ∧ b = t' ∧ r' = r ∧ t' = t)
    (of_returns (returns_get.mpr ⟨rfl, rfl⟩) (returns_get.mpr ⟨rfl, rfl⟩) ⟨rfl, rfl, rfl, rfl⟩) ?_
  rintro a _ b _ ⟨rfl, rfl, rfl, rfl⟩
  rw [hfind]
  cases b.find? v.id with
  | none => exact throw trivial
  | some u =>
      refine guard .rfl trivial fun _ => ?_
      refine bind (of_returns (R := fun _ r' _ t' => r' = a.withChance v ∧ t' = b.withChance v)
        (returns_set (u := ()).mpr rfl) (returns_set (u := ()).mpr rfl) ⟨rfl, rfl⟩) ?_
      exact fun _ _ _ _ h => pure h

end

section

variable [Build] [Cell α] {r₀ t₀ r t : Registry} {f g : Factor α} {u : Table α} {v d : Variable}
  {s : Setting α} {w w' : Workspace α} {p q : Factor α × Factor α} {vars : Axes}

theorem rule (h : BothLater r₀ t₀ r t) (hf : f.table = u) (hg : g.table = u)
    (hd : u.mentions d) :
    Lockstep (fun _ _ => True)
      (fun f r g t => ∃ u', u'.axes.ids.Perm u.axes.ids ∧ Copies r₀ t₀ u' f r g t)
      (runFrom (f.rule d) r) (runFrom (g.rule d) t) := by
  unfold Factor.rule
  refine bind (R := fun _ r _ t => BothLater r₀ t₀ r t) ?_ fun _ r _ t h => ?_
  · unfold Factor.moveLast Factor.axes
    refine bind (requireAxis h hf hg hd) fun _ r _ t h => ?_
    rw [hf, hg]
    exact (rearrange h hf hg _).imp (fun _ _ _ => trivial) fun _ _ _ _ hcopies => hcopies.bothLater
  · rw [hf, hg]
    cases hrule : u.rule d with
    | error state => exact throw trivial
    | ok u' =>
        refine (make h u').imp (fun _ _ => id) fun _ _ _ _ hcopies => ⟨u', ?_, hcopies⟩
        rw [Table.axes_of_rule hrule, Table.moveLast, Table.ids_rearrange]
        exact Table.perm_ids_moveLast hd

theorem isConstantFrom {first first' : Factor α} (h : BothLater r₀ t₀ w.registry w'.registry)
    (hf : f.table = u) (hg : g.table = u) (hv : u.mentions v) (hfirst : first.table = first'.table)
    (n k : ℕ) :
    Lockstep (fun _ _ => True) (fun b s c t => b = c ∧ BothLater r₀ t₀ s.registry t.registry)
      (runFrom (StepM.isConstantFrom f v first n k) w)
      (runFrom (StepM.isConstantFrom g v first' n k) w') := by
  induction n generalizing k w w' with
  | zero => exact pure ⟨rfl, h⟩
  | succ n ih =>
      unfold StepM.isConstantFrom
      refine bind (onRegistry (restrict h hf hg hv k)) ?_
      rintro f' _ g' _ ⟨r, t, hcopies, rfl, rfl⟩
      rw [hcopies.left, hcopies.right, hfirst]
      split
      · exact ih hcopies.bothLater (k + 1)
      · exact pure ⟨rfl, hcopies.bothLater⟩

/-- The tables found for a decision in two runs, with the axes that may still be dropped. -/
structure Matched (r₀ t₀ : Registry) (vars : Axes) (p : Factor α × Factor α) (w : Workspace α)
    (q : Factor α × Factor α) (w' : Workspace α) : Prop where
  combined : p.1.table = q.1.table
  rule : ∃ u, Copies r₀ t₀ u p.2 w.registry q.2 w'.registry
  nodup : p.2.axes.ids.Nodup
  perm : p.1.axes.ids.Perm p.2.axes.ids
  distinct : vars.ids.Nodup
  subset : vars.ids ⊆ p.2.axes.ids

theorem dropAxis (h : Matched r₀ t₀ (v :: vars) p w q w') :
    Lockstep (fun _ _ => True) (Matched r₀ t₀ vars) (runFrom (StepM.dropAxis p v) w)
      (runFrom (StepM.dropAxis q v) w') := by
  obtain ⟨combined, rule⟩ := p
  obtain ⟨combined', rule'⟩ := q
  obtain ⟨hcombined, ⟨u, hrule⟩, hnodup, hperm, hdistinct, hsubset⟩ := h
  obtain ⟨hv, hdistinct⟩ := Axes.nodup_ids_cons.mp hdistinct
  obtain ⟨hmem, hsubset⟩ := List.cons_subset.mp hsubset
  have hmentions : u.mentions v := by
    rw [← hrule.left]
    exact Table.mentions_iff.mpr hmem
  have hmentions' : combined.table.mentions v := Table.mentions_iff.mpr (hperm.mem_iff.mpr hmem)
  have hnodup' : combined.axes.ids.Nodup := hperm.nodup_iff.mpr hnodup
  unfold StepM.dropAxis
  refine bind (onRegistry (restrict (.refl _ _) hrule.left hrule.right hmentions 0)) ?_
  rintro first _ first' _ ⟨r, t, hfirst, rfl, rfl⟩
  refine bind (isConstantFrom (.refl r t) hrule.left hrule.right hmentions
    (hfirst.left.trans hfirst.right.symm) _ 1) ?_
  rintro b w₁ _ w₁' ⟨rfl, hlater⟩
  cases b with
  | true =>
      refine bind (onRegistry (restrict (.refl _ _) rfl hcombined.symm hmentions' 0)) ?_
      rintro reduced _ reduced' _ ⟨r₂, t₂, hreduced, rfl, rfl⟩
      have hids : ∀ axes : Axes, axes.ids.Nodup → ∀ id, id ∈ (axes.without v).ids ↔
          id ∈ axes.ids ∧ id ≠ v.id := fun axes h id => Axes.mem_ids_without h
      refine pure ⟨hreduced.left.trans hreduced.right.symm,
        ⟨_, (hfirst.since hrule.bothLater).later (hlater.trans hreduced.bothLater)⟩, ?_, ?_, hdistinct, ?_⟩
      all_goals
        dsimp only
        simp only [Factor.axes, hfirst.left, hreduced.left, Table.axes_restrict, ← hrule.left]
      · exact Axes.nodup_without hnodup v
      · refine (List.perm_ext_iff_of_nodup (Axes.nodup_without hnodup' v)
          (Axes.nodup_without hnodup v)).mpr fun id => ?_
        rw [hids _ hnodup', hids _ hnodup]
        exact and_congr_left fun _ => hperm.mem_iff
      · intro id hid
        exact (hids _ hnodup id).mpr ⟨hsubset hid, fun h => hv (h ▸ hid)⟩
  | false =>
      exact pure ⟨hcombined, ⟨u, hrule.later (hfirst.bothLater.trans hlater)⟩, hnodup, hperm,
        hdistinct, hsubset⟩

theorem dropUnobserved {combined combined' : Factor α} (h : Copies r₀ t₀ u f w.registry g w'.registry)
    (hcombined : combined.table = combined'.table) (hnodup : u.axes.ids.Nodup)
    (hperm : combined.axes.ids.Perm u.axes.ids) :
    Lockstep (fun _ _ => True) (Matched r₀ t₀ []) (runFrom (StepM.dropUnobserved s d combined f) w)
      (runFrom (StepM.dropUnobserved s d combined' g) w') := by
  have haxes : f.axes = u.axes := congrArg Table.axes h.left
  have haxes' : g.axes = u.axes := congrArg Table.axes h.right
  rw [← haxes] at hnodup hperm
  unfold StepM.dropUnobserved
  rw [haxes', ← haxes]
  refine foldlM (f := StepM.dropAxis) (g := StepM.dropAxis) (I := Matched r₀ t₀)
    (fun _ _ _ _ _ _ h => dropAxis h) ?_
  exact ⟨hcombined, ⟨u, h⟩, hnodup, hperm, Axes.nodup_ids_filter hnodup _,
    (Axes.ids_filter_sublist _ _).subset⟩

omit [Build] [Cell α] in
theorem candidates (h : w.Alike w') :
    Lockstep (fun _ _ => True)
      (fun fs w₁ gs w₁' =>
        fs.map (·.table) = w.tables.filter (Tables.bearsOn d (s.dependencies.parents d)) ∧
        gs.map (·.table) = w.tables.filter (Tables.bearsOn d (s.dependencies.parents d)) ∧
        fs ≠ [] ∧ w₁.registry = w.registry ∧ w₁'.registry = w'.registry)
      (runFrom (StepM.candidates s d) w) (runFrom (StepM.candidates s d) w') := by
  unfold StepM.candidates
  refine bind (take h (Tables.bearsOn d (s.dependencies.parents d))) ?_
  rintro fs _ gs _ ⟨hfs, hgs, rfl, rfl⟩
  have hempty : fs.isEmpty ↔ gs.isEmpty := by
    rw [← List.isEmpty_map (f := (·.table)), hfs, ← hgs, List.isEmpty_map]
  refine guard hempty trivial fun hne => pure ?_
  exact ⟨hfs, hgs, by rwa [List.isEmpty_iff] at hne, rfl, rfl⟩

/-- The product of the candidates is the same table, be it made or the only candidate. -/
theorem productOf {fs gs : List (Factor α)} {us : List (Table α)}
    (hfs : fs.map (·.table) = us) (hgs : gs.map (·.table) = us) :
    Lockstep (fun _ _ => True) (fun f s g t => f.table = .product us ∧ g.table = .product us ∧
        BothLater w.registry w'.registry s.registry t.registry)
      (runFrom (StepM.productOf fs) w) (runFrom (StepM.productOf gs) w') := by
  have hmade : ∀ (us : List (Table α)) (fs gs : List (Factor α)), fs.map (·.table) = us →
      gs.map (·.table) = us →
      Lockstep (fun _ _ => True) (fun f s g t => f.table = .product us ∧ g.table = .product us ∧
          BothLater w.registry w'.registry s.registry t.registry)
        (runFrom (StepM.onRegistry (Factor.product fs)) w)
        (runFrom (StepM.onRegistry (Factor.product gs)) w') := by
    intro us fs gs hfs hgs
    refine (onRegistry (product (.refl _ _) hfs hgs)).imp (fun _ _ => id) ?_
    rintro f _ g _ ⟨r, r', hcopies, rfl, rfl⟩
    exact ⟨hcopies.left, hcopies.right, hcopies.bothLater⟩
  match us, hfs, hgs with
  | [u], hfs, hgs =>
      obtain ⟨f, rfl, hf⟩ := List.map_eq_singleton_iff.mp hfs
      obtain ⟨g, rfl, hg⟩ := List.map_eq_singleton_iff.mp hgs
      exact pure ⟨hf, hg, .refl _ _⟩
  | [], hfs, hgs =>
      rw [List.map_eq_nil_iff.mp hfs, List.map_eq_nil_iff.mp hgs]
      exact hmade [] [] [] rfl rfl
  | u :: u' :: us, hfs, hgs =>
      obtain ⟨f, _, rfl, -, h⟩ := List.map_eq_cons_iff.mp hfs
      obtain ⟨f', _, rfl, -, -⟩ := List.map_eq_cons_iff.mp h
      obtain ⟨g, _, rfl, -, h⟩ := List.map_eq_cons_iff.mp hgs
      obtain ⟨g', _, rfl, -, -⟩ := List.map_eq_cons_iff.mp h
      exact hmade _ _ _ hfs hgs

theorem ruleOf (h : BothLater r₀ t₀ w.registry w'.registry) (hf : f.table = u) (hg : g.table = u)
    (hnodup : u.axes.ids.Nodup) (hd : u.mentions d) :
    Lockstep (fun _ _ => True) (Matched r₀ t₀ [])
      (runFrom (StepM.onRegistry (f.rule d) >>= StepM.dropUnobserved s d f) w)
      (runFrom (StepM.onRegistry (g.rule d) >>= StepM.dropUnobserved s d g) w') := by
  refine bind (onRegistry (rule h hf hg hd)) ?_
  rintro f' _ g' _ ⟨r, t, ⟨u', hperm, hcopies⟩, rfl, rfl⟩
  refine dropUnobserved hcopies (hf.trans hg.symm) (hperm.nodup_iff.mpr hnodup) ?_
  rw [Factor.axes, hf]
  exact hperm.symm

/-- A decision gets the same tables in workspaces that are alike. -/
theorem decideHere (h : w.Alike w') :
    Lockstep (fun _ _ => True) (Matched w.registry w'.registry [])
      (runFrom (StepM.decideHere s d) w) (runFrom (StepM.decideHere s d) w') := by
  rw [StepM.decideHere_eq]
  have hlater := Keeps.eliminateHidden s [] [] true
  refine bind (eliminateHidden h [] [] true).and_returns ?_
  rintro _ w₁ _ w₁' ⟨h₁, hreduce, hreduce'⟩
  have hlater : BothLater w.registry w'.registry w₁.registry w₁'.registry :=
    ⟨hlater.of_returns hreduce, hlater.of_returns hreduce'⟩
  refine bind (candidates h₁) ?_
  rintro fs w₂ gs w₂' ⟨hfs, hgs, hne, hw₂, hw₂'⟩
  rw [← hw₂, ← hw₂'] at hlater
  let us := w₁.tables.filter (Tables.bearsOn d (s.dependencies.parents d))
  have hnodup : (Table.product us).axes.ids.Nodup := Table.nodup_foldAll (h₁.distinct.filter _)
  have hmentions : (Table.product us).mentions d := by
    obtain ⟨f, hf⟩ := List.exists_mem_of_ne_nil fs hne
    have hmem : f.table ∈ us := by
      rw [show us = fs.map (·.table) from hfs.symm]
      exact List.mem_map_of_mem hf
    have hbears := (List.mem_filter.mp hmem).2
    rw [Tables.bearsOn, Bool.and_eq_true] at hbears
    exact Table.mentions_iff.mpr
      (Table.mem_ids_foldAll.mpr ⟨_, hmem, Table.mentions_iff.mp hbears.1⟩)
  refine bind (productOf hfs hgs) ?_
  rintro f _ g _ ⟨hf, hg, hlater'⟩
  exact ruleOf (hlater.trans hlater') hf hg hnodup hmentions

/-- The decisions have been resolved in the same way. -/
structure SameRule (res res' : Resolved α) : Prop where
  decision : res.decision = res'.decision
  combined : res.combined.table = res'.combined.table
  rule : res.rule.table = res'.rule.table

/-- Resolving a decision in workspaces that are alike leaves workspaces that are alike. -/
theorem resolve (h : w.Alike w') :
    Lockstep (fun _ _ => True) (fun res w res' w' => SameRule res res' ∧ w.Alike w')
      (runFrom (StepM.resolve s d) w) (runFrom (StepM.resolve s d) w') := by
  unfold StepM.resolve
  refine bind (inScratch (decideHere h)) ?_
  rintro ⟨combined, rule⟩ _ ⟨combined', rule'⟩ _ ⟨a, a', hmatched, rfl, rfl⟩
  obtain ⟨hcombined, ⟨u, hrule⟩, hnodup, -, -, -⟩ := hmatched
  have hu : u.axes.ids.Nodup := by rwa [← hrule.left]
  refine bind (insert_new ⟨h, hrule.bothLater⟩ hrule hu) fun _ w₁ _ w₁' halike => ?_
  refine bind (onRegistry (relabelAsChance halike.handles d)) ?_
  rintro _ _ _ _ ⟨_, _, ⟨rfl, rfl⟩, rfl, rfl⟩
  refine pure ⟨⟨rfl, hcombined, hrule.left.trans hrule.right.symm⟩, ?_⟩
  exact ⟨halike.left, halike.right, halike.tables, halike.distinct,
    congrArg (List.map _) halike.handles, halike.eliminated⟩

/-- **Backward induction finds the same rules in workspaces that are alike.** -/
theorem solveDecisions (h : w.Alike w') :
    Lockstep (fun _ _ => True) (fun rs _ rs' _ => List.Forall₂ SameRule rs rs')
      (runFrom (StepM.solveDecisions s) w) (runFrom (StepM.solveDecisions s) w') := by
  unfold StepM.solveDecisions
  split
  · exact pure .nil
  refine bind (sumUtilities h) fun _ w₁ _ w₁' h₁ => ?_
  have hsame : List.Forall₂ Eq s.decisionOrder.reverse s.decisionOrder.reverse :=
    List.forall₂_same.mpr fun _ _ => rfl
  refine bind (mapM (V := SameRule) (fun d d' w w' hd h => ?_) hsame h₁) fun rs _ rs' _ hrs => ?_
  · subst hd
    exact resolve h
  · exact pure (List.rel_reverse hrs.1)

end

end Lockstep

end Influence
