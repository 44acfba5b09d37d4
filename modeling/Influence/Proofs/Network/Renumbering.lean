import Influence.Proofs.Elimination.Renumbering
import Influence.Proofs.Network.Question
import Influence.Proofs.Network.Resolution

/-! # Runs on a network with other creation numbers

A run on a network is made on a copy of its registry.  Started from two registries that differ in the
creation numbers handed out, it finds the same rules (`Lockstep.resolveAll`) and the same answers
(`Lockstep.answer`), or fails for the same cause. -/

namespace Influence

variable {α : Type} [Build] [Cell α]

/-! ### The factors of rules -/

namespace Network

variable {n : Network α} {p : Policy α} {ps : List (Policy α)} {f : Factor α} {fs : List (Factor α)}
  {r r' : Registry} {s : Setting α} {m : Node}

omit [Cell α] in
/-- The policy is for a decision: it has its name and lists the names of its parents. -/
def IsFor (n : Network α) (d : Variable) (p : Policy α) : Prop :=
  ∃ m ∈ n.nodes, m.kind = .decision ∧ m.handle = d ∧ p.name = m.name ∧
    p.given = givenOf n.entries m.name

/-- What the factor of a rule is made of. -/
structure IsFactorOf (n : Network α) (p : Policy α) (f : Factor α) : Prop where
  axes : ∃ m ms, n.node p.name = .ok m ∧
    List.Forall₂ (fun name m => n.node name = .ok m) p.given ms ∧
    f.axes = ms.map (·.handle) ++ [m.handle]
  nodup : f.axes.ids.Nodup

theorem returns_policyFactor (h : Returns (n.policyFactor p) r f r') :
    n.IsFactorOf p f ∧ f.id = r.nextFactor ∧ r'.nextFactor = r.nextFactor + 1 ∧
      ∀ v, r'.kindOf v = .utility → r.kindOf v = .utility := by
  unfold policyFactor at h
  simp only [returns_bind, returns_except, returns_mapM_except, Factor.returns_create_some] at h
  obtain ⟨m, _, ⟨hm, rfl⟩, _, _, hrelabel, ms, _, ⟨hms, rfl⟩, hnodup, -, rfl, rfl⟩ := h
  obtain ⟨hkind, hmem, rfl⟩ := Registry.returns_relabelAsChance hrelabel
  refine ⟨⟨⟨m, ms, hm, hms, rfl⟩, hnodup⟩, rfl, rfl, fun v hv => ?_⟩
  rw [Registry.kindOf_after, Registry.kindOf_withChance hmem] at hv
  split at hv
  · cases hv
  · exact hv

theorem returns_policyFactors (h : Returns (ps.mapM n.policyFactor) r fs r') :
    List.Forall₂ n.IsFactorOf ps fs ∧ fs.Pairwise (·.id < ·.id) ∧
      (∀ f ∈ fs, r.nextFactor ≤ f.id ∧ f.id < r'.nextFactor) ∧ r.nextFactor ≤ r'.nextFactor ∧
      ∀ v, r'.kindOf v = .utility → r.kindOf v = .utility := by
  induction ps generalizing r fs with
  | nil =>
      obtain ⟨rfl, rfl⟩ := returns_mapM_nil.mp h
      exact ⟨.nil, .nil, by simp, Nat.le_refl _, fun _ => id⟩
  | cons p ps ih =>
      obtain ⟨f, r₁, rest, hfirst, hrest, rfl⟩ := returns_mapM_cons.mp h
      obtain ⟨hf, hid, hnext, hkinds⟩ := returns_policyFactor hfirst
      obtain ⟨hall, hascending, hnumbers, hle, hkinds'⟩ := ih hrest
      refine ⟨.cons hf hall, List.pairwise_cons.mpr ⟨fun g hg => ?_, hascending⟩, fun g hg => ?_, ?_,
        fun v hv => hkinds v (hkinds' v hv)⟩
      · have := hnumbers g hg
        omega
      · rcases List.mem_cons.mp hg with rfl | hg
        · omega
        · have := hnumbers g hg
          omega
      · omega

/-- The factors of a run are in the order of their numbers. -/
theorem returns_workingSet (hn : n.Compiled) (hr : n.registry.Later r)
    (h : Returns n.workingSet r fs r') :
    (Workspace.start r' fs).Numbered ∧ (Workspace.start r' fs).tables = fs.map (·.table) ∧
      Tables.Distinct (fs.map (·.table)) ∧
      (∃ rules, fs = n.factors ++ rules ∧ List.Forall₂ n.IsFactorOf n.policies rules) ∧
      ∀ v, r'.kindOf v = .utility → n.registry.kindOf v = .utility := by
  unfold workingSet at h
  simp only [returns_bind, returns_pure] at h
  obtain ⟨rules, _, hrules, rfl, rfl⟩ := h
  obtain ⟨hall, hascending, hnumbers, hle, hkinds⟩ := returns_policyFactors hrules
  have hfactors : ∀ f ∈ n.factors, f.id < r.nextFactor := fun f hf =>
    Nat.lt_of_lt_of_le (hn.numbered f hf) hr.le
  have hpairwise : (n.factors ++ rules).Pairwise (·.id < ·.id) :=
    List.pairwise_append.mpr ⟨hn.ascending, hascending, fun f hf g hg =>
      Nat.lt_of_lt_of_le (hfactors f hf) (hnumbers g hg).1⟩
  refine ⟨Workspace.numbered_start fun f hf => ?_, ?_, ?_, ⟨rules, rfl, hall⟩, fun v hv => ?_⟩
  · rcases List.mem_append.mp hf with hf | hf
    · exact Nat.lt_of_lt_of_le (hfactors f hf) hle
    · exact (hnumbers f hf).2
  · exact congrArg (List.map _) (Pool.ofList_of_pairwise hpairwise)
  · rw [List.map_append]
    refine .append (fun t ht => (hn.shaped_tables t ht).nodup) fun t ht => ?_
    obtain ⟨f, hf, rfl⟩ := List.mem_map.mp ht
    obtain ⟨p, -, hfactor⟩ := exists_left_of_mem hall hf
    exact hfactor.nodup
  · have := hkinds v hv
    rwa [Registry.kindOf_congr hr.handles] at this

/-- Every variable but a utility has a table in a run, a decision that of its policy. -/
theorem hasTable_of_workingSet (hn : n.Compiled) (hr : n.registry.Later r)
    (hpolicies : ∀ d ∈ n.dependencies.decisions, ∃ p ∈ n.policies, n.IsFor d p)
    (h : Returns n.workingSet r fs r') {v : Variable} (hv : v ∈ n.states) :
    Tables.HasTable r' v (Workspace.start r' fs).tables := by
  obtain ⟨-, htables, -, ⟨rules, rfl, hrules⟩, hkinds⟩ := returns_workingSet hn hr h
  obtain ⟨m, hm, hkind, rfl⟩ := mem_states.mp hv
  have hfamily : ∀ t : Table α, t.axes = n.parentHandles m ++ [m.handle] →
      m.handle.id ∈ t.axes.ids ∧ Tables.isUtility r' t = false := by
    intro t haxes
    rw [Tables.isUtility, List.any_eq_false, haxes]
    refine ⟨by simp, fun v hv hutility => ?_⟩
    obtain ⟨m', hm', hkind', rfl⟩ := mem_states.mp (hn.family_subset_states hm hkind hv)
    have := hkinds _ (by simpa using hutility)
    rw [hn.kindOf_handle hm'] at this
    exact hkind' this
  rw [htables, List.map_append]
  cases hm' : m.kind with
  | utility => exact absurd hm' hkind
  | chance =>
      obtain ⟨t, ht⟩ := hn.exists_tabled hm (by simp [hm'])
      have hmem : t ∈ n.tables := hn.map_snd_tabled ▸ List.mem_map_of_mem (f := (·.2)) ht
      exact ⟨t, List.mem_append_left _ hmem, hfamily t (hn.table_of_tabled ht).1⟩
  | decision =>
      obtain ⟨p, hp, m', hm₁, -, hid, hname, hgiven⟩ :=
        hpolicies _ (hn.mem_decisions.mpr ⟨m, hm, hm', rfl⟩)
      obtain rfl : m = m' := (hn.eq_of_id hm₁ hm (congrArg (·.id) hid)).symm
      obtain ⟨f, hf, hfactor⟩ := exists_right_of_mem hrules hp
      refine ⟨f.table, List.mem_append_right _ (List.mem_map_of_mem hf), hfamily f.table ?_⟩
      obtain ⟨m₂, ms, hnode, hms, haxes⟩ := hfactor.axes
      have hname' : n.node p.name = .ok m :=
        (find_eq_ok_iff hn.declared.names).mpr ⟨hm, hname.symm⟩
      obtain rfl : m₂ = m := Except.ok.inj (hnode.symm.trans hname')
      rw [show f.table.axes = _ from haxes, map_handle_of_forall₂ hms, hgiven]
      rfl

/-! ### The decisions of a run -/

theorem isFor_of_returns_resolveAll (hn : n.Compiled) (h : Returns n.resolveAll r ps r') :
    ∀ d ∈ n.dependencies.decisions, ∃ p ∈ ps, n.IsFor d p := by
  unfold resolveAll at h
  simp only [returns_bind, returns_except, Setting.returns_run] at h
  obtain ⟨fs, _, -, s, _, ⟨hs, rfl⟩, rs, _, ⟨w, hsolve, -⟩, hpolicies⟩ := h
  intro d hd
  obtain ⟨m, hm, hkind, hhandle⟩ := hn.mem_decisions.mp hd
  have hmem : d ∈ rs.map (·.decision) := by
    rw [StepM.decision_of_returns_solveDecisions hsolve]
    exact (hn.decisionOrder hs).1.mem_iff.mpr hd
  obtain ⟨res, hres, hdecision⟩ := List.mem_map.mp hmem
  obtain ⟨p, hp, _, _, hpolicy⟩ := exists_right_of_mem (forall₂_of_returns_mapM hpolicies) hres
  obtain ⟨_, _, _, _, -, -, rfl⟩ :=
    hn.exists_returns_conform hm (hdecision.trans hhandle.symm) hpolicy
  exact ⟨_, hp, m, hm, hkind, hhandle, rfl, rfl⟩

end Network

/-! ### Runs in lockstep -/

namespace Lockstep

variable {n : Network α} {r t r₀ t₀ : Registry} {f g : Factor α} {u : Table α}

/-- The factor of a rule is made in the same way for the same handles. -/
theorem policyFactor (h : r.handles = t.handles) (p : Policy α) :
    Lockstep (fun _ _ => True) (fun f r g t => f.table = g.table ∧ r.handles = t.handles)
      (runFrom (n.policyFactor p) r) (runFrom (n.policyFactor p) t) := by
  unfold Network.policyFactor
  refine bind (except (R := fun a r' b t' => a = b ∧ r' = r ∧ t' = t) trivial fun _ _ =>
    ⟨rfl, rfl, rfl⟩) ?_
  rintro m _ _ _ ⟨rfl, rfl, rfl⟩
  refine bind (relabelAsChance h m.handle) ?_
  rintro _ r _ t ⟨rfl, rfl⟩
  have hgiven : List.Forall₂ Eq p.given p.given := List.forall₂_same.mpr fun _ _ => rfl
  refine bind (mapM (V := Eq) (W := fun r t => r.handles = t.handles) (fun name name' r t hname h =>
    ?_) hgiven (congrArg (List.map _) h)) fun ms r ms' t hms => ?_
  · subst hname
    exact except trivial fun _ _ => ⟨rfl, h⟩
  · obtain rfl : ms = ms' := List.forall₂_eq_eq_eq ▸ hms.1
    refine (create (.refl r t) _ _).imp (fun _ _ _ => trivial) fun f r' g t' hcopies => ?_
    refine ⟨hcopies.left.trans hcopies.right.symm, ?_⟩
    rw [hcopies.isNew_left.later.handles, hcopies.isNew_right.later.handles, hms.2]

/-- A run starts in the same way, whatever numbers have been handed out. -/
theorem workingSet (hn : n.Compiled) (hr : n.registry.Later r) (ht : n.registry.Later t) :
    Lockstep (fun _ _ => True) (fun fs r' gs t' =>
        (Workspace.start r' fs).Alike (Workspace.start t' gs) ∧ Returns n.workingSet r fs r')
      (runFrom n.workingSet r) (runFrom n.workingSet t) := by
  have hhandles : r.handles = t.handles := by rw [hr.handles, ht.handles]
  have hpolicies : List.Forall₂ Eq n.policies n.policies := List.forall₂_same.mpr fun _ _ => rfl
  have hrules : Lockstep (fun _ _ => True)
      (fun fs r gs t => fs.map (·.table) = gs.map (·.table) ∧ r.handles = t.handles)
      (runFrom n.workingSet r) (runFrom n.workingSet t) := by
    unfold Network.workingSet
    refine bind (mapM (V := fun f g : Factor α => f.table = g.table)
      (W := fun r t => r.handles = t.handles) (fun p p' r t hp h => ?_) hpolicies hhandles) ?_
    · subst hp
      exact policyFactor h p
    · rintro fs r gs t ⟨hall, h⟩
      refine pure ⟨?_, h⟩
      rw [List.map_append, List.map_append]
      refine congrArg _ (List.forall₂_eq_eq_eq ▸ ?_)
      exact List.forall₂_map_left_iff.mpr (List.forall₂_map_right_iff.mpr hall)
  refine hrules.and_returns.imp (fun _ _ => id) ?_
  rintro fs r' gs t' ⟨⟨htables, h⟩, hleft, hright⟩
  obtain ⟨hnumbered, hstart, hdistinct, -⟩ := Network.returns_workingSet hn hr hleft
  obtain ⟨hnumbered', hstart', -⟩ := Network.returns_workingSet hn ht hright
  refine ⟨⟨hnumbered, hnumbered', ?_, ?_, h, fun _ => .rfl⟩, hleft⟩
  · rw [hstart, hstart', htables]
  · rwa [hstart]

omit [Build] [Cell α] in
theorem run {β : Type} {x y : StepM α β} {fs gs : List (Factor α)}
    {E : Workspace α → Workspace α → Prop} {R : β → Workspace α → β → Workspace α → Prop}
    (h : Lockstep E R (runFrom x (.start r fs)) (runFrom y (.start t gs))) :
    Lockstep (fun _ _ => True) (fun b _ c _ => ∃ w w', R b w c w') (runFrom (Setting.run fs x) r)
      (runFrom (Setting.run gs y) t) := by
  change Lockstep _ _ ((runFrom x (.start r fs)).1, (runFrom x (.start r fs)).2.registry)
    ((runFrom y (.start t gs)).1, (runFrom y (.start t gs)).2.registry)
  revert h
  generalize runFrom x (.start r fs) = p
  generalize runFrom y (.start t gs) = q
  intro h
  cases h with
  | ok h => exact .ok ⟨_, _, h⟩
  | error h => exact .error trivial

theorem conform (name : String) (axes : Axes) (hf : f.table = u) (hg : g.table = u) :
    Lockstep (fun _ _ => True) (fun f _ g _ => f.table = g.table)
      (runFrom (n.conform name axes f) r) (runFrom (n.conform name axes g) t) := by
  have hrearrange : ∀ {f g : Factor α} {u : Table α} {r t : Registry}, f.table = u → g.table = u →
      Lockstep (fun _ _ => True) (fun f _ g _ => f.table = g.table) (runFrom (f.rearrange axes) r)
        (runFrom (g.rearrange axes) t) := fun {_ _ _ r t} hf hg =>
    (rearrange (.refl r t) hf hg axes).imp (fun _ _ _ => trivial) fun _ _ _ _ h =>
      h.left.trans h.right.symm
  unfold Network.conform Factor.axes Factor.mentions
  rw [hf, hg]
  cases u.axes.find? fun v => !Axes.mentions axes v with
  | some v => exact bind (R := fun _ _ _ _ => False) (throw trivial) fun _ _ _ _ h => h.elim
  | none =>
      dsimp only
      split
      · exact hrearrange hf hg
      · refine bind (Lockstep.imp (ones (.refl r t) _) (fun _ _ _ => trivial)
          fun _ _ _ _ => id) fun ones r' ones' t' hones => ?_
        have hleft : [f, ones].map (·.table) = [u, ones.table] := by
          rw [List.map_cons, List.map_singleton, hf]
        have hright : [g, ones'].map (·.table) = [u, ones.table] := by
          rw [List.map_cons, List.map_singleton, hg, hones.left, hones.right]
        exact bind ((product (.refl r' t') hleft hright).imp (fun _ _ _ => trivial)
          fun _ _ _ _ => id) fun _ _ _ _ hproduct => hrearrange hproduct.left hproduct.right

theorem policyOf {res res' : Resolved α} (h : SameRule res res') :
    Lockstep (fun _ _ => True) (fun p _ p' _ => p = p') (runFrom (n.policyOf res) r)
      (runFrom (n.policyOf res') t) := by
  unfold Network.policyOf
  rw [h.decision]
  cases n.nodes.findIdx? (·.handle.id == res'.decision.id) with
  | none => exact throw trivial
  | some i =>
      refine bind (conform _ _ h.rule rfl) fun table _ table' _ htable => ?_
      refine bind (conform _ _ h.combined rfl) fun expected _ expected' _ hexpected => ?_
      refine pure ?_
      unfold Factor.cells
      rw [htable, hexpected]

/-- **The rules found do not depend on the numbers handed out.** -/
theorem resolveAll (hn : n.Compiled) (hr : n.registry.Later r) (ht : n.registry.Later t) :
    Lockstep (fun _ _ => True) (fun ps _ ps' _ => ps = ps') (runFrom n.resolveAll r)
      (runFrom n.resolveAll t) := by
  unfold Network.resolveAll
  refine bind (workingSet hn hr ht) fun fs r gs t hstart => ?_
  refine bind (except (R := fun s r' s' t' => s = s' ∧ r' = r ∧ t' = t) trivial fun _ _ =>
    ⟨rfl, rfl, rfl⟩) ?_
  rintro s _ _ _ ⟨rfl, rfl, rfl⟩
  refine bind (run (solveDecisions hstart.1)) ?_
  rintro rs _ rs' _ ⟨_, _, hrs⟩
  refine (mapM (V := Eq) (W := fun _ _ => True) (fun res res' _ _ hres _ => ?_) hrs trivial).imp
    (fun _ _ => id) fun ps _ ps' _ h => List.forall₂_eq_eq_eq ▸ h.1
  exact (policyOf hres).imp (fun _ _ => id) fun _ _ _ _ h => ⟨h, trivial⟩

/-- **The answer to a question does not depend on the numbers handed out.** -/
theorem answer (hn : n.Compiled) (hr : n.registry.Later r) (ht : n.registry.Later t)
    (hpolicies : ∀ d ∈ n.dependencies.decisions, ∃ p ∈ n.policies, n.IsFor d p)
    {evidence : List Observation} (hevidence : n.IsEvidence evidence) (query : List Variable)
    (target : Target) :
    Lockstep (fun _ _ => True) (fun f _ g _ => f.table = g.table ∧ f.axes.ids.Nodup ∧
        ∀ v ∈ query, v ∈ n.states → v.id ∉ Axes.ids (evidence.map (·.subject)) → f.mentions v)
      (runFrom (n.answer evidence query target) r) (runFrom (n.answer evidence query target) t) := by
  unfold Network.answer
  refine bind (workingSet hn hr ht) fun fs r' gs t' hstart => ?_
  obtain ⟨halike, hreturns⟩ := hstart
  refine bind (except (R := fun s r s' t => s = s' ∧ r = r' ∧ t = t') trivial fun _ _ =>
    ⟨rfl, rfl, rfl⟩) ?_
  rintro s _ _ _ ⟨rfl, rfl, rfl⟩
  have hleads := StepM.leads_solve halike.left halike.distinct s hevidence.outcome query target
  refine (run (solve halike evidence query target).and_returns).imp (fun _ _ => id) ?_
  rintro f _ g _ ⟨w, w', htable, hsolve, -⟩
  obtain ⟨hnodup, hmentions⟩ := hleads.of_returns hsolve
  exact ⟨htable, hnodup, fun v hv hstate hfree =>
    hmentions v hv hfree (Network.hasTable_of_workingSet hn hr hpolicies hreturns hstate)⟩

theorem sumOutAll {vars : Axes} (h : BothLater r₀ t₀ r t) (hf : f.table = u) (hg : g.table = u)
    (hnodup : u.axes.ids.Nodup) (hvars : vars.ids.Nodup) (hmem : vars.ids ⊆ u.axes.ids) :
    Lockstep (BothLater r₀ t₀)
      (fun f r g t => f.table = vars.foldl Table.sumOut u ∧ g.table = vars.foldl Table.sumOut u ∧
        BothLater r₀ t₀ r t)
      (runFrom (vars.foldlM Factor.sumOut f) r) (runFrom (vars.foldlM Factor.sumOut g) t) := by
  induction vars generalizing u f g r t with
  | nil => exact pure ⟨hf, hg, h⟩
  | cons v vars ih =>
      obtain ⟨hv, hvars⟩ := Axes.nodup_ids_cons.mp hvars
      rw [Axes.ids_cons, List.cons_subset] at hmem
      rw [List.foldlM_cons, List.foldlM_cons]
      refine bind (sumOut h hf hg (Table.mentions_iff.mpr hmem.1)) fun f _ g _ hcopies => ?_
      refine ih hcopies.bothLater hcopies.left hcopies.right (Axes.nodup_without hnodup v) hvars ?_
      exact fun id hid => (Axes.mem_ids_without hnodup).mpr
        ⟨hmem.2 hid, fun hid' => hv (hid' ▸ hid)⟩

theorem project (h : BothLater r₀ t₀ r t) (axes : Axes) (hf : f.table = u) (hg : g.table = u)
    (hnodup : u.axes.ids.Nodup) :
    Lockstep (BothLater r₀ t₀) (fun f r g t => f.table = g.table ∧ BothLater r₀ t₀ r t)
      (runFrom (Network.project axes f) r) (runFrom (Network.project axes g) t) := by
  unfold Network.project Factor.axes Factor.mentions
  rw [hf, hg]
  refine bind (sumOutAll h hf hg hnodup (Axes.nodup_ids_filter hnodup _)
    (Axes.ids_filter_sublist _ _).subset) fun f r g t ⟨hf, hg, h⟩ => ?_
  rw [hf, hg]
  split
  · exact bind (R := fun _ _ _ _ => False) (throw h) fun _ _ _ _ h => h.elim
  · exact (rearrange h hf hg axes).imp (fun _ _ => id) fun _ _ _ _ hcopies =>
      ⟨hcopies.left.trans hcopies.right.symm, hcopies.bothLater⟩

/-- The distribution of a variable depends on the table of the answer only. -/
theorem distribution (h : BothLater r₀ t₀ r t) {evidence : List Observation} {v : Variable}
    (hf : f.table = u) (hg : g.table = u)
    (hv : v.id ∉ Axes.ids (evidence.map (·.subject)) → u.mentions v) :
    Lockstep (BothLater r₀ t₀) (fun a r b t => a = b ∧ BothLater r₀ t₀ r t)
      (runFrom (NetworkM.distribution evidence f v) r)
      (runFrom (NetworkM.distribution evidence g v) t) := by
  unfold NetworkM.distribution
  cases hfind : evidence.find? (·.subject.id == v.id) with
  | some o => exact pure ⟨rfl, h⟩
  | none =>
      have hfree : v.id ∉ Axes.ids (evidence.map (·.subject)) := by
        rintro hid
        obtain ⟨_, hu, hid⟩ := Axes.mem_ids.mp hid
        obtain ⟨o, ho, rfl⟩ := List.mem_map.mp hu
        exact List.find?_eq_none.mp hfind o ho (by simpa using hid)
      refine bind (marginal h hf hg (hv hfree)) fun f r g t hcopies => ?_
      unfold Factor.normalize
      rw [hcopies.left, hcopies.right]
      refine bind (make hcopies.bothLater _) fun f r g t hcopies => pure ⟨?_, hcopies.bothLater⟩
      unfold Factor.cells
      rw [hcopies.left, hcopies.right]

end Lockstep

end Influence
