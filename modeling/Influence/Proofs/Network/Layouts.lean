import Influence.Proofs.Network.Regime

/-! # How answers and rules are laid out

The tables of a run on a compiled network are shaped (`Regime.shaped`), so an answer has as many cells as
the build counts joint outcomes of its axes.  The factor that an expected utility is read off has one axis
for each name of the query, in the order of the names (`Network.isLayout_of_returns_quotient`), and the
factor that a policy is read off has one for each name that the decision observes and one for the decision
(`Network.exists_laysOut_of_returns_solvePolicies`).

The rules that a network has settled on are policies of its decisions in their order
(`Network.IsSettled.isFitting`). -/

namespace Influence

namespace Network

variable {α : Type} {n m : Network α} {f : Factor α} {names : List String}

/-! ### Axes by name -/

/-- The axis is that of the variable with the name, and has its outcomes. -/
def IsAxis (n : Network α) (name : String) (v : Variable) : Prop :=
  ∃ m ∈ n.nodes, m.name = name ∧ m.handle.id = v.id ∧ m.outcomes.length = v.arity

section

variable [Build]

/-- The factor has one axis for each of the names, in their order, and as many cells as the build counts
joint outcomes. -/
structure IsLayout (n : Network α) (names : List String) (f : Factor α) : Prop where
  axes : List.Forall₂ n.IsAxis names f.axes
  shaped : f.table.Shaped

/-- Axes with the identities of some named variables have their names. -/
theorem Compiled.forall₂_isAxis (hn : n.Compiled) {axes : Axes} (haxes : axes.Sized n.sizes)
    {ms : List Node} (hms : List.Forall₂ (fun name m => n.node name = .ok m) names ms)
    (hids : axes.ids = Axes.ids (ms.map (·.handle))) : List.Forall₂ n.IsAxis names axes := by
  induction hms generalizing axes with
  | nil =>
      obtain rfl := List.map_eq_nil_iff.mp hids
      exact .nil
  | @cons name m names ms hm _ ih =>
      obtain ⟨v, axes, rfl, hid, hids⟩ := List.map_eq_cons_iff.mp hids
      obtain ⟨hv, haxes⟩ := Axes.sized_cons.mp haxes
      obtain ⟨hmem, hname⟩ := (find_eq_ok_iff hn.declared.names).mp hm
      refine .cons ⟨m, hmem, hname, hid.symm, ?_⟩ (ih haxes hids)
      rw [hv, hid, ← hn.sizes_handle hmem, hn.declared.arity m hmem]

omit [Build] in
theorem Continues.exists_update (h : n.Continues m) :
    ∃ r ps, n.registry.Later r ∧ m = { n with registry := r, policies := ps } :=
  ⟨m.registry, m.policies, h.later, h.rest⟩

theorem Compiled.continues (hn : n.Compiled) (h : n.Continues m) : m.Compiled := by
  obtain ⟨r, ps, hr, rfl⟩ := h.exists_update
  exact hn.update hr.handles hr.le ps

theorem IsLayout.continues (h : n.IsLayout names f) (hm : n.Continues m) : m.IsLayout names f := by
  obtain ⟨_, _, -, rfl⟩ := hm.exists_update
  exact ⟨h.axes, h.shaped⟩

end

/-! ### Answers -/

section

variable [Build] [Cell α] {p : Policy α} {r r' : Registry} {observed : List (String × String)}
  {utility : Option String} {res : Resolved α}

theorem Compiled.holds_shaped (hn : n.Compiled) : (Regime.shaped n.sizes : Regime α _ _ _).Holds n where
  compiled := hn
  sized := hn.sized_handles
  factors := fun f hf => by
    obtain ⟨m, -, htable⟩ := exists_left_of_mem hn.factors hf
    exact ⟨htable.shaped, hn.sized_handles.subset (hn.axes_subset_handles hf)⟩
  policies := fun _ _ => trivial

theorem IsReachable.compiled (h : n.IsReachable) : n.Compiled := by
  obtain ⟨definition, config, compiled, calls, hcompile, rfl⟩ := h
  obtain ⟨f, hf, k, ps, -, hversion⟩ := (fresh_of_compile hcompile).exists_isVersion_afterCalls calls
  rw [hversion]
  exact hf.compiled.continues ⟨(Registry.Later.refl _).after k, rfl⟩

theorem isLayout_of_returns_quotient (hn : n.Compiled)
    (h : Returns (NetworkM.quotient observed names utility) n f m) : n.IsLayout names f := by
  obtain ⟨-, ⟨hbase, ms, hms, hids⟩, -⟩ :=
    (Regime.agree_quotient hn.holds_shaped).result (congrArg Prod.fst h)
  exact ⟨hn.forall₂_isAxis hbase.2 hms hids, hbase.1⟩

/-! ### Policies -/

/-- The policy is that of a decision of the network, and its table is that of a rule laid out as the
factor. -/
structure LaysOut (n : Network α) (p : Policy α) (f : Factor α) : Prop where
  isFor : ∃ d, n.IsFor d p
  made : ∃ res r r₁ r₂, Returns (n.policyOf res) r p r₂ ∧
    Returns (n.conform p.name (handlesOf n.nodes (p.given ++ [p.name])) res.rule) r f r₁
  cells : p.table = f.cells.toList
  isLayout : n.IsLayout (p.given ++ [p.name]) f

/-- A resolved decision is put in names by laying its tables out over what it observes and itself. -/
theorem exists_laysOut_of_returns_policyOf (hn : n.Compiled) {m : Node} (hm : m ∈ n.nodes)
    (hkind : m.kind = .decision) (hdecision : res.decision = m.handle)
    (hcombined : res.combined.table.Shaped ∧ res.combined.axes.Sized n.sizes)
    (hrule : res.rule.table.Shaped ∧ res.rule.axes.Sized n.sizes)
    (h : Returns (n.policyOf res) r p r') : (∃ f, n.LaysOut p f) ∧ n.IsFitting m.handle p := by
  obtain ⟨f, g, r₁, r₂, hconform, hexpected, rfl⟩ := hn.exists_returns_conform hm hdecision h
  have hsub := hn.family_subset hm
  have hsized := hn.sized_handles.subset hsub
  have hnodup := hn.nodup_family hm
  -- both tables have as many cells as the build counts joint outcomes of the family
  obtain ⟨-, hf, hids⟩ := (Regime.agree_conform hn.holds_shaped hnodup hsub hrule m.name).result
    (congrArg Prod.fst hconform)
  obtain ⟨-, hg, hids'⟩ := (Regime.agree_conform hn.holds_shaped hnodup hsub hcombined m.name).result
    (congrArg Prod.fst hexpected)
  have hlength : ∀ {g : Factor α}, g.table.Shaped → g.axes.Sized n.sizes →
      g.axes.ids = (n.parentHandles m ++ [m.handle]).ids →
      g.cells.toList.length = Axes.size (n.dependencies.parents m.handle ++ [m.handle]) := by
    intro g hshaped hg hids
    rw [Array.length_toList, hn.parents_handle hm hkind]
    exact hshaped.size_cells.trans (congrArg Build.word (hg.count_eq hsized (.of_eq hids)))
  refine ⟨⟨f, ⟨m.handle, m, hm, hkind, rfl, rfl, rfl⟩, ⟨res, r, r₁, r', h, ?_⟩, rfl, ?_, hf.1⟩, ?_⟩
  · rw [hn.handlesOf_family hm]
    exact hconform
  · have hnamed : ∀ name ∈ givenOf n.entries m.name ++ [m.name], ∃ m ∈ n.nodes, m.name = name := by
      intro name hname
      rcases List.mem_append.mp hname with hname | hname
      · obtain ⟨m', hm', hname', -⟩ := mem_givenOf hn.checked hname
        exact ⟨m', hm', hname'⟩
      · exact ⟨m, hm, (List.mem_singleton.mp hname).symm⟩
    obtain ⟨ms, hms, hhandles⟩ := exists_nodes hnamed
    rw [← hn.handlesOf_family hm, ← hhandles] at hids
    exact hn.forall₂_isAxis hf.2 hms hids
  · exact ⟨⟨m, hm, hkind, rfl, rfl, rfl⟩, hlength hf.1 hf.2 hids, hlength hg.1 hg.2 hids'⟩

theorem exists_laysOut_of_returns_resolveAll (hn : n.Compiled) {ps : List (Policy α)}
    (h : Returns n.resolveAll r ps r') :
    (∀ p ∈ ps, ∃ f, n.LaysOut p f) ∧
      ∀ s, n.setting = .ok s → List.Forall₂ n.IsFitting s.decisionOrder ps := by
  unfold resolveAll at h
  simp only [returns_bind, returns_except, Setting.returns_run] at h
  obtain ⟨fs, r₁, hset, s, _, ⟨hs, rfl⟩, rs, r₂, ⟨w, hsolve, -⟩, hps⟩ := h
  obtain ⟨-, hfs⟩ := (Regime.agree_workingSet hn.holds_shaped).result (congrArg Prod.fst hset)
  obtain ⟨-, hrs⟩ := ((Regime.shaped n.sizes).agree_solveDecisionsBy s
    (fun d w => (StepM.perm_heuristicPick s d w).subset) (fun f hf => (hfs f hf).1) hn.sized_handles
    (fun f hf => (hfs f hf).2) (hn.decisionOrder_subset_handles hs)).result (congrArg Prod.fst hsolve)
  have hlaid : List.Forall₂ (fun res p => (∃ f, n.LaysOut p f) ∧ n.IsFitting res.decision p) rs ps := by
    refine List.forall₂_iff_zip.mpr ⟨(forall₂_of_returns_mapM hps).length_eq, fun {res p} hmem => ?_⟩
    obtain ⟨_, _, hpolicy⟩ := List.forall₂_zip (forall₂_of_returns_mapM hps) hmem
    obtain ⟨hdecision, hcombined, hrule⟩ := hrs res (List.of_mem_zip hmem).1
    obtain ⟨m, hm, hkind, hhandle⟩ := hn.exists_decision hs hdecision
    rw [← hhandle]
    exact exists_laysOut_of_returns_policyOf hn hm hkind hhandle.symm hcombined hrule hpolicy
  refine ⟨fun p hp => ?_, fun s' hs' => ?_⟩
  · obtain ⟨_, -, hlaid⟩ := exists_left_of_mem hlaid hp
    exact hlaid.1
  · obtain rfl : s' = s := Except.ok.inj (hs'.symm.trans hs)
    rw [← StepM.decision_of_returns_solveDecisions hsolve, List.forall₂_map_left_iff]
    exact hlaid.imp fun _ _ h => h.2

theorem LaysOut.continues (h : n.LaysOut p f) (hm : n.Continues m) : m.LaysOut p f := by
  have hlayout := h.isLayout.continues hm
  obtain ⟨r, ps, -, rfl⟩ := hm.exists_update
  exact ⟨h.isFor, h.made, h.cells, hlayout⟩

/-- Every policy that is found lays out the rule of a decision. -/
theorem exists_laysOut_of_returns_solvePolicies (hn : n.Compiled) {ps : List (Policy α)}
    (h : Returns NetworkM.solvePolicies n ps m) : ∀ p ∈ ps, ∃ f, m.LaysOut p f := by
  have hcontinues : n.Continues m := Keeps.solvePolicies.of_returns h
  unfold NetworkM.solvePolicies NetworkM.clearPolicies at h
  obtain ⟨_, _, hclear, h⟩ := returns_bind.mp h
  obtain rfl := returns_modify.mp hclear
  obtain ⟨_, _, hget, h⟩ := returns_bind.mp h
  obtain ⟨rfl, rfl⟩ := returns_get.mp hget
  split at h
  · obtain ⟨rfl, -⟩ := returns_pure.mp h
    exact fun p hp => absurd hp List.not_mem_nil
  · obtain ⟨_, n₁, hsolve, h⟩ := returns_bind.mp h
    obtain ⟨_, n₂, hstore, h⟩ := returns_bind.mp h
    obtain rfl := returns_modify.mp hstore
    obtain ⟨rfl, rfl⟩ := returns_pure.mp h
    obtain ⟨r, hresolve, rfl⟩ := NetworkM.returns_solving.mp hsolve
    intro p hp
    obtain ⟨f, hf⟩ := (exists_laysOut_of_returns_resolveAll (hn.update rfl (Nat.le_refl _) [])
      hresolve).1 p hp
    exact ⟨f, hf.continues ⟨.absorb _ _, rfl⟩⟩

/-- Settled rules are policies of the decisions in their order. -/
theorem IsSettled.isFitting {ps : List (Policy α)} (hf : n.Fresh) (h : n.IsSettled ps) {s : Setting α}
    (hs : n.setting = .ok s) : List.Forall₂ n.IsFitting s.decisionOrder ps := by
  rcases h with ⟨hempty, rfl⟩ | ⟨-, k, r, h⟩
  · have hperm := (hf.compiled.decisionOrder hs).1
    rw [(Dependencies.isEmpty_iff _).mp hempty] at hperm
    rw [List.perm_nil.mp hperm]
    exact .nil
  · exact (exists_laysOut_of_returns_resolveAll hf.compiled h).2 s hs

end

end Network

end Influence
