import Influence.Proofs.Network.Resolution

/-! # The factors of a run

A run on a network works on the tables of the network and on those of its policies, and in its
registry the decisions with a policy count as chance variables (`IsWorking`).

A network is `Ready` if it has a policy for each decision.  `NetworkM.ensurePolicies` makes a
compiled network ready, and leaves a ready one as it is. -/

namespace Influence.Network

open scoped Exact

variable {n n' : Network ℚ} {s : Setting ℚ} {d : Variable} {p : Policy ℚ} {ds : List Variable}
  {ps : List (Policy ℚ)} {r : Registry}

/-! ### The tables of policies -/

theorem IsPolicy.update (hp : n.IsPolicy d p) (r : Registry) (ps : List (Policy ℚ)) :
    IsPolicy { n with registry := r, policies := ps } d p where
  named := hp.named
  isRule := ⟨hp.isRule.fits, hp.isRule.mem, hp.isRule.observed, hp.isRule.conditional⟩

theorem IsPolicy.exists_returns (hn : n.Compiled) (hp : n.IsPolicy d p)
    (hkind : r.kindOf d = .decision) (hd : d.id ∈ Axes.ids r.handles) :
    Returns (n.policyFactor p) r ⟨r.nextFactor, n.ruleTable p⟩ ((r.withChance d).after 1) := by
  obtain ⟨⟨m, hm, -, rfl, hname, hgiven⟩, hrule⟩ := hp
  obtain ⟨w, hrelabel⟩ := Registry.exists_returns_relabelAsChance hkind hd
  have hnode : n.node p.name = .ok m :=
    (find_eq_ok_iff hn.declared.names).mpr ⟨hm, hname.symm⟩
  have hparents : ∀ name ∈ p.given, ∃ m' ∈ n.nodes, m'.name = name := by
    intro name hmem
    rw [hgiven] at hmem
    obtain ⟨m', hm', hname', -⟩ := mem_givenOf hn.checked hmem
    exact ⟨m', hm', hname'⟩
  obtain ⟨ms, hms, hhandles⟩ := exists_nodes hparents
  have haxes : ms.map (·.handle) ++ [m.handle] = (n.ruleTable p).axes := by
    rw [hhandles, ruleTable, hname, hgiven, hn.handlesOf_family hm]
    rfl
  have hwellFormed := hrule.fits.wellFormed
  unfold policyFactor
  simp only [returns_bind, returns_except, returns_mapM_except]
  refine ⟨m, r, ⟨hnode, rfl⟩, w, _, hrelabel, ms, _, ⟨hms, rfl⟩, ?_⟩
  rw [Factor.returns_create_some, haxes]
  exact ⟨hwellFormed.nodup, hwellFormed.size_cells, rfl, rfl⟩

/-- The tables of the policies of some open decisions, which become chance variables. -/
theorem exists_returns_policyFactors (hn : n.Compiled) (hps : List.Forall₂ n.IsPolicy ds ps)
    (hnodup : (Axes.ids ds).Nodup) (hkinds : ∀ d ∈ ds, r.kindOf d = .decision)
    (hds : ∀ d ∈ ds, d.id ∈ Axes.ids r.handles) :
    ∃ fs r', Returns (ps.mapM n.policyFactor) r fs r' ∧
      fs.map (·.table) = ps.map n.ruleTable ∧ fs.Pairwise (·.id < ·.id) ∧
      (∀ f ∈ fs, r.nextFactor ≤ f.id ∧ f.id < r'.nextFactor) ∧ r.nextFactor ≤ r'.nextFactor ∧
      ∀ v, r'.kindOf v = if v.id ∈ Axes.ids ds then .chance else r.kindOf v := by
  induction hps generalizing r with
  | nil => exact ⟨[], r, returns_mapM_nil.mpr ⟨rfl, rfl⟩, rfl, .nil, by simp, Nat.le_refl _, by simp⟩
  | @cons d p ds ps hp hps ih =>
      obtain ⟨hfresh, hnodup⟩ := Axes.nodup_ids_cons.mp hnodup
      obtain ⟨hkind, hkinds⟩ := List.forall_mem_cons.mp hkinds
      obtain ⟨hd, hds⟩ := List.forall_mem_cons.mp hds
      have hfirst := hp.exists_returns hn hkind hd
      have hkindOf : ∀ v : Variable, ((r.withChance d).after 1).kindOf v =
          if v.id = d.id then .chance else r.kindOf v := Registry.kindOf_withChance hd
      obtain ⟨fs, r', hrest, htables, hascending, hnumbers, hle, hkinds'⟩ :=
        ih (r := (r.withChance d).after 1) hnodup
          (fun e he => by
            have hne : e.id ≠ d.id := fun hid => hfresh (hid ▸ Axes.mem_ids_of_mem he)
            rw [hkindOf, if_neg hne]
            exact hkinds e he)
          (fun e he => by
            rw [Registry.after_handles, Registry.ids_withChance]
            exact hds e he)
      simp only [Registry.after_nextFactor, Registry.withChance_nextFactor] at hnumbers hle
      refine ⟨_, r', returns_mapM_cons.mpr ⟨_, _, fs, hfirst, hrest, rfl⟩, ?_, ?_, ?_, ?_, ?_⟩
      · rw [List.map_cons, htables]
        rfl
      · refine List.pairwise_cons.mpr ⟨fun f hf => ?_, hascending⟩
        have := hnumbers f hf
        change r.nextFactor < f.id
        omega
      · intro f hf
        rcases List.mem_cons.mp hf with rfl | hf
        · change r.nextFactor ≤ r.nextFactor ∧ r.nextFactor < r'.nextFactor
          omega
        · have := hnumbers f hf
          omega
      · omega
      · intro v
        rw [hkinds', hkindOf]
        by_cases hv : v.id ∈ Axes.ids ds
        · simp [hv]
        · simp [hv]

/-! ### Networks with policies -/

/-- The network has a policy for each of its decisions. -/
structure Ready (n : Network ℚ) (s : Setting ℚ) : Prop where
  compiled : n.Compiled
  setting : n.setting = .ok s
  policies : List.Forall₂ n.IsPolicy s.decisionOrder n.policies

/-- The tables of the policies. -/
def rules (n : Network ℚ) : List (Table ℚ) := n.policies.map n.ruleTable

/-- The workspace in which a run on a network starts. -/
structure IsWorking (n : Network ℚ) (w : Workspace ℚ) : Prop where
  numbered : w.Numbered
  tables : w.tables = n.tables ++ n.rules
  eliminated : w.eliminated = []
  kindOf : ∀ v, w.registry.kindOf v =
    if v.id ∈ Axes.ids n.dependencies.decisions then .chance else n.registry.kindOf v

namespace Ready

variable (h : n.Ready s)

include h

theorem isRule : List.Forall₂ n.IsRule s.decisionOrder n.rules :=
  List.forall₂_map_right_iff.mpr (h.policies.imp fun _ _ h => h.isRule)

theorem update (hhandles : r.handles = n.registry.handles)
    (hnext : n.registry.nextFactor ≤ r.nextFactor) : Ready { n with registry := r } s where
  compiled := h.compiled.update hhandles hnext n.policies
  setting := h.setting
  policies := h.policies.imp fun _ _ hp => hp.update r n.policies

theorem returns_ensurePolicies : Returns NetworkM.ensurePolicies n ⟨⟩ n := by
  have hopen : (!n.dependencies.isEmpty && n.policies.isEmpty) = false := by
    by_cases hempty : n.dependencies.isEmpty
    · simp [hempty]
    · have hne : ¬n.policies.isEmpty := fun hnone => hempty <| by
        rw [← h.compiled.isEmpty_decisionOrder h.setting, List.isEmpty_iff_length_eq_zero,
          h.policies.length_eq, ← List.isEmpty_iff_length_eq_zero]
        exact hnone
      simp [hne]
  unfold NetworkM.ensurePolicies
  refine returns_bind.mpr ⟨n, n, returns_get.mpr ⟨rfl, rfl⟩, ?_⟩
  rw [if_neg (by simp [hopen])]
  exact returns_pure.mpr ⟨rfl, rfl⟩

/-- The run on a ready network starts with its tables and those of its policies. -/
theorem exists_returns_workingSet : ∃ fs r', Returns n.workingSet n.registry fs r' ∧
    n.registry.nextFactor ≤ r'.nextFactor ∧ n.IsWorking (.start r' fs) := by
  have hn := h.compiled
  obtain ⟨hperm, hnodup⟩ := hn.decisionOrder h.setting
  have hdecision : ∀ d ∈ s.decisionOrder, n.registry.kindOf d = .decision ∧
      d.id ∈ Axes.ids n.registry.handles := by
    intro d hd
    obtain ⟨m, hm, hkind, rfl⟩ := hn.exists_decision h.setting hd
    rw [hn.kindOf_handle hm, hn.declared.handles]
    exact ⟨hkind, Axes.mem_ids_of_mem (List.mem_map_of_mem hm)⟩
  obtain ⟨fs, r', hreturns, htables, hascending, hnumbers, hle, hkinds⟩ :=
    exists_returns_policyFactors hn h.policies hnodup (fun d hd => (hdecision d hd).1)
      fun d hd => (hdecision d hd).2
  have hpairwise : (n.factors ++ fs).Pairwise (·.id < ·.id) := by
    refine List.pairwise_append.mpr ⟨hn.ascending, hascending, fun f hf g hg => ?_⟩
    have := hn.numbered f hf
    have := hnumbers g hg
    omega
  refine ⟨n.factors ++ fs, r', ?_, hle, ?_⟩
  · unfold workingSet
    exact returns_bind.mpr ⟨fs, r', hreturns, returns_pure.mpr ⟨rfl, rfl⟩⟩
  constructor
  case numbered =>
    refine Workspace.numbered_start fun f hf => ?_
    rcases List.mem_append.mp hf with hf | hf
    · have := hn.numbered f hf
      omega
    · exact (hnumbers f hf).2
  case tables =>
    rw [rules, ← htables]
    exact (congrArg (List.map _) (Pool.ofList_of_pairwise hpairwise)).trans List.map_append
  case eliminated => rfl
  case kindOf =>
    intro v
    have hmem : v.id ∈ Axes.ids n.dependencies.decisions ↔ v.id ∈ Axes.ids s.decisionOrder :=
      (hperm.map _).mem_iff.symm
    simp only [hmem]
    exact hkinds v

end Ready

theorem Resolution.ready {rs : List (Resolved ℚ)} {w₀ : Workspace ℚ} (hn : n.Compiled)
    (h : n.Resolution s ps rs w₀) (hhandles : r.handles = n.registry.handles)
    (hnext : n.registry.nextFactor ≤ r.nextFactor) :
    Ready { n with registry := r, policies := ps } s where
  compiled := hn.update hhandles hnext ps
  setting := h.setting
  policies := (h.isPolicy hn).imp fun _ _ hp => hp.update r ps

/-- A compiled network becomes ready when its decisions can be resolved. -/
theorem ready_of_ensurePolicies (hn : n.Compiled) (hnone : n.policies = [])
    (h : Returns NetworkM.ensurePolicies n ⟨⟩ n') :
    (∃ s, n'.Ready s) ∧ ∃ r ps, r.handles = n.registry.handles ∧
      n.registry.nextFactor ≤ r.nextFactor ∧ n' = { n with registry := r, policies := ps } := by
  unfold NetworkM.ensurePolicies at h
  obtain ⟨_, _, hget, h⟩ := returns_bind.mp h
  obtain ⟨rfl, rfl⟩ := returns_get.mp hget
  split at h
  next =>
    obtain ⟨ps, _, hsolve, h⟩ := returns_bind.mp h
    obtain ⟨-, rfl⟩ := returns_pure.mp h
    obtain ⟨⟨s, rs, w₀, hres⟩, r, hhandles, hnext, rfl⟩ := exists_resolution hn hsolve
    exact ⟨⟨s, hres.ready hn hhandles hnext⟩, r, ps, hhandles, hnext, rfl⟩
  next hopen =>
    obtain ⟨-, rfl⟩ := returns_pure.mp h
    have hempty : n.dependencies.isEmpty := by simpa [hnone] using hopen
    obtain ⟨s, hs⟩ := exists_setting_of_isEmpty hempty
    have horder : s.decisionOrder = [] := by
      rw [← List.isEmpty_iff]
      exact (hn.isEmpty_decisionOrder hs).mpr hempty
    refine ⟨⟨s, hn, hs, ?_⟩, n.registry, n.policies, rfl, Nat.le_refl _, rfl⟩
    rw [horder, hnone]
    exact .nil

end Influence.Network
