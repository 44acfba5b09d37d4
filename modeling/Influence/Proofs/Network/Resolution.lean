import Influence.Proofs.Network.Policy

/-! # How a network resolves its decisions

`NetworkM.solvePolicies` resolves the decisions of a network from the last to the first.
`Resolution` records what such a run did (`exists_resolution`):

* Each policy stands for a rule of its decision (`Resolution.isPolicy`).
* When a decision is resolved, the pool holds the tables of the chance variables, one table of the
  utility and the rules of the later decisions (`Resolution.exists_step`). -/

namespace Influence

open scoped Exact

/-! ### Runs -/

namespace NetworkM

variable {α β : Type} {n n' : Network α} {b : β}

theorem returns_onRegistry {x : RegistryM β} :
    Returns (NetworkM.onRegistry x : NetworkM α β) n b n' ↔
      ∃ r, Returns x n.registry b r ∧ n' = { n with registry := r } := by
  change (((runFrom x n.registry).1, { n with registry := (runFrom x n.registry).2 }) :
    Except Error β × Network α) = (.ok b, n') ↔ _
  unfold Returns
  rcases runFrom x n.registry with ⟨result, r⟩
  simp only [Prod.mk.injEq]
  constructor
  · rintro ⟨rfl, rfl⟩
    exact ⟨r, ⟨rfl, rfl⟩, rfl⟩
  · rintro ⟨_, ⟨rfl, rfl⟩, rfl⟩
    exact ⟨rfl, rfl⟩

theorem returns_solving {x : RegistryM β} :
    Returns (solving x : NetworkM α β) n b n' ↔
      ∃ r, Returns x n.registry b r ∧ n' = { n with registry := n.registry.absorb r } := by
  change (match runFrom x n.registry with
    | (.ok result, registry) => (.ok result, { n with registry := n.registry.absorb registry })
    | (.error e, _) => (.error e, n) : Except Error β × Network α) = (.ok b, n') ↔ _
  unfold Returns
  rcases runFrom x n.registry with ⟨_ | result, r⟩
  · simp
  · simp only [Prod.mk.injEq, Except.ok.injEq]
    constructor
    · rintro ⟨rfl, rfl⟩
      exact ⟨r, ⟨rfl, rfl⟩, rfl⟩
    · rintro ⟨_, ⟨rfl, rfl⟩, rfl⟩
      exact ⟨rfl, rfl⟩

end NetworkM

theorem Setting.returns_run {α β : Type} {factors : List (Factor α)} {x : StepM α β}
    {r r' : Registry} {b : β} :
    Returns (Setting.run factors x) r b r' ↔
      ∃ w, Returns x (.start r factors) b w ∧ r' = w.registry := by
  change (((runFrom x (.start r factors)).1, (runFrom x (.start r factors)).2.registry) :
    Except Error β × Registry) = (.ok b, r') ↔ _
  unfold Returns
  rcases runFrom x (.start r factors) with ⟨result, w⟩
  simp only [Prod.mk.injEq]
  constructor
  · rintro ⟨rfl, rfl⟩
    exact ⟨w, ⟨rfl, rfl⟩, rfl⟩
  · rintro ⟨_, ⟨rfl, rfl⟩, rfl⟩
    exact ⟨rfl, rfl⟩

namespace Network

/-! ### The decisions of a network -/

section

variable {α : Type} {n : Network α} {s : Setting α} {d : Variable} {earlier later : List Variable}

/-- Without decisions there is nothing to order. -/
theorem exists_setting_of_isEmpty (h : n.dependencies.isEmpty) : ∃ s, n.setting = .ok s := by
  have hentries : n.dependencies = {} := by
    rw [Dependencies.isEmpty, List.isEmpty_iff] at h
    exact congrArg Dependencies.mk h
  unfold setting
  rw [hentries]
  exact ⟨_, rfl⟩

namespace Compiled

variable [Build] (hn : n.Compiled)

include hn

theorem isEmpty_decisionOrder (h : n.setting = .ok s) :
    s.decisionOrder.isEmpty ↔ n.dependencies.isEmpty := by
  obtain ⟨horder, -, -⟩ := setting_eq_ok h
  have hperm := (Dependencies.decisionOrder_sound hn.nodup_decisions horder).1
  rw [Dependencies.isEmpty_iff, List.isEmpty_iff]
  constructor
  · intro h
    rw [h] at hperm
    exact hperm.nil_eq.symm
  · intro h
    rw [h] at hperm
    exact hperm.eq_nil

/-- The order of the decisions of a network lists each once. -/
theorem decisionOrder (h : n.setting = .ok s) :
    s.decisionOrder.Perm n.dependencies.decisions ∧ (Axes.ids s.decisionOrder).Nodup := by
  obtain ⟨horder, -, -⟩ := setting_eq_ok h
  have hperm := (Dependencies.decisionOrder_sound hn.nodup_decisions horder).1
  exact ⟨hperm, (hperm.map _).nodup_iff.mpr hn.nodup_decisions⟩

theorem exists_decision (h : n.setting = .ok s) {v : Variable}
    (hv : v ∈ s.decisionOrder) : ∃ m ∈ n.nodes, m.kind = .decision ∧ m.handle = v :=
  hn.mem_decisions.mp ((hn.decisionOrder h).1.subset hv)

theorem decisionOrder_subset_handles (h : n.setting = .ok s) : s.decisionOrder ⊆ n.handles := by
  intro d hd
  obtain ⟨m, hm, -, rfl⟩ := hn.exists_decision h hd
  exact mem_handles.mpr ⟨m, hm, rfl⟩

/-- No later decision is observed. -/
theorem later_notMem_parents (h : n.setting = .ok s)
    (hsplit : s.decisionOrder = earlier ++ d :: later) {id : VariableId}
    (hid : id ∈ Axes.ids later) : id ∉ Axes.ids (n.dependencies.parents d) := by
  intro hparent
  obtain ⟨hperm, hnodup⟩ := hn.decisionOrder h
  obtain ⟨v, hv, rfl⟩ := Axes.mem_ids.mp hparent
  obtain ⟨u, hu, hid'⟩ := Axes.mem_ids.mp hid
  have hdecision : v.id ∈ Axes.ids n.dependencies.decisions := by
    rw [← hid']
    exact Axes.mem_ids_of_mem (hperm.subset (by simp [hsplit, hu]))
  have hearlier := (Dependencies.decisionOrder_sound hn.nodup_decisions (setting_eq_ok h).1).2
    earlier d later hsplit v hv hdecision
  rw [hsplit, Axes.ids_append, List.nodup_append] at hnodup
  exact hnodup.2.2 v.id hearlier v.id (by simp [hid]) rfl

theorem arity_utility :
    ∀ t ∈ n.tables, ∀ v ∈ t.axes, n.registry.kindOf v = .utility → v.arity = 1 := by
  intro t ht v hv hkind
  rw [← hn.map_snd_tabled] at ht
  obtain ⟨p, hp, rfl⟩ := List.mem_map.mp ht
  rw [(hn.table_of_tabled hp).1] at hv
  obtain ⟨m, hm, rfl⟩ := mem_handles.mp (by
    rcases List.mem_append.mp hv with hv | hv
    · exact hn.parentHandles_subset _ hv
    · rw [List.mem_singleton.mp hv]
      exact mem_handles.mpr ⟨p.1, (hn.node_of_tabled hp).1, rfl⟩)
  rw [hn.kindOf_handle hm] at hkind
  exact hn.declared.arity_utility m hm hkind

theorem mem_handles_of_table {t : Table α} (ht : t ∈ n.tables)
    {v : Variable} (hv : v ∈ t.axes) : v ∈ n.handles := by
  rw [← hn.map_snd_tabled] at ht
  obtain ⟨p, hp, rfl⟩ := List.mem_map.mp ht
  rw [(hn.table_of_tabled hp).1] at hv
  exact hn.family_subset (hn.node_of_tabled hp).1 hv

end Compiled

end

/-! ### The record of a run -/

variable {n n' : Network ℚ} {s : Setting ℚ} {ps : List (Policy ℚ)} {rs : List (Resolved ℚ)}
  {w₀ : Workspace ℚ}

/-- What a run did that resolved the decisions of a network: `w₀` is the workspace in which the
utilities have been summed. -/
structure Resolution (n : Network ℚ) (s : Setting ℚ) (ps : List (Policy ℚ)) (rs : List (Resolved ℚ))
    (w₀ : Workspace ℚ) : Prop where
  setting : n.setting = .ok s
  summed : Returns (StepM.sumUtilities s) (.start n.registry n.factors) ⟨⟩ w₀
  resolved : ∃ w₁, Returns (s.decisionOrder.reverse.mapM (StepM.resolve s)) w₀ rs.reverse w₁
  policies : List.Forall₂ (fun res p => ∃ r r', Returns (n.policyOf res) r p r') rs ps

namespace Compiled

variable (hn : n.Compiled)

include hn

/-- The utilities can be summed in every compiled network. -/
theorem returns_sumUtilities (s : Setting ℚ) : ∃ w₀,
    Returns (StepM.sumUtilities s) (.start n.registry n.factors) ⟨⟩ w₀ ∧
      (Workspace.start n.registry n.factors).Reaches w₀
        (Tables.sumUtilities s n.registry n.tables) ∧
      ∀ id, id ∈ w₀.eliminated ↔ id ∈ (Tables.summedUtilities s n.registry n.tables).ids := by
  have hnodup : ∀ t ∈ (Workspace.start n.registry n.factors).tables, t.axes.ids.Nodup := by
    rw [hn.tables_start]
    exact fun t ht => (hn.fits_tables t ht).wellFormed.nodup
  obtain ⟨_, w₀, hreturns, hreach, helim⟩ :=
    (StepM.leads_sumUtilities (Workspace.numbered_start hn.numbered) s hnodup).exists_returns
  rw [hn.tables_start] at hreach helim
  exact ⟨w₀, hreturns, hreach, fun id => (helim id).trans (or_iff_right List.not_mem_nil)⟩

end Compiled

/-- A run that returns the policies of a network has resolved its decisions. -/
theorem exists_resolution (hn : n.Compiled) (h : Returns NetworkM.solvePolicies n ps n') :
    (∃ s rs w₀, n.Resolution s ps rs w₀) ∧
      ∃ r, r.handles = n.registry.handles ∧ n.registry.nextFactor ≤ r.nextFactor ∧
        n' = { n with registry := r, policies := ps } := by
  unfold NetworkM.solvePolicies NetworkM.clearPolicies at h
  simp only [returns_bind, returns_modify, returns_get] at h
  obtain ⟨_, _, rfl, _, _, ⟨rfl, rfl⟩, h⟩ := h
  split at h
  next hempty =>
    obtain ⟨rfl, rfl⟩ := returns_pure.mp h
    obtain ⟨s, hs⟩ := exists_setting_of_isEmpty hempty
    obtain ⟨w₀, hsummed, -⟩ := hn.returns_sumUtilities s
    have hnone : s.decisionOrder = [] := by
      rw [← List.isEmpty_iff]
      exact (hn.isEmpty_decisionOrder hs).mpr hempty
    refine ⟨⟨s, [], w₀, hs, hsummed, ⟨w₀, ?_⟩, .nil⟩, n.registry, rfl, Nat.le_refl _, rfl⟩
    rw [hnone]
    exact returns_mapM_nil.mpr ⟨rfl, rfl⟩
  next hempty =>
    simp only [returns_bind, NetworkM.returns_solving, returns_modify, returns_pure] at h
    obtain ⟨ps, _, ⟨r, hresolve, rfl⟩, _, _, rfl, rfl, rfl⟩ := h
    unfold resolveAll workingSet at hresolve
    simp only [returns_bind, returns_except, returns_pure, returns_mapM_nil,
      Setting.returns_run] at hresolve
    obtain ⟨_, _, ⟨_, _, ⟨rfl, rfl⟩, rfl, rfl⟩, s, _, ⟨hs, rfl⟩, rs, _, ⟨w₁, hsolve, rfl⟩, hpolicies⟩ :=
      hresolve
    unfold StepM.solveDecisions at hsolve
    rw [if_neg (by rwa [hn.isEmpty_decisionOrder hs])] at hsolve
    simp only [returns_bind, returns_pure] at hsolve
    obtain ⟨_, w₀, hsummed, rs', w₂, hresolved, rfl, rfl⟩ := hsolve
    rw [List.append_nil] at hsummed
    refine ⟨⟨s, rs'.reverse, w₀, hs, hsummed, ⟨w₂, ?_⟩, forall₂_of_returns_mapM hpolicies⟩,
      n.registry.absorb r, rfl, Nat.le_max_left _ _, rfl⟩
    rw [List.reverse_reverse]
    exact hresolved

/-- The workspace after the utilities have been summed. -/
structure Summed (n : Network ℚ) (w₀ : Workspace ℚ) : Prop where
  numbered : w₀.Numbered
  kindOf : w₀.registry.kindOf = n.registry.kindOf
  fits : ∀ t ∈ w₀.tables, t.Fits n.sizes
  eliminated : ∀ id ∈ w₀.eliminated, ∃ m ∈ n.nodes, m.kind = .utility ∧ m.handle.id = id
  tables : ∃ us, w₀.tables = n.chances.map (·.2) ++ us ∧
    (∀ id ∈ (Tables.axes us).ids, id ∈ n.states.ids) ∧
    ((∃ m ∈ n.nodes, m.kind = .utility) → ∃ u, us = [u] ∧ u.Fits n.sizes ∧
      ∀ x : Assignment, x.Valid n.sizes → u.valueAt x = n.utility x)

theorem Resolution.isSummed (hn : n.Compiled) (h : n.Resolution s ps rs w₀) : n.Summed w₀ := by
  obtain ⟨_, hweights⟩ := (setting_eq_ok h.setting).2
  obtain ⟨w₀', hsummed, hreach, helim⟩ := hn.returns_sumUtilities s
  obtain ⟨-, rfl⟩ := h.summed.unique hsummed
  have hone := hn.arity_utility
  constructor
  case numbered => exact hreach.numbered
  case kindOf => exact hreach.kindOf_eq
  case fits =>
    rw [hreach.tables_eq]
    exact Tables.fits_sumUtilities s n.registry hn.fits_tables
  case eliminated =>
    intro id hid
    obtain ⟨v, hv, rfl⟩ := Axes.mem_ids.mp ((helim id).mp hid)
    obtain ⟨hkind, t, ht, hv⟩ := Tables.mem_summedUtilities hv
    obtain ⟨m, hm, rfl⟩ := mem_handles.mp (hn.mem_handles_of_table ht hv)
    exact ⟨m, hm, by rwa [hn.kindOf_handle hm] at hkind, rfl⟩
  case tables =>
    have hfits := Tables.fits_summed s n.registry hn.fits_tables hone
    refine ⟨_, by rw [hreach.tables_eq, Tables.sumUtilities, hn.filter_not_isUtility], ?_, ?_⟩
    · intro id hid
      obtain ⟨t, ht, hid⟩ := Tables.mem_ids_axes.mp hid
      split at ht
      · rw [List.mem_singleton.mp ht] at hid
        obtain ⟨⟨u, hu, hutility, hid⟩, hleft⟩ := (hfits.2.1 id).mp hid
        obtain ⟨w, hw, hwid⟩ := Axes.mem_ids.mp
          ((Tables.mem_ids_utilitySum s n.registry).mpr ⟨u, hu, hutility, hid⟩)
        obtain ⟨v, hv, rfl⟩ := Axes.mem_ids.mp hid
        obtain ⟨m, hm, rfl⟩ := mem_handles.mp (hn.mem_handles_of_table hu hv)
        refine Axes.mem_ids_of_mem (mem_states.mpr ⟨m, hm, fun hkind => hleft ?_, rfl⟩)
        rw [← hwid]
        refine Axes.mem_ids_of_mem (List.mem_filter.mpr ⟨hw, ?_⟩)
        rw [hn.kindOf_of_id hm hwid, hkind]
        rfl
      · cases ht
    · intro hutility
      rw [if_pos (List.any_eq_true.mpr (hn.exists_isUtility hutility))]
      refine ⟨_, rfl, hfits.1, fun x hx => ?_⟩
      rw [hfits.2.2 x hx, hn.utilityAt_tables hweights]

/-- Policies stand for rules of their decisions, with the values that the run found. -/
theorem Resolution.rules (hn : n.Compiled) (h : n.Resolution s ps rs w₀) :
    rs.map (·.decision) = s.decisionOrder ∧
      List.Forall₂ (fun res p => n.IsRule res.decision res.rule.table ∧
        n.IsPolicy res.decision p ∧ ∀ x : Assignment, x.Valid n.sizes →
          (n.ruleTable p).valueAt x = res.rule.table.valueAt x) rs ps := by
  have hs := h.isSummed hn
  obtain ⟨horder, -, -⟩ := setting_eq_ok h.setting
  have hperm := (Dependencies.decisionOrder_sound hn.nodup_decisions horder).1
  have hsized : Axes.Sized n.sizes s.decisionOrder.reverse := fun d hd =>
    hn.sized_decisions d (hperm.mem_iff.mp (List.mem_reverse.mp hd))
  obtain ⟨w₁, hresolved⟩ := h.resolved
  obtain ⟨hall, -⟩ := StepM.returns_resolveAll hs.numbered hs.fits hsized hresolved
  rw [List.forall₂_reverse_iff] at hall
  have hdecisions : rs.map (·.decision) = s.decisionOrder := by
    rw [← List.forall₂_eq_eq_eq]
    exact List.forall₂_map_left_iff.mpr (hall.flip.imp fun _ _ h => h.1)
  refine ⟨hdecisions, List.forall₂_iff_zip.mpr ⟨h.policies.length_eq, fun {res p} hpair => ?_⟩⟩
  obtain ⟨r, r', hpolicy⟩ := List.forall₂_zip h.policies hpair
  have hres := (List.of_mem_zip hpair).1
  obtain ⟨d, -, rfl, w, w₂, hrule⟩ := exists_left_of_mem hall hres
  have hd : res.decision ∈ n.dependencies.decisions := by
    rw [← hperm.mem_iff, ← hdecisions]
    exact List.mem_map_of_mem hres
  have hsize := hn.sized_decisions _ hd
  obtain ⟨m, hm, hkind, hdecision⟩ := hn.mem_decisions.mp hd
  obtain ⟨hname, hgiven, hsub, hfits, hvalue⟩ :=
    hn.returns_policyOf hm hdecision.symm hrule.fits hpolicy
  have hobserved : ∀ id ∈ Axes.ids (n.parentHandles m ++ [m.handle]),
      id ∈ Axes.ids (n.dependencies.parents res.decision) ∨ id = res.decision.id := by
    intro id hid
    rw [← hdecision, hn.parents_handle hm hkind]
    simpa using hid
  have haxes : (n.ruleTable p).axes = n.parentHandles m ++ [m.handle] := by
    rw [ruleTable, hname, hgiven]
    exact hn.handlesOf_family hm
  refine ⟨⟨hrule.fits, hrule.mem, fun id hid => hobserved id (hsub hid),
    hrule.best.toIsConditional⟩, ⟨⟨m, hm, hkind, hdecision, hname, hgiven⟩, hfits, ?_,
      fun id hid => ?_, hrule.best.toIsConditional.congr hsize hvalue⟩, hvalue⟩
  · rw [haxes, ← hdecision]
    simp
  · rw [haxes] at hid
    exact hobserved id hid

theorem Resolution.isPolicy (hn : n.Compiled) (h : n.Resolution s ps rs w₀) :
    List.Forall₂ n.IsPolicy s.decisionOrder ps := by
  obtain ⟨hdecisions, hrules⟩ := h.rules hn
  rw [← hdecisions]
  exact List.forall₂_map_left_iff.mpr (hrules.imp fun _ _ h => h.2.1)

theorem Resolution.isRule (hn : n.Compiled) (h : n.Resolution s ps rs w₀) :
    List.Forall₂ n.IsRule s.decisionOrder (ps.map n.ruleTable) :=
  List.forall₂_map_right_iff.mpr ((h.isPolicy hn).imp fun _ _ h => h.isRule)

/-! ### One decision of a run -/

/-- The workspace `w` in which a decision is resolved, with the rule found there.  The pool holds the
rules of the later decisions, whose policies are `laterPs`. -/
structure Step (n : Network ℚ) (s : Setting ℚ) (d : Variable) (later : List Variable) (p : Policy ℚ)
    (laterPs : List (Policy ℚ)) (w₀ w w₁ : Workspace ℚ) (rule : Factor ℚ) : Prop where
  reached : ∃ rs, Returns (later.reverse.mapM (StepM.resolve s)) w₀ rs w
  isRuleFor : StepM.IsRuleFor n.sizes s d w w₁ rule
  isRule : n.IsRule d (n.ruleTable p)
  value : ∀ x : Assignment, x.Valid n.sizes → (n.ruleTable p).valueAt x = rule.table.valueAt x
  rules : ∃ rules, w.tables = w₀.tables ++ rules ∧ List.Forall₂ n.IsRule later.reverse rules ∧
    ∀ x : Assignment, x.Valid n.sizes →
      Tables.weight rules x = Tables.weight (laterPs.map n.ruleTable) x
  kindOf : ∀ v, w.registry.kindOf v =
    if v.id ∈ Axes.ids later then .chance else n.registry.kindOf v
  eliminated : w.eliminated = w₀.eliminated

variable {d : Variable} {earlier later : List Variable} {p : Policy ℚ} {laterPs : List (Policy ℚ)}
  {w w₁ : Workspace ℚ} {rule : Factor ℚ}

theorem Resolution.exists_step (hn : n.Compiled) (h : n.Resolution s ps rs w₀)
    (hsplit : s.decisionOrder = earlier ++ d :: later) :
    ∃ earlierPs p laterPs w w₁ rule, ps = earlierPs ++ p :: laterPs ∧
      earlierPs.length = earlier.length ∧ n.Step s d later p laterPs w₀ w w₁ rule := by
  have hs := h.isSummed hn
  obtain ⟨horder, -, -⟩ := setting_eq_ok h.setting
  have hperm := (Dependencies.decisionOrder_sound hn.nodup_decisions horder).1
  have hsized : ∀ v ∈ s.decisionOrder, v.arity = n.sizes v.id := fun v hv =>
    hn.sized_decisions v (hperm.mem_iff.mp hv)
  obtain ⟨hdecisions, hrules⟩ := h.rules hn
  rw [hsplit] at hdecisions hsized
  obtain ⟨rsE, rest, rfl, hearlier, hrest⟩ := List.map_eq_append_iff.mp hdecisions
  obtain ⟨res, rsL, rfl, rfl, hlater⟩ := List.map_eq_cons_iff.mp hrest
  obtain ⟨psE, psRest, rfl, hE, hRest⟩ := exists_append_of_forall₂ hrules
  obtain ⟨p, psL, hp, hL, rfl⟩ := List.forall₂_cons_left_iff.mp hRest
  obtain ⟨w', hresolved⟩ := h.resolved
  have hreverse : s.decisionOrder.reverse = later.reverse ++ res.decision :: earlier.reverse := by
    rw [hsplit]
    simp
  rw [hreverse] at hresolved
  obtain ⟨rs₁, w, rs₂, hfirst, hsecond, heq⟩ := returns_mapM_append.mp hresolved
  obtain ⟨hall, hw, hts, htables, helim, hkinds⟩ := StepM.returns_resolveAll hs.numbered hs.fits
    (fun v hv => hsized v (by simp [List.mem_reverse.mp hv])) hfirst
  obtain ⟨hrs₁, hrs₂⟩ : rsL.reverse = rs₁ ∧ res :: rsE.reverse = rs₂ := by
    refine List.append_inj (by simpa using heq) ?_
    rw [← hall.length_eq, ← hlater]
    simp
  obtain ⟨_, w'', _, hresolve, -, hcons⟩ := returns_mapM_cons.mp hsecond
  obtain ⟨rfl, -⟩ := List.cons.inj (hrs₂.trans hcons)
  obtain ⟨-, ⟨w₁, hrule⟩, -⟩ := StepM.returns_resolve hw hts (hsized _ (by simp)) hresolve
  refine ⟨psE, p, psL, w, w₁, res.rule, rfl, ?_, ?_⟩
  · rw [← hE.length_eq, ← hearlier, List.length_map]
  constructor
  case reached => exact ⟨rs₁, hfirst⟩
  case isRuleFor => exact hrule
  case isRule => exact hp.2.1.isRule
  case value => exact hp.2.2
  case rules =>
    refine ⟨_, htables, ?_, fun x hx => ?_⟩
    · rw [← hrs₁, ← hlater, ← List.map_reverse, List.forall₂_map_left_iff,
        List.forall₂_map_right_iff, List.forall₂_same]
      intro res' hres'
      obtain ⟨p', -, hp'⟩ := exists_right_of_mem hL (List.mem_reverse.mp hres')
      exact hp'.1
    · rw [← hrs₁, List.map_reverse, Tables.weight_perm (List.reverse_perm _)]
      refine Tables.weight_forall₂ ?_
      rw [List.forall₂_map_left_iff, List.forall₂_map_right_iff]
      exact hL.imp fun _ _ h => (h.2.2 x hx).symm
  case kindOf =>
    intro v
    rw [hkinds, hs.kindOf]
    simp [Axes.ids]
  case eliminated => exact helim

theorem Step.fits (hn : n.Compiled) (h : n.Resolution s ps rs w₀)
    (hstep : n.Step s d later p laterPs w₀ w w₁ rule) : ∀ t ∈ w.tables, t.Fits n.sizes := by
  obtain ⟨rules, htables, hrules, -⟩ := hstep.rules
  rw [htables]
  intro t ht
  rcases List.mem_append.mp ht with ht | ht
  · exact (h.isSummed hn).fits t ht
  · obtain ⟨_, -, hrule⟩ := exists_left_of_mem hrules ht
    exact hrule.fits

theorem Step.required_eq (hn : n.Compiled) (h : n.Resolution s ps rs w₀)
    (hsplit : s.decisionOrder = earlier ++ d :: later)
    (hstep : n.Step s d later p laterPs w₀ w w₁ rule) :
    w.required s true = n.dependencies.parents d := by
  obtain ⟨-, hnodup⟩ := hn.decisionOrder h.setting
  have hkind : ∀ v ∈ s.decisionOrder, n.registry.kindOf v = .decision := by
    intro v hv
    obtain ⟨m, hm, hkind, rfl⟩ := hn.exists_decision h.setting hv
    rw [hn.kindOf_handle hm, hkind]
  rw [hsplit] at hnodup hkind
  have hopen : ∀ v ∈ earlier ++ [d], w.registry.kindOf v = .decision := by
    intro v hv
    have hnodup' : (Axes.ids (earlier ++ [d]) ++ Axes.ids later).Nodup := by
      simpa [Axes.ids] using hnodup
    have hnot : v.id ∉ Axes.ids later := fun hid =>
      (List.nodup_append.mp hnodup').2.2 v.id (Axes.mem_ids_of_mem hv) v.id hid rfl
    rw [hstep.kindOf, if_neg hnot]
    refine hkind v ?_
    rcases List.mem_append.mp hv with hv | hv
    · simp [hv]
    · simp [List.mem_singleton.mp hv]
  have hclosed : ∀ v ∈ later, w.registry.kindOf v = .chance := fun v hv => by
    rw [hstep.kindOf, if_pos (Axes.mem_ids_of_mem hv)]
  have hundecided : w.undecided s = earlier ++ [d] := by
    rw [Workspace.undecided, hsplit, List.append_cons, List.filter_append,
      List.filter_eq_self.mpr fun v hv => by simp [hopen v hv],
      List.filter_eq_nil_iff.mpr fun v hv => by simp [hclosed v hv], List.append_nil]
  rw [Workspace.required, hundecided, if_pos rfl, List.getLast?_concat, Option.toList_some,
    List.flatMap_singleton, (setting_eq_ok h.setting).2.1]

/-- The pool mentions nothing but chance variables and decisions. -/
theorem Step.exists_node (hn : n.Compiled) (h : n.Resolution s ps rs w₀)
    (hsplit : s.decisionOrder = earlier ++ d :: later)
    (hstep : n.Step s d later p laterPs w₀ w w₁ rule) {id : VariableId}
    (hid : id ∈ (Tables.axes w.tables).ids) :
    ∃ m ∈ n.nodes, m.kind ≠ .utility ∧ m.handle.id = id := by
  obtain ⟨us, hus, haxes, -⟩ := (h.isSummed hn).tables
  obtain ⟨rules, htables, hrules, -⟩ := hstep.rules
  have hstate : id ∈ n.states.ids := by
    obtain ⟨t, ht, hid⟩ := Tables.mem_ids_axes.mp hid
    rw [htables, hus] at ht
    rcases List.mem_append.mp ht with ht | ht
    · rcases List.mem_append.mp ht with ht | ht
      · obtain ⟨q, hq, rfl⟩ := List.mem_map.mp ht
        obtain ⟨hq, hkind⟩ := List.mem_filter.mp hq
        rw [(hn.table_of_tabled hq).1] at hid
        rw [decide_eq_true_eq] at hkind
        exact List.map_subset _
          (hn.family_subset_states (hn.node_of_tabled hq).1 (by simp [hkind])) hid
      · exact haxes id (Tables.mem_ids_axes.mpr ⟨t, ht, hid⟩)
    · obtain ⟨d', hd', hrule⟩ := exists_left_of_mem hrules ht
      have hmem : d' ∈ s.decisionOrder := by simp [hsplit, List.mem_reverse.mp hd']
      exact hn.ids_rule_subset ((hn.decisionOrder h.setting).1.subset hmem) hrule hid
  obtain ⟨v, hv, rfl⟩ := Axes.mem_ids.mp hstate
  obtain ⟨m, hm, hkind, rfl⟩ := mem_states.mp hv
  exact ⟨m, hm, hkind, rfl⟩

/-- Every chance variable and every later decision occurs in the pool and has not been summed
out. -/
theorem Step.mem_axes (hn : n.Compiled) (h : n.Resolution s ps rs w₀)
    (hsplit : s.decisionOrder = earlier ++ d :: later)
    (hstep : n.Step s d later p laterPs w₀ w w₁ rule) {m : Node} (hm : m ∈ n.nodes)
    (hkind : m.kind = .chance ∨ m.handle ∈ later) :
    m.handle.id ∈ (Tables.axes w.tables).ids ∧ m.handle.id ∉ w.eliminated := by
  obtain ⟨us, hus, -⟩ := (h.isSummed hn).tables
  obtain ⟨rules, htables, hrules, -⟩ := hstep.rules
  constructor
  · rw [Tables.mem_ids_axes, htables, hus]
    rcases hkind with hkind | hlater
    · obtain ⟨t, ht⟩ := hn.exists_tabled hm (by simp [hkind])
      have hmem : t ∈ n.chances.map (·.2) :=
        List.mem_map.mpr ⟨(m, t), List.mem_filter.mpr ⟨ht, by simpa using hkind⟩, rfl⟩
      refine ⟨t, by simp [hmem], ?_⟩
      rw [(hn.table_of_tabled ht).1]
      simp
    · obtain ⟨t, ht, hrule⟩ := exists_right_of_mem hrules (List.mem_reverse.mpr hlater)
      exact ⟨t, by simp [ht], hrule.mem⟩
  · intro hid
    rw [hstep.eliminated] at hid
    obtain ⟨m', hm', hkind', hid⟩ := (h.isSummed hn).eliminated _ hid
    rw [hn.eq_of_id hm' hm hid] at hkind'
    rcases hkind with hkind | hlater
    · rw [hkind] at hkind'
      cases hkind'
    · obtain ⟨m'', hm'', hkind'', heq⟩ := hn.exists_decision h.setting (v := m.handle)
        (by simp [hsplit, hlater])
      rw [hn.eq_of_id hm'' hm (congrArg (·.id) heq), hkind'] at hkind''
      cases hkind''

theorem Compiled.mem_ids_unseen {id : VariableId} : id ∈ (n.unseen d later).ids ↔
    (∃ m ∈ n.nodes, m.kind = .chance ∧ m.handle.id = id ∧
      id ∉ Axes.ids (n.dependencies.parents d)) ∨ id ∈ Axes.ids later := by
  rw [unseen, Axes.ids_append, List.mem_append, Axes.mem_ids]
  refine or_congr_left ?_
  simp only [List.mem_filter, mem_states, Bool.and_eq_true, decide_eq_true_eq,
    Bool.not_eq_true', Axes.mentions_eq_false_iff]
  constructor
  · rintro ⟨v, ⟨⟨m, hm, -, rfl⟩, hkind, hfree⟩, rfl⟩
    exact ⟨m, hm, hkind, rfl, hfree⟩
  · rintro ⟨m, hm, hkind, rfl, hfree⟩
    exact ⟨m.handle, ⟨⟨m, hm, by simp [hkind], rfl⟩, hkind, hfree⟩, rfl⟩

theorem Compiled.nodup_unseen (hn : n.Compiled) (h : n.setting = .ok s)
    (hsplit : s.decisionOrder = earlier ++ d :: later) : (n.unseen d later).ids.Nodup := by
  obtain ⟨-, hnodup⟩ := hn.decisionOrder h
  have hlater : (Axes.ids later).Nodup := by
    refine hnodup.sublist (List.Sublist.map _ ?_)
    rw [hsplit]
    exact (List.sublist_cons_self d later).trans (List.sublist_append_right earlier _)
  rw [unseen, Axes.ids_append, List.nodup_append]
  refine ⟨Axes.nodup_ids_filter hn.nodup_states _, hlater, ?_⟩
  rintro id hid _ hid' rfl
  obtain ⟨v, hv, rfl⟩ := Axes.mem_ids.mp hid
  obtain ⟨u, hu, huv⟩ := Axes.mem_ids.mp hid'
  obtain ⟨hv, hkind⟩ := List.mem_filter.mp hv
  obtain ⟨m, hm, -, rfl⟩ := mem_states.mp hv
  obtain ⟨m', hm', hkind', rfl⟩ := hn.exists_decision h (v := u) (by simp [hsplit, hu])
  rw [hn.eq_of_id hm' hm huv] at hkind'
  simp only [Bool.and_eq_true, decide_eq_true_eq] at hkind
  rw [← Node.kind, hkind'] at hkind
  exact absurd hkind.1 (by decide)

/-- When a decision is resolved, everything that it does not see is hidden. -/
theorem Step.perm_hidden (hn : n.Compiled) (h : n.Resolution s ps rs w₀)
    (hsplit : s.decisionOrder = earlier ++ d :: later)
    (hstep : n.Step s d later p laterPs w₀ w w₁ rule) :
    (Axes.ids (w.hidden s [] [] true)).Perm (n.unseen d later).ids := by
  refine (List.perm_ext_iff_of_nodup Workspace.nodup_hidden
    (hn.nodup_unseen h.setting hsplit)).mpr fun id => ?_
  -- a variable of the network is hidden if it occurs in the pool and is not observed
  have hhidden : ∀ m ∈ n.nodes, m.kind = .chance ∨ m.handle ∈ later →
      m.handle.id ∉ Axes.ids (n.dependencies.parents d) →
      m.handle.id ∈ Axes.ids (w.hidden s [] [] true) := by
    intro m hm hkind hfree
    obtain ⟨hmem, helim⟩ := hstep.mem_axes hn h hsplit hm hkind
    obtain ⟨v, hv, hid⟩ := Axes.mem_ids.mp (Axes.mem_ids_union.mpr (.inr hmem) :
      m.handle.id ∈ (Axes.union [] (Tables.axes w.tables)).ids)
    rw [← hid] at helim hfree ⊢
    refine Axes.mem_ids_of_mem (Workspace.mem_hidden.mpr ⟨hv, ?_, helim, by simp, by simp, ?_⟩)
    · rw [hstep.kindOf]
      split
      next => rfl
      next hnot =>
        rcases hkind with hkind | hlater
        · rw [hn.kindOf_of_id hm hid, hkind]
        · rw [hid] at hnot
          exact absurd (Axes.mem_ids_of_mem hlater) hnot
    · rwa [hstep.required_eq hn h hsplit]
  rw [Compiled.mem_ids_unseen]
  constructor
  · intro hid
    obtain ⟨v, hv, rfl⟩ := Axes.mem_ids.mp hid
    obtain ⟨hmem, hkind, -, -, -, hfree⟩ := Workspace.mem_hidden.mp hv
    rw [hstep.required_eq hn h hsplit] at hfree
    rw [hstep.kindOf] at hkind
    split at hkind
    next hlater => exact .inr hlater
    next =>
      have hmem := Axes.mem_ids_of_mem hmem
      simp only [Axes.mem_ids_union, Axes.ids_nil, List.not_mem_nil, false_or] at hmem
      obtain ⟨m, hm, -, hid⟩ := hstep.exists_node hn h hsplit hmem
      rw [hn.kindOf_of_id hm hid.symm] at hkind
      exact .inl ⟨m, hm, hkind, hid, hfree⟩
  · rintro (⟨m, hm, hkind, rfl, hfree⟩ | hid)
    · exact hhidden m hm (.inl hkind) hfree
    · have hfree := hn.later_notMem_parents h.setting hsplit hid
      obtain ⟨v, hv, rfl⟩ := Axes.mem_ids.mp hid
      obtain ⟨m, hm, -, rfl⟩ := hn.exists_decision h.setting (v := v) (by simp [hsplit, hv])
      exact hhidden m hm (.inr hv) hfree

end Network

end Influence
