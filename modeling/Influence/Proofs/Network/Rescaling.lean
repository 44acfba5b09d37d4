import Influence.Proofs.Elimination.Rescaling
import Influence.Proofs.Network.Parallel

/-! # Networks with rescaled utilities

One network rescales the utilities of another one if it differs only in the tables and the weights of the
utilities: a constant is added to each table, and all weights are multiplied by the same factor
(`Network.Rescales`).  The utility of the one network is then a multiple of that of the other one plus a
constant (`Network.Rescales.exists_utility`).

If the rows of the chance tables add up to one and the factor is positive, then the decisions of one
network are resolved exactly if those of the other one are, and by the same rules
(`Network.Rescales.exists_returns`). -/

namespace Influence

open scoped Exact

/-- Two policies choose alike; the values they expect may differ. -/
structure Policy.ChoosesAs {α : Type} (p q : Policy α) : Prop where
  name : q.name = p.name
  given : q.given = p.given
  table : q.table = p.table

namespace Network

variable {n m : Network ℚ} {a : ℚ} {b : String → ℚ} {s : Setting ℚ}

/-! ### The utility at the start of a run -/

namespace Compiled

variable (hn : n.Compiled)

include hn

theorem exists_isUtility_iff {id : VariableId} :
    (∃ t ∈ n.tables, Tables.isUtility n.registry t ∧ id ∈ t.axes.ids) ↔
      ∃ v ∈ n.nodes, v.kind = .utility ∧ id ∈ Axes.ids (n.parentHandles v ++ [v.handle]) := by
  constructor
  · rintro ⟨t, ht, hutility, hid⟩
    rw [← hn.map_snd_tabled] at ht
    obtain ⟨p, hp, rfl⟩ := List.mem_map.mp ht
    rw [(hn.table_of_tabled hp).1] at hid
    exact ⟨p.1, (hn.node_of_tabled hp).1, (hn.isUtility_iff hp).mp hutility, hid⟩
  · rintro ⟨v, hv, hkind, hid⟩
    obtain ⟨t, ht⟩ := hn.exists_tabled hv (by simp [hkind])
    refine ⟨t, ?_, (hn.isUtility_iff ht).mpr hkind, ?_⟩
    · rw [← hn.map_snd_tabled]
      exact List.mem_map_of_mem ht
    · rwa [(hn.table_of_tabled ht).1]

/-- All utilities are summed out of their sum. -/
theorem mem_ids_summedUtilities (s : Setting ℚ) {id : VariableId} :
    id ∈ (Tables.summedUtilities s n.registry n.tables).ids ↔
      ∃ v ∈ n.nodes, v.kind = .utility ∧ v.handle.id = id := by
  constructor
  · intro hid
    obtain ⟨v, hv, rfl⟩ := Axes.mem_ids.mp hid
    obtain ⟨hkind, t, ht, hv⟩ := Tables.mem_summedUtilities hv
    obtain ⟨m, hm, rfl⟩ := mem_handles.mp (hn.mem_handles_of_table ht hv)
    exact ⟨m, hm, by rwa [hn.kindOf_handle hm] at hkind, rfl⟩
  · rintro ⟨m, hm, hkind, rfl⟩
    have hmem := hn.exists_isUtility_iff.mpr
      ⟨m, hm, hkind, (by simp : m.handle.id ∈ Axes.ids (n.parentHandles m ++ [m.handle]))⟩
    obtain ⟨v, hv, hid⟩ := Axes.mem_ids.mp ((Tables.mem_ids_utilitySum s n.registry).mpr hmem)
    rw [← hid]
    refine Axes.mem_ids_of_mem (List.mem_filter.mpr ⟨hv, ?_⟩)
    rw [hn.kindOf_of_id hm hid, hkind]
    rfl

/-- A run starts with the tables of the chance variables and one of the utility, over the parents of
the utilities. -/
theorem exists_sumUtilities (hweights : s.weights = n.weights)
    (hutility : ∃ v ∈ n.nodes, v.kind = .utility) :
    ∃ u : Table ℚ, Tables.sumUtilities s n.registry n.tables = n.chances.map (·.2) ++ [u] ∧
      u.Fits n.sizes ∧ (∀ id, id ∈ u.axes.ids ↔
        (∃ v ∈ n.nodes, v.kind = .utility ∧ id ∈ Axes.ids (n.parentHandles v ++ [v.handle])) ∧
          ¬∃ v ∈ n.nodes, v.kind = .utility ∧ v.handle.id = id) ∧
      ∀ x : Assignment, x.Valid n.sizes → u.valueAt x = n.utility x := by
  obtain ⟨hfits, hids, hvalue⟩ := Tables.fits_summed s n.registry hn.fits_tables hn.arity_utility
  refine ⟨_, ?_, hfits, fun id => ?_, fun x hx => ?_⟩
  · rw [Tables.sumUtilities, hn.filter_not_isUtility,
      if_pos (List.any_eq_true.mpr (hn.exists_isUtility hutility))]
  · rw [hids, hn.exists_isUtility_iff, hn.mem_ids_summedUtilities]
  · rw [hvalue x hx, hn.utilityAt_tables hweights]

theorem sumUtilities_of_none (s : Setting ℚ) (hnone : ¬∃ v ∈ n.nodes, v.kind = .utility) :
    Tables.sumUtilities s n.registry n.tables = n.chances.map (·.2) := by
  have hany : ¬n.tables.any (Tables.isUtility n.registry) := by
    rw [List.any_eq_true]
    rintro ⟨t, ht, hutility⟩
    obtain ⟨v, hv, -⟩ := List.any_eq_true.mp hutility
    obtain ⟨m, hm, hkind, -⟩ := hn.exists_isUtility_iff.mp ⟨t, ht, hutility, Axes.mem_ids_of_mem hv⟩
    exact hnone ⟨m, hm, hkind⟩
  rw [Tables.sumUtilities, hn.filter_not_isUtility, if_neg hany, List.append_nil]

theorem rank_lt_of_decisionOrder (hs : n.setting = .ok s) :
    ∀ d ∈ s.decisionOrder, ∀ v ∈ s.dependencies.parents d, n.rank v.id < n.rank d.id := by
  rw [(setting_eq_ok hs).2.1]
  exact fun d hd v hv => hn.rank_lt_decision ((hn.decisionOrder hs).1.subset hd) hv

/-- Before a decision is resolved the chance variables have laws. -/
theorem hasLaws (hadds : n.AddsUp) (hs : n.setting = .ok s) {w : Workspace ℚ} {ts : List (Table ℚ)}
    (hreach : (Workspace.start n.registry n.factors).Reaches w ts)
    (heliminated : ∀ id, id ∈ w.eliminated ↔
      id ∈ (Tables.summedUtilities s n.registry n.tables).ids) :
    w.HasLaws n.sizes n.rank s s.decisionOrder.reverse n.laws := by
  have hkind : w.registry.kindOf = n.registry.kindOf := hreach.kindOf_eq
  have hids : Axes.ids w.registry.handles = n.handles.ids := by
    rw [hreach.handles]
    exact congrArg Axes.ids hn.declared.handles
  constructor
  case normal => exact hn.normal_laws hadds
  case nodup => exact hn.nodup_heads_laws
  case kind =>
    intro v hv
    rw [hids] at hv
    obtain ⟨u, hu, hid⟩ := Axes.mem_ids.mp hv
    obtain ⟨m, hm, rfl⟩ := mem_handles.mp hu
    rw [hkind, hn.kindOf_of_id hm hid.symm, hn.mem_ids_heads_laws]
    constructor
    · exact fun hchance => ⟨m, hm, hchance, hid⟩
    · rintro ⟨m', hm', hchance, hid'⟩
      rwa [hn.eq_of_id hm hm' (hid.trans hid'.symm)]
  case issued =>
    intro id hid
    obtain ⟨m, hm, -, rfl⟩ := hn.mem_ids_heads_laws.mp hid
    rw [hids]
    exact Axes.mem_ids_of_mem (mem_handles.mpr ⟨m, hm, rfl⟩)
  case undecided =>
    rw [List.reverse_reverse, Workspace.undecided, hkind]
    refine List.filter_eq_self.mpr fun d hd => ?_
    obtain ⟨m, hm, hkind, rfl⟩ := hn.exists_decision hs hd
    rw [hn.kindOf_handle hm, hkind]
    rfl
  case eliminated =>
    intro id hid
    obtain ⟨m, hm, hkind, rfl⟩ := (hn.mem_ids_summedUtilities s).mp ((heliminated id).mp hid)
    refine ⟨fun hlaw => ?_, fun hopen => ?_⟩
    · obtain ⟨m', hm', hkind', hid⟩ := hn.mem_ids_heads_laws.mp hlaw
      rw [hn.eq_of_id hm' hm hid, hkind] at hkind'
      cases hkind'
    · obtain ⟨d, hd, hid⟩ := Axes.mem_ids.mp hopen
      obtain ⟨m', hm', hkind', rfl⟩ := hn.exists_decision hs (List.mem_reverse.mp hd)
      rw [hn.eq_of_id hm' hm hid, hkind] at hkind'
      cases hkind'

end Compiled

/-! ### Rescaling -/

/-- The second table is one of the same node.  A constant is added to it if that is a utility. -/
structure Adds (sizes : VariableId → ℕ) (b : String → ℚ) (p q : Node × Table ℚ) : Prop where
  node : q.1 = p.1
  other : p.1.kind ≠ .utility → q.2 = p.2
  utility : p.1.kind = .utility → ∀ x : Assignment, x.Valid sizes →
    q.2.valueAt x = p.2.valueAt x + b p.1.name

/-- The second network has the tables of the first one, with a constant added to each utility, and the
weights of the utilities are multiplied by `a`. -/
structure Rescales (a : ℚ) (b : String → ℚ) (n m : Network ℚ) : Prop where
  diagram : n.SameDiagram m
  tabled : List.Forall₂ (Adds n.sizes b) n.tabled m.tabled
  weightOf : ∀ v ∈ n.nodes, v.kind = .utility → m.weightOf v = a * n.weightOf v

theorem SameDiagram.symm (h : n.SameDiagram m) : m.SameDiagram n where
  nodes := h.nodes.symm
  given := fun name => (h.given name).symm
  dependencies := h.dependencies.symm

namespace Rescales

theorem symm (h : Rescales a b n m) (ha : a ≠ 0) : Rescales a⁻¹ (fun name => -b name) m n where
  diagram := h.diagram.symm
  tabled := by
    rw [h.diagram.sizes]
    refine h.tabled.flip.imp fun q p hpq => ⟨hpq.node.symm, fun hkind => ?_, fun hkind x hx => ?_⟩
    · rw [hpq.node] at hkind
      exact (hpq.other hkind).symm
    · rw [hpq.node] at hkind ⊢
      rw [hpq.utility hkind x hx, add_neg_cancel_right]
  weightOf := fun v hv hkind => by
    rw [h.weightOf v (h.diagram.nodes ▸ hv) hkind, inv_mul_cancel_left₀ ha]

theorem filter (h : Rescales a b n m) (kind : NodeKind) :
    List.Forall₂ (Adds n.sizes b) (n.tabled.filter (·.1.kind = kind))
      (m.tabled.filter (·.1.kind = kind)) :=
  List.rel_filter (fun p q hpq => by simp [hpq.node]) h.tabled

theorem chances_eq (h : Rescales a b n m) : m.chances = n.chances := by
  have hchances := h.filter .chance
  refine (List.forall₂_eq_eq_eq ▸ List.forall₂_iff_zip.mpr ⟨hchances.length_eq, ?_⟩ :
    n.chances = m.chances).symm
  intro p q hpair
  have hpq := List.forall₂_zip hchances hpair
  have hkind : p.1.kind = .chance := by
    simpa using (List.mem_filter.mp (List.of_mem_zip hpair).1).2
  exact Prod.ext hpq.node.symm (hpq.other (by simp [hkind])).symm

/-- **The utility is scaled, and a constant is added to it.** -/
theorem exists_utility (h : Rescales a b n m) (hn : n.Compiled) :
    ∃ c, ∀ x : Assignment, x.Valid n.sizes → m.utility x = a * n.utility x + c := by
  have hsum : ∀ {ps qs : List (Node × Table ℚ)}, List.Forall₂ (Adds n.sizes b) ps qs →
      (∀ p ∈ ps, p.1 ∈ n.nodes ∧ p.1.kind = .utility) →
      ∃ c, ∀ x : Assignment, x.Valid n.sizes →
        (qs.map fun q => m.weightOf q.1 * q.2.valueAt x).sum =
          a * (ps.map fun p => n.weightOf p.1 * p.2.valueAt x).sum + c := by
    intro ps qs hpq hps
    induction hpq with
    | nil => exact ⟨0, fun x _ => by simp⟩
    | @cons p q ps qs hpq _ ih =>
        obtain ⟨⟨hp, hkind⟩, hps⟩ := List.forall_mem_cons.mp hps
        obtain ⟨c, hc⟩ := ih hps
        refine ⟨a * n.weightOf p.1 * b p.1.name + c, fun x hx => ?_⟩
        rw [List.map_cons, List.sum_cons, List.map_cons, List.sum_cons, hc x hx, hpq.node,
          h.weightOf p.1 hp hkind, hpq.utility hkind x hx]
        ring
  refine hsum (h.filter .utility) fun p hp => ?_
  obtain ⟨hp, hkind⟩ := List.mem_filter.mp hp
  exact ⟨(hn.node_of_tabled hp).1, by simpa using hkind⟩

/-! ### Runs -/

/-- The runs start with rescaled utilities. -/
theorem start (h : Rescales a b n m) (hn : n.Compiled) (hm : m.Compiled) (hadds : n.AddsUp)
    {s' : Setting ℚ} (hs : n.setting = .ok s) (hs' : m.setting = .ok s') {w w' : Workspace ℚ}
    (hreach : (Workspace.start n.registry n.factors).Reaches w
      (Tables.sumUtilities s n.registry n.tables))
    (hreach' : (Workspace.start m.registry m.factors).Reaches w'
      (Tables.sumUtilities s' m.registry m.tables))
    (heliminated : ∀ id, id ∈ w.eliminated ↔
      id ∈ (Tables.summedUtilities s n.registry n.tables).ids)
    (heliminated' : ∀ id, id ∈ w'.eliminated ↔
      id ∈ (Tables.summedUtilities s' m.registry m.tables).ids) :
    w.Rescales n.sizes n.rank a s s.decisionOrder.reverse w' := by
  have hchances : ∀ t ∈ n.chances.map (·.2), t.Fits n.sizes := by
    intro t ht
    obtain ⟨p, hp, rfl⟩ := List.mem_map.mp ht
    exact hn.fits_of_tabled (List.mem_of_mem_filter hp)
  have htables : Tables.Alike n.sizes w.tables w'.tables ∨ ∃ u u' : Table ℚ,
      u.Rescales n.sizes a u' ∧ Tables.Alike n.sizes w.tables (u :: Law.tables n.laws) ∧
      Tables.Alike n.sizes w'.tables (u' :: Law.tables n.laws) := by
    rw [hreach.tables_eq, hreach'.tables_eq, tables_laws]
    by_cases hutility : ∃ v ∈ n.nodes, v.kind = .utility
    case neg =>
      rw [hn.sumUtilities_of_none s hutility,
        hm.sumUtilities_of_none s' (by rwa [h.diagram.nodes]), h.chances_eq]
      exact .inl (.refl hchances)
    case pos =>
      obtain ⟨u, hsum, hu, hids, hvalue⟩ :=
        hn.exists_sumUtilities (setting_eq_ok hs).2.2 hutility
      obtain ⟨u', hsum', hu', hids', hvalue'⟩ :=
        hm.exists_sumUtilities (setting_eq_ok hs').2.2 (by rwa [h.diagram.nodes])
      obtain ⟨c, hc⟩ := h.exists_utility hn
      rw [h.diagram.sizes] at hu' hvalue'
      refine .inr ⟨u, u', ⟨hu, hu', fun id => ?_, c, fun x hx => ?_⟩, ?_, ?_⟩
      · rw [hids, hids', h.diagram.nodes]
        simp only [h.diagram.parentHandles]
      · rw [hvalue x hx, hvalue' x hx, hc x hx]
      · rw [hsum]
        exact .of_perm (List.forall_mem_append.mpr ⟨hchances, by simpa using hu⟩)
          (List.perm_append_singleton _ _)
      · rw [hsum', h.chances_eq]
        exact .of_perm (List.forall_mem_append.mpr ⟨hchances, by simpa using hu'⟩)
          (List.perm_append_singleton _ _)
  refine ⟨?_, n.laws, hn.hasLaws hadds hs hreach heliminated, htables⟩
  constructor
  case ids =>
    intro id
    rcases htables with halike | ⟨u, u', hu, hleft, hright⟩
    · exact halike.mem_ids_axes
    · rw [← hleft.mem_ids_axes, ← hright.mem_ids_axes, Tables.mem_ids_axes_cons,
        Tables.mem_ids_axes_cons, hu.ids]
  case eliminated =>
    intro id
    rw [heliminated, heliminated', hn.mem_ids_summedUtilities, hm.mem_ids_summedUtilities,
      h.diagram.nodes]
  case handles =>
    rw [hreach.handles, hreach'.handles]
    exact (hm.declared.handles.trans (by rw [h.diagram.nodes])).trans hn.declared.handles.symm
  case issued =>
    rw [hreach.tables_eq, hreach.handles]
    exact hn.ids_sumUtilities_subset s

/-- **The decisions are resolved by the same rules.** -/
theorem follows (h : Rescales a b n m) (ha : 0 < a) (hn : n.Compiled) (hm : m.Compiled)
    (hps : n.policies = []) (hps' : m.policies = []) (hadds : n.AddsUp) :
    Follows (fun _ => True) (fun as _ bs _ => List.Forall₂ Policy.ChoosesAs as bs)
      (runFrom n.resolveAll n.registry) (runFrom m.resolveAll m.registry) := by
  obtain ⟨s, hs⟩ := hn.exists_setting
  have hs' := h.diagram.exists_setting hs
  rw [resolveAll_eq_resolveAllBy, resolveAll_eq_resolveAllBy]
  refine (Follows.policies hn hm h.diagram hps hps' (.refl _) (.refl _) hs hs'
    (fun p q hpq => hpq.ids)
    (StepM.counterpart_of_rescales hn.valid_zero ha rfl rfl (hn.rank_lt_of_decisionOrder hs)
      (StepM.perm_heuristicPick s) (StepM.perm_heuristicPick _))
    fun _ _ => h.start hn hm hadds hs hs').imp (fun _ => id) ?_
  rintro as _ bs _ - hpolicies
  refine hpolicies.imp ?_
  rintro _ _ ⟨v, hv, p, q, hrule, -, hsub, rfl, rfl⟩
  exact ⟨rfl, h.diagram.given _, h.diagram.table_policyFor hn hv hrule hsub⟩

/-- **Rescaled utilities lead to the same policies.** -/
theorem exists_returns (h : Rescales a b n m) (ha : 0 < a) (hn : n.Compiled) (hm : m.Compiled)
    (hps : n.policies = []) (hps' : m.policies = []) (hadds : n.AddsUp) {ps : List (Policy ℚ)}
    (hreturns : ∃ n', Returns NetworkM.solvePolicies n ps n') :
    ∃ qs m', Returns NetworkM.solvePolicies m qs m' ∧ List.Forall₂ Policy.ChoosesAs ps qs := by
  rw [NetworkM.solvePolicies_eq_solvePoliciesBy, NetworkM.exists_returns_solvePoliciesBy hps]
    at hreturns
  have hm' : ∀ {qs : List (Policy ℚ)}, (∃ m', Returns NetworkM.solvePolicies m qs m') ↔
      if n.dependencies.isEmpty then qs = [] else ∃ r, Returns m.resolveAll m.registry qs r := by
    intro qs
    rw [NetworkM.solvePolicies_eq_solvePoliciesBy, NetworkM.exists_returns_solvePoliciesBy hps',
      h.diagram.dependencies]
    rfl
  split at hreturns
  next hempty =>
    subst hreturns
    obtain ⟨m', hreturns'⟩ := hm'.mpr ((if_pos hempty).mpr rfl)
    exact ⟨[], m', hreturns', .nil⟩
  next hempty =>
    obtain ⟨r, hr⟩ := hreturns
    obtain ⟨qs, r', hr', hrules⟩ := h.follows ha hn hm hps hps' hadds ps r hr trivial
    obtain ⟨m', hreturns'⟩ := hm'.mpr ((if_neg hempty).mpr ⟨r', hr'⟩)
    exact ⟨qs, m', hreturns', hrules⟩

end Rescales

end Network

end Influence
