import Influence.Proofs.Elimination.Decision
import Influence.Proofs.Network.Ancestors
import Influence.Proofs.Network.Renumbering

/-! # Rules in names

Resolving the decisions of a compiled network fails only because a decision has no rule, or because a
rule depends on something that its decision does not observe (`Ends.policies`).  Otherwise every
decision gets a policy of its own, in the order of the decisions, and its tables have one cell for each
joint outcome of what the decision observes and the decision (`Network.IsFitting`).

`NetworkM.solvePoliciesBy` resolves the decisions of a network eliminating what is picked before each;
the heuristics are such choices.

Such policies stand for factors again: a run on a network that has them starts without failing
(`Network.exists_returns_workingSet`). -/

namespace Influence

open scoped Exact

variable {α : Type} [Cell α] {sizes : VariableId → ℕ}

namespace Table

/-- The table laid out over some axes, and repeated along those that it lacks. -/
def layOut (t : Table α) (axes : Axes) : Table α :=
  if (axes.filter fun v => !t.mentions v).isEmpty then t.rearrange axes
  else (Table.product [t, ones (axes.filter fun v => !t.mentions v)]).rearrange axes

/-- The axes that a table lacks are added to it. -/
theorem Fits.perm_widened {t : Table α} (ht : t.Fits sizes) {axes : Axes} (hnodup : axes.ids.Nodup)
    (hsub : t.axes.ids ⊆ axes.ids) :
    axes.ids.Perm (Table.product [t, ones (axes.filter fun v => !t.mentions v)]).axes.ids := by
  have hones : (ones (axes.filter fun v => !t.mentions v) : Table α).axes.ids.Nodup :=
    Axes.nodup_ids_filter hnodup _
  have hproduct : (Table.product [t, ones (axes.filter fun v => !t.mentions v)]).axes.ids.Nodup :=
    nodup_foldAll (by simpa using ⟨ht.wellFormed.nodup, hones⟩)
  refine (List.perm_ext_iff_of_nodup hnodup hproduct).mpr fun id => ?_
  rw [Table.product, mem_ids_foldAll]
  simp only [List.mem_cons, List.not_mem_nil, or_false, exists_eq_or_imp, exists_eq_left,
    axes_ones]
  constructor
  · intro hid
    by_cases hmem : id ∈ t.axes.ids
    · exact .inl hmem
    · exact .inr (Axes.mem_ids_filter_mentions.mpr ⟨hid, hmem⟩)
  · rintro (hid | hid)
    · exact hsub hid
    · exact (Axes.ids_filter_sublist _ _).subset hid

omit [Cell α] in
theorem perm_of_isEmpty {t : Table α} (ht : t.axes.ids.Nodup) {axes : Axes} (hnodup : axes.ids.Nodup)
    (hsub : t.axes.ids ⊆ axes.ids) (hempty : (axes.filter fun v => !t.mentions v).isEmpty) :
    axes.ids.Perm t.axes.ids := by
  refine (List.perm_ext_iff_of_nodup hnodup ht).mpr fun id => ⟨fun hid => ?_, fun hid => hsub hid⟩
  obtain ⟨v, hv, rfl⟩ := Axes.mem_ids.mp hid
  have hmentions := List.filter_eq_nil_iff.mp (List.isEmpty_iff.mp hempty) v hv
  rw [Bool.not_eq_true', Bool.not_eq_false] at hmentions
  exact mentions_iff.mp hmentions

theorem Fits.layOut {t : Table α} (ht : t.Fits sizes) {axes : Axes} (hnodup : axes.ids.Nodup)
    (hpos : ∀ v ∈ axes, 0 < v.arity) (hsized : axes.Sized sizes) (hsub : t.axes.ids ⊆ axes.ids) :
    (t.layOut axes).Fits sizes ∧ (t.layOut axes).axes.ids = axes.ids := by
  unfold Table.layOut
  split
  next hempty =>
    exact ⟨ht.rearrange (perm_of_isEmpty ht.wellFormed.nodup hnodup hsub hempty) hsized,
      ids_rearrange _ _⟩
  next =>
    have hfilter : (axes.filter fun v => !t.mentions v) ⊆ axes := List.filter_sublist.subset
    have hones : (ones (axes.filter fun v => !t.mentions v) : Table α).Fits sizes :=
      fits_ones (Axes.nodup_ids_filter hnodup _) (fun v hv => hpos v (hfilter hv))
        (hsized.subset hfilter)
    have hproduct : (Table.product [t, ones (axes.filter fun v => !t.mentions v)]).Fits sizes :=
      fits_foldAll (by simpa using ⟨ht, hones⟩)
    exact ⟨hproduct.rearrange (ht.perm_widened hnodup hsub) hsized, ids_rearrange _ _⟩

theorem Fits.length_layOut {t : Table α} (ht : t.Fits sizes) {axes : Axes} (hnodup : axes.ids.Nodup)
    (hpos : ∀ v ∈ axes, 0 < v.arity) (hsized : axes.Sized sizes) (hsub : t.axes.ids ⊆ axes.ids) :
    (t.layOut axes).cells.toList.length = axes.size := by
  obtain ⟨hfits, hids⟩ := ht.layOut hnodup hpos hsized hsub
  rw [Array.length_toList]
  exact (hfits.of_ids hsized hids.symm).wellFormed.size_cells

/-- Laying a table out does not change its values. -/
theorem Fits.valueAt_layOut [Cell.Unital α] {t : Table α} (ht : t.Fits sizes) {axes : Axes}
    (hnodup : axes.ids.Nodup) (hpos : ∀ v ∈ axes, 0 < v.arity) (hsized : axes.Sized sizes)
    (hsub : t.axes.ids ⊆ axes.ids) {x : Assignment} (hx : x.Valid sizes) :
    (t.layOut axes).valueAt x = t.valueAt x := by
  unfold Table.layOut
  split
  next hempty =>
    exact ht.valueAt_rearrange (perm_of_isEmpty ht.wellFormed.nodup hnodup hsub hempty) hsized hx
  next =>
    have hfilter : (axes.filter fun v => !t.mentions v) ⊆ axes := List.filter_sublist.subset
    have hones : (ones (axes.filter fun v => !t.mentions v) : Table α).Fits sizes :=
      fits_ones (Axes.nodup_ids_filter hnodup _) (fun v hv => hpos v (hfilter hv))
        (hsized.subset hfilter)
    have hfits : ∀ s ∈ [t, ones (axes.filter fun v => !t.mentions v)], s.Fits sizes := by
      simpa using ⟨ht, hones⟩
    have hproduct : (Table.product [t, ones (axes.filter fun v => !t.mentions v)]).Fits sizes :=
      fits_foldAll hfits
    rw [hproduct.valueAt_rearrange (ht.perm_widened hnodup hsub) hsized hx]
    have hone : (ones (axes.filter fun v => !t.mentions v) : Table α).valueAt x = 1 :=
      valueAt_ones (hx.inRange hones.sized)
    rw [Table.product, valueAt_foldAll (fun s hs => (hfits s hs).wellFormed)
      (hx.inRange hproduct.sized) (by simp)]
    change 1 * t.valueAt x * (ones (axes.filter fun v => !t.mentions v) : Table α).valueAt x = _
    rw [hone, Cell.Unital.one_mul, Cell.Unital.mul_one]

end Table

namespace Network

variable {n : Network α} {m : Node} {d : Variable} {p : Policy α} {r r' : Registry}

/-- The policy that two tables for a decision make. -/
def policyFor (n : Network α) (m : Node) (p : Table α × Table α) : Policy α :=
  let family := n.parentHandles m ++ [m.handle]
  ⟨m.name, givenOf n.entries m.name, (p.2.layOut family).cells.toList,
    (p.1.layOut family).cells.toList⟩

/-- The policy is for a decision, and its tables have as many cells as the build counts joint outcomes of
what the decision observes and the decision. -/
structure IsFitting [Build] (n : Network α) (d : Variable) (p : Policy α) : Prop where
  isFor : n.IsFor d p
  table : p.table.length = Axes.size (n.dependencies.parents d ++ [d])
  expectedUtility : p.expectedUtility.length = Axes.size (n.dependencies.parents d ++ [d])

/-- Resolves all decisions of a network, eliminating what is picked. -/
def resolveAllBy [Build] (pick : Setting α → StepM.Pick α) (n : Network α) :
    RegistryM (List (Policy α)) := do
  let factors ← n.workingSet
  let s ← n.setting
  let resolved ← Setting.run factors (StepM.solveDecisionsBy (pick s) s)
  resolved.mapM n.policyOf

theorem resolveAll_eq_resolveAllBy [Build] (n : Network α) :
    n.resolveAll = resolveAllBy StepM.heuristicPick n := rfl

theorem Compiled.isFitting_policyFor (hn : n.Compiled) (hm : m ∈ n.nodes) (hkind : m.kind = .decision)
    {p : Table α × Table α} (hp : Tables.Paired n.sizes p)
    (hsub : p.2.axes.ids ⊆ Axes.ids (n.parentHandles m ++ [m.handle])) :
    n.IsFitting m.handle (n.policyFor m p) := by
  have hpos : ∀ v ∈ n.parentHandles m ++ [m.handle], 0 < v.arity := fun v hv =>
    hn.arity_pos_handles (hn.family_subset hm hv)
  have hsized := hn.sized_handles.subset (hn.family_subset hm)
  constructor
  case isFor => exact ⟨m, hm, hkind, rfl, rfl, rfl⟩
  case table =>
    rw [hn.parents_handle hm hkind]
    exact hp.right.length_layOut (hn.nodup_family hm) hpos hsized hsub
  case expectedUtility =>
    rw [hn.parents_handle hm hkind]
    exact hp.left.length_layOut (hn.nodup_family hm) hpos hsized fun id hid =>
      hsub (hp.perm.subset hid)

omit [Cell α] in
theorem Compiled.open (hn : n.Compiled) {s : Setting α} (hs : n.setting = .ok s)
    (hr : r.handles = n.registry.handles) : r.Open s.decisionOrder where
  nodup := (hn.decisionOrder hs).2
  kind := fun d hd => by
    obtain ⟨m, hm, hkind, rfl⟩ := hn.exists_decision hs hd
    rw [Registry.kindOf_congr hr, hn.kindOf_handle hm, hkind]
  issued := fun d hd => by
    rw [hr, hn.declared.handles]
    exact Axes.mem_ids_of_mem (hn.decisionOrder_subset_handles hs hd)

omit [Cell α] in
theorem Compiled.sized_decisionOrder (hn : n.Compiled) {s : Setting α} (hs : n.setting = .ok s) :
    Axes.Sized n.sizes s.decisionOrder :=
  hn.sized_decisions.subset (hn.decisionOrder hs).1.subset

omit [Cell α] in
theorem Compiled.open_start (hn : n.Compiled) {s : Setting α} (hs : n.setting = .ok s)
    (hr : n.registry.Later r) : (Workspace.start r n.factors).Open n.sizes s.decisionOrder where
  numbered := Workspace.numbered_start fun f hf => Nat.lt_of_lt_of_le (hn.numbered f hf) hr.le
  fits := by
    rw [hn.tables_start]
    exact hn.fits_tables
  sized := hn.sized_decisionOrder hs
  decisions := hn.open hs hr.handles

/-! ### Factors of policies -/

/-- A fitting policy of an open decision stands for a factor. -/
theorem IsFitting.exists_returns (hn : n.Compiled) (hp : n.IsFitting d p)
    (hkind : r.kindOf d = .decision) (hd : d.id ∈ Axes.ids r.handles) :
    ∃ f r', Returns (n.policyFactor p) r f r' ∧ r'.handles = (r.withChance d).handles := by
  obtain ⟨⟨m, hm, hkind', rfl, hname, hgiven⟩, htable, -⟩ := hp
  obtain ⟨w, hrelabel⟩ := Registry.exists_returns_relabelAsChance hkind hd
  have hnode : n.node p.name = .ok m :=
    (find_eq_ok_iff hn.declared.names).mpr ⟨hm, hname.symm⟩
  have hparents : ∀ name ∈ p.given, ∃ m' ∈ n.nodes, m'.name = name := by
    intro name hmem
    rw [hgiven] at hmem
    obtain ⟨m', hm', hname', -⟩ := mem_givenOf hn.checked hmem
    exact ⟨m', hm', hname'⟩
  obtain ⟨ms, hms, hhandles⟩ := exists_nodes hparents
  have haxes : ms.map (·.handle) ++ [m.handle] = n.parentHandles m ++ [m.handle] := by
    rw [hhandles, hgiven]
    rfl
  rw [hn.parents_handle hm hkind'] at htable
  refine ⟨⟨r.nextFactor, ⟨n.parentHandles m ++ [m.handle], p.table.toArray⟩⟩, (r.withChance m.handle).after 1, ?_, rfl⟩
  unfold policyFactor
  simp only [returns_bind, returns_except, returns_mapM_except]
  refine ⟨m, r, ⟨hnode, rfl⟩, w, _, hrelabel, ms, _, ⟨hms, rfl⟩, ?_⟩
  rw [Factor.returns_create_some, haxes]
  exact ⟨hn.nodup_family hm, htable, rfl, rfl⟩

/-- A run on a network with a policy for each decision starts. -/
theorem exists_returns_workingSet (hn : n.Compiled) {s : Setting α} (hs : n.setting = .ok s)
    (hr : r.handles = n.registry.handles)
    (hps : List.Forall₂ n.IsFitting s.decisionOrder n.policies) :
    ∃ fs r', Returns n.workingSet r fs r' := by
  have hrules : ∀ {ds : List Variable} {ps : List (Policy α)} {r : Registry},
      List.Forall₂ n.IsFitting ds ps → r.Open ds → ∃ fs r', Returns (ps.mapM n.policyFactor) r fs r' := by
    intro ds ps r hps hopen
    induction hps generalizing r with
    | nil => exact ⟨[], r, returns_mapM_nil.mpr ⟨rfl, rfl⟩⟩
    | @cons d p ds ps hp _ ih =>
        obtain ⟨f, r₁, hfirst, hhandles⟩ :=
          hp.exists_returns hn (hopen.kind d (by simp)) (hopen.issued d (by simp))
        obtain ⟨fs, r', hrest⟩ := ih (hopen.withChance.of_handles hhandles)
        exact ⟨f :: fs, r', returns_mapM_cons.mpr ⟨f, r₁, fs, hfirst, hrest, rfl⟩⟩
  obtain ⟨fs, r', hfs⟩ := hrules hps (hn.open hs hr)
  exact ⟨n.factors ++ fs, r', returns_bind.mpr ⟨fs, r', hfs, returns_pure.mpr ⟨rfl, rfl⟩⟩⟩

theorem returns_workingSet_of_nil [Build] (hps : n.policies = []) : Returns n.workingSet r n.factors r := by
  unfold workingSet
  rw [hps]
  exact returns_bind.mpr ⟨[], r, returns_mapM_nil.mpr ⟨rfl, rfl⟩, returns_pure.mpr ⟨by simp, rfl⟩⟩

end Network

/-! ### Choices of what is eliminated -/

namespace NetworkM

variable [Build] {n : Network α} {ps : List (Policy α)} {pick : Setting α → StepM.Pick α}

/-- Resolves every decision, eliminating what is picked before each, and stores the rules. -/
def solvePoliciesBy (pick : Setting α → StepM.Pick α) : NetworkM α (List (Policy α)) := do
  clearPolicies
  let n ← get
  if n.dependencies.isEmpty then return []
  let policies ← solving (n.resolveAllBy pick)
  modify fun n => { n with policies }
  return policies

theorem solvePolicies_eq_solvePoliciesBy :
    (solvePolicies : NetworkM α (List (Policy α))) = solvePoliciesBy StepM.heuristicPick := rfl

theorem runFrom_solvePoliciesBy (hps : n.policies = []) :
    runFrom (solvePoliciesBy pick) n = runFrom (if n.dependencies.isEmpty then pure [] else do
      let policies ← solving (n.resolveAllBy pick)
      modify fun n => { n with policies }
      return policies) n := by
  have hclear : n = { n with policies := [] } := by rw [← hps]
  conv_rhs => rw [hclear]
  rfl

theorem exists_returns_solvePoliciesBy (hps : n.policies = []) :
    (∃ n', Returns (solvePoliciesBy pick) n ps n') ↔
      if n.dependencies.isEmpty then ps = [] else ∃ r, Returns (n.resolveAllBy pick) n.registry ps r := by
  unfold Returns
  rw [runFrom_solvePoliciesBy hps]
  split
  next => exact ⟨fun ⟨_, h⟩ => (returns_pure.mp h).1.symm, fun h => ⟨n, returns_pure.mpr ⟨h.symm, rfl⟩⟩⟩
  next =>
    constructor
    · rintro ⟨n', h⟩
      obtain ⟨_, _, hsolve, h⟩ := returns_bind.mp h
      obtain ⟨r, hr, rfl⟩ := returns_solving.mp hsolve
      obtain ⟨_, _, -, h⟩ := returns_bind.mp h
      obtain ⟨rfl, -⟩ := returns_pure.mp h
      exact ⟨r, hr⟩
    · rintro ⟨r, hr⟩
      refine ⟨{ n with registry := n.registry.absorb r, policies := ps },
        returns_bind.mpr ⟨ps, _, returns_solving.mpr ⟨r, hr, rfl⟩, ?_⟩⟩
      exact returns_bind.mpr ⟨⟨⟩, _, returns_modify.mpr rfl, returns_pure.mpr ⟨rfl, rfl⟩⟩

end NetworkM

namespace Ends

open Network

variable {n : Network α} {m : Node} {r : Registry} {f : Factor α} {res : Resolved α}

/-- A table is laid out over axes that contain its own. -/
theorem conform {name : String} {axes : Axes} (hf : f.table.Fits sizes) (hnodup : axes.ids.Nodup) :
    Ends (fun e => ¬f.axes.ids ⊆ axes.ids ∧ e.family = .validation)
      (fun g _ => f.axes.ids ⊆ axes.ids ∧ g.table = f.table.layOut axes)
      (runFrom (n.conform name axes f) r) := by
  unfold Network.conform
  cases hextra : f.axes.find? fun v => !Axes.mentions axes v with
  | some v =>
      refine throw ⟨fun hsub => ?_, rfl⟩
      have hout := List.find?_some hextra
      rw [Bool.not_eq_true', Axes.mentions_eq_false_iff] at hout
      exact hout (hsub (Axes.mem_ids_of_mem (List.mem_of_find?_eq_some hextra)))
  | none =>
      have hsub : f.axes.ids ⊆ axes.ids := by
        intro id hid
        obtain ⟨v, hv, rfl⟩ := Axes.mem_ids.mp hid
        have := List.find?_eq_none.mp hextra v hv
        exact Axes.mentions_iff.mp (by simpa using this)
      dsimp only
      split
      next hempty =>
        refine of_returns (Factor.returns_rearrange.mpr ⟨?_, rfl, rfl⟩) ⟨hsub, ?_⟩
        · exact (Factor.isOrder_iff hf.wellFormed.nodup).mpr
            (Table.perm_of_isEmpty hf.wellFormed.nodup hnodup hsub hempty)
        · exact (if_pos hempty).symm
      next hempty =>
        refine bind (of_returns ((Factor.returns_ones (Axes.nodup_ids_filter hnodup _)).mpr
          ⟨rfl, rfl⟩) (R := fun g _ => g.table = .ones (axes.filter fun v => !f.mentions v)) rfl) ?_
        intro ones r' hones
        refine bind (of_returns (Factor.returns_product.mpr ⟨rfl, rfl⟩ : Returns (Factor.product [f, ones]) r' _ _)
          (R := fun g _ => g.table = .product [f.table, .ones (axes.filter fun v => !f.mentions v)])
          ?_) fun g r'' hg => ?_
        · rw [← hones]
          rfl
        · have hnodup' : g.axes.ids.Nodup := by
            rw [Factor.axes, hg]
            exact ((hf.perm_widened hnodup hsub).nodup_iff).mp hnodup
          refine of_returns (Factor.returns_rearrange.mpr ⟨?_, rfl, rfl⟩) ⟨hsub, ?_⟩
          · rw [Factor.isOrder_iff hnodup', Factor.axes, hg]
            exact hf.perm_widened hnodup hsub
          · rw [hg]
            exact (if_neg hempty).symm

/-- The rule of a decision is put in names unless it depends on something unobserved. -/
theorem policyOf (hn : n.Compiled) (hm : m ∈ n.nodes) (hres : res.IsFor n.sizes m.handle) :
    Ends (fun e => ¬res.rule.axes.ids ⊆ Axes.ids (n.parentHandles m ++ [m.handle]) ∧
        e.family = .validation)
      (fun p _ => res.rule.axes.ids ⊆ Axes.ids (n.parentHandles m ++ [m.handle]) ∧
        p = n.policyFor m (res.combined.table, res.rule.table))
      (runFrom (n.policyOf res) r) := by
  unfold Network.policyOf
  rw [hres.decision]
  cases hfind : n.nodes.findIdx? (·.handle.id == m.handle.id) with
  | none => exact absurd (List.findIdx?_eq_none_iff.mp hfind m hm) (by simp)
  | some i =>
      obtain ⟨hlt, hid, -⟩ := List.findIdx?_eq_some_iff_getElem.mp hfind
      have hi : n.nodes[i]? = some m := by
        rw [List.getElem?_eq_getElem hlt]
        exact congrArg some (hn.eq_of_id (List.getElem_mem hlt) hm (beq_iff_eq.mp hid))
      simp only [hi, Option.map_some, Option.getD_some, hn.handlesAt_parents hi,
        hn.namesAt_parents hi]
      refine bind (conform hres.paired.right (hn.nodup_family hm)) ?_
      rintro table r₁ ⟨hsub, htable⟩
      refine bind ((conform hres.paired.left (hn.nodup_family hm)).imp ?_ fun _ _ => id) ?_
      · rintro e ⟨hout, he⟩
        exact ⟨fun hsub => hout fun id hid => hsub (hres.paired.perm.subset hid), he⟩
      · rintro expected r₂ ⟨-, hexpected⟩
        refine pure ⟨hsub, ?_⟩
        unfold Factor.cells
        rw [htable, hexpected]
        rfl

omit [Cell α] in
theorem run {β : Type} {E : Error → Prop} {R : β → Workspace α → Prop} {x : StepM α β}
    {fs : List (Factor α)} (h : Ends E R (runFrom x (.start r fs))) :
    Ends E (fun b _ => ∃ w, R b w) (runFrom (Setting.run fs x) r) := by
  change Ends _ _ ((runFrom x (.start r fs)).1, (runFrom x (.start r fs)).2.registry)
  revert h
  generalize runFrom x (.start r fs) = p
  intro h
  cases h with
  | ok h => exact .ok ⟨_, h⟩
  | error h => exact .error h

/-- **The decisions are resolved, or a rule is missing or depends on something unobserved.** -/
theorem policies {pick : Setting α → StepM.Pick α} (hn : n.Compiled) (hps : n.policies = [])
    (hr : n.registry.Later r) {s : Setting α} (hs : n.setting = .ok s) :
    Ends (fun e => e.family = .noSolution ∨ e.family = .validation)
      (fun ps _ => List.Forall₂ n.IsFitting s.decisionOrder ps)
      (runFrom (Network.resolveAllBy pick n) r) := by
  unfold Network.resolveAllBy
  refine bind (of_returns (returns_workingSet_of_nil hps) (R := fun fs r' => fs = n.factors ∧ r' = r)
    ⟨rfl, rfl⟩) ?_
  rintro _ r' ⟨rfl, rfl⟩
  refine check (fun e he => by rw [hs] at he; cases he) fun s' hs' => ?_
  obtain rfl := Except.ok.inj (hs.symm.trans hs')
  refine bind ((run (solveDecisionsBy (hn.open_start hs hr))).imp (fun _ h => .inl h) fun _ _ => id) ?_
  rintro rs r'' ⟨-, hrs⟩
  have hloop : ∀ {ds : List Variable} {rs : List (Resolved α)} {r : Registry},
      ds ⊆ s.decisionOrder → List.Forall₂ (fun d res => res.IsFor n.sizes d) ds rs →
      Ends (fun e => e.family = .noSolution ∨ e.family = .validation)
        (fun ps _ => List.Forall₂ n.IsFitting ds ps) (runFrom (rs.mapM n.policyOf) r) := by
    intro ds rs r hds hrs
    induction hrs generalizing r with
    | nil =>
        rw [List.mapM_nil]
        exact pure .nil
    | @cons d res ds rs hres _ ih =>
        obtain ⟨hd, hrest⟩ := List.cons_subset.mp hds
        obtain ⟨m, hm, hkind, rfl⟩ := hn.exists_decision hs hd
        rw [List.mapM_cons]
        refine bind ((policyOf hn hm hres).imp (fun _ h => .inr h.2) fun _ _ => id) ?_
        rintro p r' ⟨hsub, rfl⟩
        refine bind (ih hrest) fun ps _ hps => pure (.cons ?_ hps)
        exact hn.isFitting_policyFor hm hkind hres.paired hsub
  exact hloop (List.Subset.refl _) hrs

theorem resolveAll (hn : n.Compiled) (hps : n.policies = []) (hr : n.registry.Later r)
    {s : Setting α} (hs : n.setting = .ok s) :
    Ends (fun e => e.family = .noSolution ∨ e.family = .validation)
      (fun ps _ => List.Forall₂ n.IsFitting s.decisionOrder ps) (runFrom n.resolveAll r) := by
  rw [resolveAll_eq_resolveAllBy]
  exact policies hn hps hr hs

end Ends

end Influence
