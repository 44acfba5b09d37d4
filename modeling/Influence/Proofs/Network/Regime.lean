import Influence.Proofs.Elimination.Regime
import Influence.Proofs.Network.Effects
import Influence.Proofs.Network.Rules

/-! # Regimes of networks

On a network whose tables are under a regime every question is answered in the same way by both builds,
unless the first one is stopped, and the tables of the answers and of the rules are under the regime
(`Regime.agree_call`).  The network goes on with rules that are laid out over axes that fit. -/

namespace Influence

variable {α : Type} [Cell α]

/-! ### Expected utilities -/

/-- The factor that an expected utility is read off. -/
def NetworkM.quotient [Build] (observed : List (String × String)) (names : List String)
    (utility : Option String) : NetworkM α (Factor α) := do
  let value ← utilityFactor observed names utility
  let probability ← joint observed names
  let inverse ← onRegistry probability.invert
  let expected ← onRegistry (Factor.product [value, inverse])
  let n ← get
  let nodes ← names.mapM fun name => (n.node name : Except Error Node)
  onRegistry (expected.rearrange (nodes.map (·.handle)))

theorem NetworkM.solveUtility_eq [Build] (observed : List (String × String)) (names : List String)
    (utility : Option String) :
    solveUtility (α := α) observed names utility = do
      let f ← quotient observed names utility
      return ⟨names, f.cells.toList⟩ := by
  simp only [solveUtility, quotient, bind_assoc]

omit [Cell α] in
/-- The axes of the factors of a network are handles of it. -/
theorem Network.Compiled.axes_subset_handles [Build] {n : Network α} (hn : n.Compiled) {f : Factor α}
    (hf : f ∈ n.factors) : f.axes ⊆ n.handles := by
  have hmem : f.table ∈ n.tables := List.mem_map_of_mem hf
  rw [← hn.map_snd_tabled] at hmem
  obtain ⟨p, hp, hpf⟩ := List.mem_map.mp hmem
  rw [show f.axes = _ from hpf ▸ (hn.table_of_tabled hp).1]
  exact hn.family_subset (hn.node_of_tabled hp).1

namespace Regime

open Network

variable {B₁ B₂ : Build} {sizes : VariableId → ℕ} (R : Regime α B₁ B₂ sizes) {n n' n'' : Network α}

/-- The network is compiled, its tables are under the regime, and its rules can be. -/
structure Holds (n : Network α) : Prop where
  compiled : @Compiled α B₂ n
  sized : n.handles.Sized sizes
  factors : ∀ f ∈ n.factors, R.base f.table
  policies : ∀ p ∈ n.policies, R.fits (handlesOf n.nodes (p.given ++ [p.name])).count

/-- The network has handed out more creation numbers and may have stored rules, and is under the
regime. -/
def Grows (n n' : Network α) : Prop := ∃ k ps, n' = n.advanced k ps ∧ R.Holds n'

variable {R}

theorem Holds.advanced (hn : R.Holds n) (k : ℕ) {ps : List (Policy α)}
    (hps : ∀ p ∈ ps, R.fits (handlesOf n.nodes (p.given ++ [p.name])).count) :
    R.Holds (n.advanced k ps) where
  compiled := hn.compiled.update (r := n.registry.after k) rfl (Nat.le_add_right _ k) ps
  sized := hn.sized
  factors := hn.factors
  policies := hps

theorem Holds.grows (hn : R.Holds n) : R.Grows n n := ⟨0, n.policies, rfl, hn⟩

theorem Holds.grows_later (hn : R.Holds n) {r : Registry} (hr : n.registry.Later r) :
    R.Grows n { n with registry := r } := by
  obtain ⟨k, rfl⟩ := hr
  exact ⟨k, n.policies, rfl, hn.advanced k hn.policies⟩

theorem Grows.trans (h : R.Grows n n') (h' : R.Grows n' n'') : R.Grows n n'' := by
  obtain ⟨j, ps, rfl, -⟩ := h
  obtain ⟨k, qs, rfl, hholds⟩ := h'
  exact ⟨j + k, qs, by simp [Network.advanced], hholds⟩

variable {m : Node} {p : Policy α} {f g : Factor α} {axes : Axes} {r : Registry}
  {evidence : List Observation} {query : List Variable} {target : Target}
  {observed : List (String × String)} {names : List String} {utility : Option String}

/-! ### Runs on the registry -/

section

variable (hn : R.Holds n)

include hn

theorem agree_policyFactor (hp : p ∈ n.policies) :
    Agree R.stops (fun _ => True) (fun f _ => R.base f.table ∧ f.axes ⊆ n.handles)
      (runFrom (@policyFactor α B₁ _ n p) r) (runFrom (@policyFactor α B₂ _ n p) r) := by
  refine Agree.check trivial fun m hm => ?_
  refine Agree.bind (Q := fun _ _ => True) (.of_run (fun _ _ _ => trivial) fun _ _ _ => trivial) ?_
  intro _ r _
  refine Agree.bind (Q := fun ms _ => ms.map (·.handle) = handlesOf n.nodes p.given)
    (.of_run (fun _ _ _ => trivial) fun ms _ h =>
      map_handle_of_forall₂ (returns_mapM_except.mp h).1) fun ms r hms => ?_
  have haxes : ms.map (·.handle) ++ [m.handle] = handlesOf n.nodes (p.given ++ [p.name]) := by
    have hname := map_handle_of_forall₂ (List.Forall₂.cons hm .nil)
    rw [hms, ← List.singleton_append, handlesOf, handlesOf, List.filterMap_append]
    exact congrArg _ hname
  have hsub : handlesOf n.nodes (p.given ++ [p.name]) ⊆ n.handles := by
    intro v hv
    obtain ⟨m, hm, -, rfl⟩ := (mem_handlesOf hn.compiled.declared.names).mp hv
    exact mem_handles.mpr ⟨m, hm, rfl⟩
  rw [haxes]
  refine (R.create _ (fun v hv => hn.compiled.arity_pos_handles (hsub hv)) (hn.sized.subset hsub)
    (hn.policies p hp) r).imp (fun _ => id) ?_
  rintro g _ ⟨hbase, hg⟩
  exact ⟨hbase, by rw [Factor.axes, hg]; exact hsub⟩

theorem agree_workingSet :
    Agree R.stops (fun _ => True) (fun fs _ => ∀ f ∈ fs, R.base f.table ∧ f.axes ⊆ n.handles)
      (runFrom (@workingSet α B₁ _ n) r) (runFrom (@workingSet α B₂ _ n) r) := by
  refine Agree.bind (.mapM (I := fun _ => True)
    (T := fun f => R.base f.table ∧ f.axes ⊆ n.handles) (fun p hp r _ => ?_) trivial) ?_
  · exact (agree_policyFactor hn hp).imp (fun _ => id) fun _ _ h => ⟨trivial, h⟩
  · rintro rules _ ⟨-, hrules⟩
    refine .pure fun f hf => ?_
    rcases List.mem_append.mp hf with hf | hf
    · exact ⟨hn.factors f hf, hn.compiled.axes_subset_handles hf⟩
    · exact hrules f hf

omit hn [Cell α] in
/-- A run on copies of a registry and of some factors. -/
theorem agree_run {β : Type} {E : Error → Prop} {x y : StepM α β} {fs : List (Factor α)}
    {P : Workspace α → Prop} {Q : β → Workspace α → Prop} {T : β → Prop}
    (h : Agree E P Q (runFrom x (.start r fs)) (runFrom y (.start r fs)))
    (hQ : ∀ b w, Q b w → T b) :
    Agree E (fun _ => True) (fun b _ => T b) (runFrom (Setting.run fs x) r)
      (runFrom (Setting.run fs y) r) := by
  change Agree _ _ _ ((runFrom x (.start r fs)).1, (runFrom x (.start r fs)).2.registry)
    ((runFrom y (.start r fs)).1, (runFrom y (.start r fs)).2.registry)
  revert h
  generalize runFrom x (.start r fs) = p
  generalize runFrom y (.start r fs) = q
  intro h
  cases h with
  | ok h => exact .ok (hQ _ _ h)
  | error h => exact .error trivial
  | stop h => exact .stop h

theorem agree_answer (hevidence : n.IsEvidence evidence) :
    Agree R.stops (fun _ => True) (fun f _ => R.base f.table)
      (runFrom (@answer α B₁ _ n evidence query target) r)
      (runFrom (@answer α B₂ _ n evidence query target) r) := by
  refine Agree.bind (agree_workingSet hn) fun fs r hfs => ?_
  refine Agree.check trivial fun s hs => ?_
  refine agree_run (R.agree_solve s (fun f hf => (hfs f hf).1) (fun o ho => ?_) query target)
    fun _ _ h => h
  refine hn.sized _ ?_
  obtain ⟨m, hm, -, hhandle⟩ := mem_states.mp (hevidence.subject o ho)
  exact mem_handles.mpr ⟨m, hm, hhandle⟩

omit hn in
theorem agree_rearrange (hf : R.base f.table) (hsized : axes.Sized sizes) :
    Agree R.stops (fun _ => True) (fun g _ => R.base g.table ∧ g.axes.ids = axes.ids)
      (runFrom (@Factor.rearrange α B₁ _ f axes) r) (runFrom (@Factor.rearrange α B₂ _ f axes) r) := by
  refine (R.rearrange hf hsized r).and_returns.imp (fun _ => id) ?_
  rintro g _ ⟨hg, hreturns⟩
  obtain ⟨-, rfl, -⟩ := @Factor.of_returns_rearrange α _ _ _ _ B₁ _ _ hreturns
  exact ⟨hg, Table.ids_rearrange (B := B₁) f.table axes⟩

/-- A table laid out over axes of the network. -/
theorem agree_conform (hnodup : axes.ids.Nodup) (hsub : axes ⊆ n.handles) (hf : R.base f.table)
    (name : String) :
    Agree R.stops (fun _ => True) (fun g _ => R.base g.table ∧ g.axes.ids = axes.ids)
      (runFrom (@conform α B₁ _ n name axes f) r) (runFrom (@conform α B₂ _ n name axes f) r) := by
  have hsized := hn.sized.subset hsub
  unfold conform
  cases f.axes.find? fun v => !Axes.mentions axes v with
  | some extra => exact .error trivial
  | none =>
      dsimp only
      split
      · exact agree_rearrange hf hsized
      · have hmissing : (axes.filter fun v => !f.mentions v) ⊆ n.handles :=
          List.Subset.trans List.filter_sublist.subset hsub
        refine Agree.bind (R.ones (Axes.nodup_ids_filter hnodup _)
          (fun v hv => hn.compiled.arity_pos_handles (hmissing hv)) (hn.sized.subset hmissing) r)
            fun ones r hones => ?_
        exact Agree.bind (R.foldAll .product
          (List.forall_mem_cons.mpr ⟨hf, List.forall_mem_singleton.mpr hones⟩) r) fun g r hg =>
            agree_rearrange hg hsized

theorem agree_policyOf {res : Resolved α} (hm : m ∈ n.nodes) (hdecision : res.decision = m.handle)
    (hcombined : R.base res.combined.table) (hrule : R.base res.rule.table) :
    Agree R.stops (fun _ => True)
      (fun p _ => R.fits (handlesOf n.nodes (p.given ++ [p.name])).count)
      (runFrom (@policyOf α B₁ _ n res) r) (runFrom (@policyOf α B₂ _ n res) r) := by
  have hcompiled := hn.compiled
  have hsub := hcompiled.family_subset hm
  have hnodup := hcompiled.nodup_family hm
  unfold policyOf
  rw [hdecision]
  cases hfind : n.nodes.findIdx? (·.handle.id == m.handle.id) with
  | none => exact .error trivial
  | some i =>
      obtain ⟨hlt, hid, -⟩ := List.findIdx?_eq_some_iff_getElem.mp hfind
      have hi : n.nodes[i]? = some m := by
        rw [List.getElem?_eq_getElem hlt]
        exact congrArg some (hcompiled.eq_of_id (List.getElem_mem hlt) hm (beq_iff_eq.mp hid))
      dsimp only
      rw [hi, hcompiled.handlesAt_parents hi, hcompiled.namesAt_parents hi]
      refine Agree.bind (agree_conform hn hnodup hsub hrule _) fun table r htable => ?_
      refine Agree.bind (agree_conform hn hnodup hsub hcombined _) fun expected r _ => .pure ?_
      change R.fits (handlesOf n.nodes (givenOf n.entries m.name ++ [m.name])).count
      rw [hcompiled.handlesOf_family hm,
        ← (R.sized htable.1).count_eq (hn.sized.subset hsub) (.of_eq htable.2)]
      exact R.fits_count htable.1

/-- Rules that are found in one build are found in the other one. -/
theorem agree_resolveAllBy {pick : Setting α → StepM.Pick α}
    (hpick : ∀ s d w, pick s d w ⊆ w.hidden s [] [] true) :
    Agree R.stops (fun _ => True)
      (fun ps _ => ∀ p ∈ ps, R.fits (handlesOf n.nodes (p.given ++ [p.name])).count)
      (runFrom (@resolveAllBy α _ B₁ pick n) r) (runFrom (@resolveAllBy α _ B₂ pick n) r) := by
  refine Agree.bind (agree_workingSet hn) fun fs r hfs => ?_
  refine Agree.check trivial fun s hs => ?_
  have hds := hn.compiled.decisionOrder_subset_handles hs
  refine Agree.bind (agree_run (R.agree_solveDecisionsBy s (hpick s) (fun f hf => (hfs f hf).1)
    hn.sized (fun f hf => (hfs f hf).2) hds) fun _ _ h => h) fun rs r hrs => ?_
  refine (Agree.mapM (I := fun _ => True) (fun res hres r _ => ?_) trivial).imp (fun _ => id)
    fun _ _ h => h.2
  obtain ⟨hdecision, hcombined, hrule⟩ := hrs res hres
  obtain ⟨m, hm, -, hhandle⟩ := hn.compiled.exists_decision hs hdecision
  exact (agree_policyOf hn hm hhandle.symm hcombined hrule).imp (fun _ => id)
    fun _ _ h => ⟨trivial, h⟩

end

/-! ### Answers -/

theorem agree_project (hf : R.base f.table) (haxes : axes.Sized sizes) :
    Agree R.stops (fun _ => True) (fun g _ => R.base g.table)
      (runFrom (@project α B₁ _ axes f) r) (runFrom (@project α B₂ _ axes f) r) := by
  refine Agree.bind (.foldlM (I := fun us (f : Factor α) _ => R.base f.table ∧
    Axes.Sized sizes us) ?_ ⟨hf, (R.sized hf).subset List.filter_sublist.subset⟩) ?_
  · rintro u us f r ⟨hf, hus⟩
    obtain ⟨hu, hus⟩ := Axes.sized_cons.mp hus
    exact (R.sumOut hf hu r).imp (fun _ => id) fun _ _ h => ⟨h, hus⟩
  · rintro projected r ⟨hprojected, -⟩
    cases axes.find? fun v => !projected.mentions v with
    | some v => exact .error trivial
    | none => exact R.rearrange hprojected haxes r

theorem agree_distribution (hf : R.base f.table) (v : Variable) :
    Agree R.stops (fun _ => True) (fun _ _ => True)
      (runFrom (@NetworkM.distribution α B₁ _ evidence f v) r)
      (runFrom (@NetworkM.distribution α B₂ _ evidence f v) r) := by
  unfold NetworkM.distribution
  cases evidence.find? (·.subject.id == v.id) with
  | some o => exact .pure trivial
  | none =>
      refine Agree.bind (R.marginal v hf r) fun g r _ => ?_
      exact .of_run (fun _ _ _ => trivial) fun _ _ _ => trivial

/-! ### Runs on the network -/

section

variable (hn : R.Holds n)

include hn

/-- A run on a copy of the registry. -/
theorem agree_solving {β : Type} {x y : RegistryM β} {T : β → Prop}
    (h : Agree R.stops (fun _ => True) (fun b _ => T b) (runFrom x n.registry)
      (runFrom y n.registry)) :
    Agree R.stops (fun _ => True) (fun b n' => T b ∧ R.Grows n n') (runFrom (NetworkM.solving x) n)
      (runFrom (NetworkM.solving y) n) := by
  change Agree _ _ _
    (match runFrom x n.registry with
      | (.ok result, registry) => (.ok result, { n with registry := n.registry.absorb registry })
      | (.error e, _) => (.error e, n))
    (match runFrom y n.registry with
      | (.ok result, registry) => (.ok result, { n with registry := n.registry.absorb registry })
      | (.error e, _) => (.error e, n))
  revert h
  generalize runFrom x n.registry = p
  generalize runFrom y n.registry = q
  intro h
  cases h with
  | @ok b r h => exact .ok ⟨h, hn.grows_later (.absorb n.registry r)⟩
  | error h => exact .error trivial
  | @stop e r q h => exact .stop h

/-- A step on the registry of the network. -/
theorem agree_onRegistry {β : Type} {x y : RegistryM β} {T : β → Prop}
    (hx : Keeps Registry.Later x)
    (h : Agree R.stops (fun _ => True) (fun b _ => T b) (runFrom x n.registry)
      (runFrom y n.registry)) :
    Agree R.stops (fun _ => True) (fun b n' => T b ∧ R.Grows n n')
      (runFrom (NetworkM.onRegistry x) n) (runFrom (NetworkM.onRegistry y) n) := by
  change Agree _ _ _
    ((runFrom x n.registry).1, { n with registry := (runFrom x n.registry).2 })
    ((runFrom y n.registry).1, { n with registry := (runFrom y n.registry).2 })
  have hlater := hx n.registry
  revert h hlater
  generalize runFrom x n.registry = p
  generalize runFrom y n.registry = q
  intro h hlater
  cases h with
  | ok h => exact .ok ⟨h, hn.grows_later hlater⟩
  | error h => exact .error trivial
  | stop h => exact .stop h

theorem agree_solvePoliciesBy {pick : Setting α → StepM.Pick α}
    (hpick : ∀ s d w, pick s d w ⊆ w.hidden s [] [] true) :
    Agree R.stops (fun _ => True) (fun _ => R.Grows n)
      (runFrom (@NetworkM.solvePoliciesBy α _ B₁ pick) n)
      (runFrom (@NetworkM.solvePoliciesBy α _ B₂ pick) n) := by
  have hclear : R.Holds (n.advanced 0 []) := hn.advanced 0 (by simp)
  refine Agree.after (returns_modify (u := ⟨⟩).mpr rfl) (Agree.get ?_)
  split
  · exact .pure ⟨0, [], rfl, hclear⟩
  · refine Agree.bind (agree_solving hclear (agree_resolveAllBy hclear hpick)) ?_
    rintro ps _ ⟨hps, k, qs, rfl, hholds⟩
    refine Agree.after (returns_modify (u := ⟨⟩).mpr rfl) (.pure ⟨k, ps, ?_, hn.advanced k hps⟩)
    simp [Network.advanced]

theorem agree_solvePolicies :
    Agree R.stops (fun _ => True) (fun _ => R.Grows n)
      (runFrom (@NetworkM.solvePolicies α B₁ _) n) (runFrom (@NetworkM.solvePolicies α B₂ _) n) :=
  agree_solvePoliciesBy hn fun s d w => (StepM.perm_heuristicPick s d w).subset

theorem agree_ensurePolicies :
    Agree R.stops (fun _ => True) (fun _ => R.Grows n)
      (runFrom (@NetworkM.ensurePolicies α B₁ _) n)
      (runFrom (@NetworkM.ensurePolicies α B₂ _) n) := by
  refine Agree.get ?_
  split
  · exact Agree.bind (agree_solvePolicies hn) fun _ _ h => .pure h
  · exact .pure hn.grows

theorem agree_ask :
    Agree R.stops (fun _ => True) (fun f n' => R.base f.table ∧ R.Grows n n')
      (runFrom (@NetworkM.ask α B₁ _ observed names target) n)
      (runFrom (@NetworkM.ask α B₂ _ observed names target) n) := by
  refine Agree.bind (agree_ensurePolicies hn) fun _ n₁ h₁ => ?_
  obtain ⟨k, ps, rfl, hn₁⟩ := h₁
  refine Agree.get (.check trivial fun evidence hevidence => .check trivial fun query hquery => ?_)
  have hvalid := (isEvidence_of_ok hn₁.compiled hevidence).1
  have hstates := (isQuery_of_ok hn₁.compiled (unobservedQuery_eq_ok hquery).1).subset
  refine Agree.bind (agree_solving hn₁ (agree_answer hn₁ hvalid)) fun f n₂ h₂ => ?_
  obtain ⟨hf, j, qs, rfl, hn₂⟩ := h₂
  have hsized : Axes.Sized sizes query := fun v hv =>
    hn.sized v (List.filter_sublist.subset (hstates hv))
  refine (agree_onRegistry hn₂ (@Keeps.project α B₁ _ query f) (agree_project hf hsized)).imp
    (fun _ => id) fun g n₃ h₃ => ⟨h₃.1, ?_⟩
  exact .trans ⟨k, ps, rfl, hn₁⟩ (.trans ⟨j, qs, rfl, hn₂⟩ h₃.2)

theorem agree_utilityFactor :
    Agree R.stops (fun _ => True) (fun f n' => R.base f.table ∧ R.Grows n n')
      (runFrom (@NetworkM.utilityFactor α B₁ _ observed names utility) n)
      (runFrom (@NetworkM.utilityFactor α B₂ _ observed names utility) n) :=
  Agree.get (.check trivial fun _ _ => agree_ask hn)

theorem agree_solveQuery :
    Agree R.stops (fun _ => True) (fun _ => R.Grows n)
      (runFrom (@NetworkM.solveQuery α B₁ _ observed names) n)
      (runFrom (@NetworkM.solveQuery α B₂ _ observed names) n) := by
  refine Agree.bind (agree_ensurePolicies hn) fun _ n₁ h₁ => ?_
  obtain ⟨k, ps, rfl, hn₁⟩ := h₁
  refine Agree.get (.check trivial fun evidence hevidence => .check trivial fun query hquery => ?_)
  have hvalid := (isEvidence_of_ok hn₁.compiled hevidence).1
  refine Agree.bind (agree_solving hn₁ (agree_answer hn₁ hvalid)) fun f n₂ h₂ => ?_
  obtain ⟨hf, j, qs, rfl, hn₂⟩ := h₂
  have hgrows : R.Grows n ((n.advanced k ps).advanced j qs) :=
    .trans ⟨k, ps, rfl, hn₁⟩ ⟨j, qs, rfl, hn₂⟩
  refine Agree.bind (.mapM (I := R.Grows n) (T := fun _ => True) (fun v _ n₃ h₃ => ?_) hgrows)
    fun _ _ h => .pure h.1
  obtain ⟨i, rs, rfl, hn₃⟩ := h₃
  refine (agree_onRegistry hn₃ (@Keeps.distribution α B₁ _ evidence f v)
    (agree_distribution hf v)).imp (fun _ => id) fun _ _ h₄ => ⟨?_, trivial⟩
  exact .trans ⟨i, rs, rfl, hn₃⟩ h₄.2

/-- The factor that an expected utility is read off is laid out over the variables asked for. -/
theorem agree_quotient :
    Agree R.stops (fun _ => True)
      (fun f n' => (R.base f.table ∧
        ∃ ms, List.Forall₂ (fun name m => n.node name = .ok m) names ms ∧
          f.axes.ids = Axes.ids (ms.map (·.handle))) ∧ R.Grows n n')
      (runFrom (@NetworkM.quotient α _ B₁ observed names utility) n)
      (runFrom (@NetworkM.quotient α _ B₂ observed names utility) n) := by
  refine Agree.bind (agree_utilityFactor hn) fun value n₁ h₁ => ?_
  obtain ⟨hvalue, k, ps, rfl, hn₁⟩ := h₁
  refine Agree.bind (agree_ask hn₁) fun probability n₂ h₂ => ?_
  obtain ⟨hprobability, j, qs, rfl, hn₂⟩ := h₂
  refine Agree.bind (agree_onRegistry (T := fun f => R.base f.table) hn₂ (.make _) ?_)
    fun inverse n₃ h₃ => ?_
  · refine .of_run (fun _ _ _ => trivial) fun f _ h => ?_
    obtain ⟨rfl, -⟩ := Factor.returns_make.mp h
    exact R.invert hprobability
  obtain ⟨hinverse, i, rs, rfl, hn₃⟩ := h₃
  refine Agree.bind (agree_onRegistry (T := fun f => R.base f.table) hn₃
    (@Keeps.foldAll α B₁ _ .product [value, inverse]) (R.foldAll .product (List.forall_mem_cons.mpr
      ⟨hvalue, List.forall_mem_singleton.mpr hinverse⟩) _)) fun expected n₄ h₄ => ?_
  obtain ⟨hexpected, l, ss, rfl, hn₄⟩ := h₄
  refine Agree.get (Agree.bind (Q := fun ms n' => List.Forall₂ (fun name m => n.node name = .ok m)
      names ms ∧ (((n.advanced k ps).advanced j qs).advanced i rs).advanced l ss = n')
    (.of_run (fun _ _ _ => trivial) fun _ _ h => returns_mapM_except.mp h) ?_)
  rintro ms _ ⟨hnodes, rfl⟩
  have hsized : Axes.Sized sizes (ms.map (·.handle)) := by
    refine hn.sized.subset fun v hv => ?_
    obtain ⟨m, hm, rfl⟩ := List.mem_map.mp hv
    obtain ⟨name, -, hnode⟩ := exists_left_of_mem hnodes hm
    exact mem_handles.mpr ⟨m, ((find_eq_ok_iff hn.compiled.declared.names).mp hnode).1, rfl⟩
  refine (agree_onRegistry hn₄ (@Keeps.rearrange α expected B₁ _ _) (agree_rearrange hexpected hsized)).imp
    (fun _ => id) fun f n₅ h₅ => ⟨⟨h₅.1.1, ms, hnodes, h₅.1.2⟩, ?_⟩
  exact .trans ⟨k, ps, rfl, hn₁⟩ (.trans ⟨j, qs, rfl, hn₂⟩ (.trans ⟨i, rs, rfl, hn₃⟩
    (.trans ⟨l, ss, rfl, hn₄⟩ h₅.2)))

theorem agree_solveUtility :
    Agree R.stops (fun _ => True) (fun _ => R.Grows n)
      (runFrom (@NetworkM.solveUtility α B₁ _ observed names utility) n)
      (runFrom (@NetworkM.solveUtility α B₂ _ observed names utility) n) := by
  rw [@NetworkM.solveUtility_eq α _ B₁, @NetworkM.solveUtility_eq α _ B₂]
  exact Agree.bind (agree_quotient hn) fun _ _ h => .pure h.2

theorem agree_expectedUtility :
    Agree R.stops (fun _ => True) (fun _ => R.Grows n)
      (runFrom (@NetworkM.expectedUtility α B₁ _ observed) n)
      (runFrom (@NetworkM.expectedUtility α B₂ _ observed) n) := by
  refine Agree.bind (agree_solveUtility hn) fun u _ h => ?_
  cases u.scalar? with
  | some value => exact .pure h
  | none => exact .error trivial

/-- **Questions are answered in the same way.** -/
theorem agree_call {c : Call α} (hc : c.IsQuestion) :
    Agree R.stops (fun _ => True) (fun _ => R.Grows n)
      (runFrom (@Call.run α B₁ _ c) n) (runFrom (@Call.run α B₂ _ c) n) := by
  cases c with
  | solveQuery observed names => exact .bind (agree_solveQuery hn) fun _ _ h => .pure h
  | solveUtility observed names utility => exact .bind (agree_solveUtility hn) fun _ _ h => .pure h
  | expectedUtility observed => exact .bind (agree_expectedUtility hn) fun _ _ h => .pure h
  | joint observed names => exact .bind (agree_ask hn) fun _ _ h => .pure h.2
  | utilityFactor observed names utility =>
      exact .bind (agree_utilityFactor hn) fun _ _ h => .pure h.2
  | solvePolicies => exact .bind (agree_solvePolicies hn) fun _ _ h => .pure h
  | clearPolicies | replaceTable name table => cases hc

end

end Regime

end Influence
