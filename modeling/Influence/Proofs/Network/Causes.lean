import Influence.Proofs.Network.Arguments
import Influence.Proofs.Network.Layouts
import Influence.Proofs.Network.Room

/-! # Why calls fail

No call reports a broken invariant, and a question fails exactly if its arguments make no sense, provided
that there is room for it (`Network.call_fails_iff`).

A network whose decisions can be resolved rests, after the first question, on rules of which every run
can make factors (`Network.Rests`).  From there on nothing but the checks on the arguments of a question
can fail: its answer keeps the axes of the query, so it can be laid out over them. -/

namespace Influence

section

open scoped Exact

variable {α : Type} [Cell α]

theorem Table.size_rearrange_nil {t : Table α} (ht : t.cells.size = t.axes.size) :
    (t.rearrange []).cells.size = 1 := by
  unfold Table.rearrange
  split
  next hids =>
    have hnil : t.axes = [] := List.map_eq_nil_iff.mp (beq_iff_eq.mp hids).symm
    rw [ht, hnil, Axes.size_nil]
  next => exact size_combine _ _ _

namespace Network

variable {f n : Network α} {ps : List (Policy α)} {s : Setting α} {evidence : List Observation}
  {query : List Variable} {target : Target} {r : Registry}

/-! ### Settled networks -/

/-- The network is a version of a fresh one that has no open decisions. -/
def Rests (f n : Network α) : Prop := ∃ ps k, f.IsSettled ps ∧ n = f.advanced k ps

/-- The decisions of the network can be resolved. -/
def IsSolvable (f : Network α) : Prop := ∃ ps, f.IsSettled ps

theorem Rests.isVersion (h : f.Rests n) : f.IsVersion n := by
  obtain ⟨ps, k, hps, rfl⟩ := h
  exact ⟨k, ps, .inr hps, rfl⟩

theorem Rests.isSolvable (h : f.Rests n) : f.IsSolvable :=
  let ⟨ps, _, hps, _⟩ := h
  ⟨ps, hps⟩

omit [Cell α] in
theorem IsFitting.advanced {d : Variable} {p : Policy α} (h : f.IsFitting d p) (k : ℕ)
    (ps : List (Policy α)) : (f.advanced k ps).IsFitting d p :=
  ⟨h.isFor, h.table, h.expectedUtility⟩

omit [Cell α] in
theorem exists_absorb_advanced (f : Network α) (k : ℕ) (ps : List (Policy α)) (r : Registry) :
    ∃ j, { f.advanced k ps with registry := (f.registry.after k).absorb r } = f.advanced j ps := by
  obtain ⟨j, hj⟩ := absorb_after f.registry r k
  exact ⟨j, congrArg (fun r => { f with registry := r, policies := ps }) hj⟩

/-- A network with settled rules answers every question, and keeps the axes of the query. -/
theorem IsSettled.exists_returns_answer (hf : f.Fresh) (h : f.IsSettled ps)
    (hevidence : f.IsEvidence evidence) (query : List Variable) (target : Target) (k : ℕ) :
    ∃ a r', Returns ((f.advanced k ps).answer evidence query target) (f.advanced k ps).registry a r' ∧
      a.axes.ids.Nodup ∧ ∀ v ∈ query, v ∈ f.states →
        v.id ∉ Axes.ids (evidence.map (·.subject)) → a.mentions v := by
  have hn : (f.advanced k ps).Compiled :=
    hf.compiled.update (r := f.registry.after k) rfl (Nat.le_add_right _ k) ps
  obtain ⟨s, hs⟩ := hf.compiled.exists_setting
  obtain ⟨fs, r', hset⟩ := exists_returns_workingSet hn hs (r := f.registry.after k) rfl
    ((h.isFitting hf hs).imp fun _ _ h => h.advanced k ps)
  have hlater : (f.advanced k ps).registry.Later (f.advanced k ps).registry := .refl _
  obtain ⟨hnumbered, htables, hdistinct, -⟩ := returns_workingSet hn hlater hset
  obtain ⟨a, w, hsolve, hnodup, hmentions⟩ := (StepM.leads_solve hnumbered
    (by rwa [htables]) s hevidence.outcome query target).exists_returns
  refine ⟨a, w.registry, ?_, hnodup, fun v hv hstate hfree => ?_⟩
  · unfold answer
    simp only [returns_bind, returns_except, Setting.returns_run]
    exact ⟨fs, r', hset, s, r', ⟨hs, rfl⟩, w, hsolve, rfl⟩
  · have hfor : ∀ d ∈ f.dependencies.decisions, ∃ p ∈ ps, f.IsFor d p := h.isFor hf
    exact hmentions v hv hfree (hasTable_of_workingSet hn hlater hfor hset hstate)

theorem exists_returns_distribution {f : Factor α} {v : Variable}
    (hv : v.id ∉ Axes.ids (evidence.map (·.subject)) → f.mentions v) (r : Registry) :
    ∃ ds k, Returns (NetworkM.distribution evidence f v) r ds (r.after k) := by
  unfold NetworkM.distribution
  cases hfind : evidence.find? (·.subject.id == v.id) with
  | some o => exact ⟨_, 0, returns_pure.mpr ⟨rfl, rfl⟩⟩
  | none =>
      have hfree : v.id ∉ Axes.ids (evidence.map (·.subject)) := by
        intro hid
        obtain ⟨_, hu, hid⟩ := Axes.mem_ids.mp hid
        obtain ⟨o, ho, rfl⟩ := List.mem_map.mp hu
        exact List.find?_eq_none.mp hfind o ho (by simpa using hid)
      refine ⟨(f.table.marginal v).normalize.cells.toList, 1 + 1,
        returns_bind.mpr ⟨_, _, Factor.returns_marginal.mpr ⟨hv hfree, rfl, rfl⟩, ?_⟩⟩
      rw [← Registry.after_after]
      exact returns_bind.mpr ⟨_, _, Factor.returns_make.mpr ⟨rfl, rfl⟩, returns_pure.mpr ⟨rfl, rfl⟩⟩

end Network

namespace Ends

open Network

variable {f n : Network α} {ps : List (Policy α)} {β γ : Type} {observed : List (String × String)}
  {names : List String} {utility : Option String} {evidence : List Observation}
  {query : List Variable} {E : Error → Prop}

omit [Cell α] in
theorem solving {R : β → Registry → Prop} {x : RegistryM β} (h : Ends E R (runFrom x n.registry)) :
    Ends E (fun b n' => ∃ r, R b r ∧ n' = { n with registry := n.registry.absorb r })
      (runFrom (NetworkM.solving x) n) := by
  change Ends _ _ (match runFrom x n.registry with
    | (.ok result, registry) => (.ok result, { n with registry := n.registry.absorb registry })
    | (.error e, _) => (.error e, n))
  revert h
  generalize runFrom x n.registry = p
  intro h
  cases h with
  | ok h => exact .ok ⟨_, h, rfl⟩
  | error h => exact .error h

omit [Cell α] in
theorem onNetwork {R : β → Prop} {x : RegistryM β} {j : ℕ}
    (h : ∃ b k, Returns x (f.registry.after j) b ((f.registry.after j).after k) ∧ R b) :
    Ends E (fun b n => R b ∧ ∃ k, n = f.advanced k ps)
      (runFrom (NetworkM.onRegistry x) (f.advanced j ps)) := by
  obtain ⟨b, k, hx, hb⟩ := h
  refine of_returns (NetworkM.returns_onRegistry.mpr ⟨_, hx, rfl⟩) ⟨hb, j + k, ?_⟩
  rw [Registry.after_after]
  rfl

/-- The decisions are resolved, or one of them has no rule or a rule that depends on something
unobserved. -/
theorem solvePolicies (hf : f.Fresh) (h : f.IsVersion n) :
    Ends (fun e => (e.family = .noSolution ∨ e.family = .validation) ∧ ¬f.IsSolvable)
      (fun _ n' => f.Rests n') (runFrom NetworkM.solvePolicies n) := by
  obtain ⟨k, ps, -, rfl⟩ := h
  unfold NetworkM.solvePolicies NetworkM.clearPolicies
  refine bind (of_returns (returns_modify (u := ()).mpr rfl) (R := fun _ n => n = f.advanced k [])
    rfl) ?_
  rintro _ _ rfl
  refine get ?_
  by_cases hempty : f.dependencies.isEmpty
  · rw [if_pos (show (f.advanced k []).dependencies.isEmpty from hempty)]
    exact pure ⟨[], k, .inl ⟨hempty, rfl⟩, rfl⟩
  rw [if_neg (show ¬(f.advanced k []).dependencies.isEmpty from hempty), hf.resolveAll_advanced]
  obtain ⟨s, hs⟩ := hf.compiled.exists_setting
  have hlater : f.registry.Later (f.registry.after k) := ⟨k, rfl⟩
  have hresolve := (resolveAll hf.compiled hf.policies hlater hs).and_returns
  have hcause : Ends (fun e => (e.family = .noSolution ∨ e.family = .validation) ∧ ¬f.IsSolvable)
      (fun ps _ => f.Finds ps) (runFrom f.resolveAll (f.registry.after k)) := by
    by_cases hfound : ∃ ps, f.Finds ps
    · obtain ⟨ps, hps⟩ := hfound
      obtain ⟨r, hr⟩ := hps.returns hf k
      exact of_returns hr hps
    · refine hresolve.imp (fun e he => ⟨he, ?_⟩) fun ps r h => ⟨k, r, h.2⟩
      rintro ⟨ps, ⟨hnone, -⟩ | ⟨-, hps⟩⟩
      · exact hempty hnone
      · exact hfound ⟨ps, hps⟩
  refine bind (solving hcause) ?_
  rintro ps _ ⟨r, hps, rfl⟩
  refine bind (of_returns (returns_modify (u := ()).mpr rfl)
    (R := fun _ n => ∃ j, n = f.advanced j ps) ?_) ?_
  · obtain ⟨j, hj⟩ := exists_absorb_advanced f k ps r
    exact ⟨j, hj⟩
  · rintro _ _ ⟨j, rfl⟩
    exact pure ⟨ps, j, .inr ⟨hempty, hps⟩, rfl⟩

theorem ensurePolicies (hf : f.Fresh) (h : f.IsVersion n) :
    Ends (fun e => e.Refuses f.IsSolvable) (fun _ n' => f.Rests n')
      (runFrom NetworkM.ensurePolicies n) := by
  have hsolve := solvePolicies hf h
  obtain ⟨k, ps, hps, rfl⟩ := h
  rw [Lockstep.runFrom_ensurePolicies]
  split
  · refine bind (hsolve.imp (fun e he => ?_) fun _ _ => id) fun _ _ h => pure h
    rcases he.1 with hfamily | hfamily <;> exact Error.refuses_of_family he.2 (by simp [hfamily])
  next hcondition =>
    refine .ok ⟨ps, k, ?_, rfl⟩
    rw [Bool.and_eq_true, not_and, Bool.not_eq_true'] at hcondition
    rcases hps with rfl | hps
    · cases hempty : f.dependencies.isEmpty with
      | true => exact .inl ⟨hempty, rfl⟩
      | false => exact absurd rfl (hcondition hempty)
    · exact hps

/-! ### Questions -/

theorem solvingAnswer (hf : f.Fresh) {k : ℕ} (hps : f.IsSettled ps)
    (hevidence : f.evidence observed = .ok evidence) (query : List Variable) (target : Target) :
    Ends E (fun a n => (a.axes.ids.Nodup ∧ ∀ v ∈ query, v ∈ f.states →
        v.id ∉ Axes.ids (evidence.map (·.subject)) → a.mentions v) ∧ ∃ j, n = f.advanced j ps)
      (runFrom (NetworkM.solving ((f.advanced k ps).answer evidence query target))
        (f.advanced k ps)) := by
  obtain ⟨a, r, hanswer, ha⟩ := hps.exists_returns_answer hf
    (isEvidence_of_ok hf.compiled hevidence).1 query target k
  obtain ⟨j, hj⟩ := exists_absorb_advanced f k ps r
  exact of_returns (NetworkM.returns_solving.mpr ⟨r, hanswer, rfl⟩) ⟨ha, j, hj⟩

/-- **A question about variables that are not observed fails exactly for its arguments.** -/
theorem ask (hf : f.Fresh) (h : f.IsVersion n) (observed : List (String × String))
    (names : List String) (target : Target) :
    Ends (fun e => e.Refuses (f.IsSolvable ∧ f.CanAsk observed names))
      (fun a n' => f.Rests n' ∧ f.CanAsk observed names ∧
        ∃ query, f.query names = .ok query ∧ a.axes.ids = Axes.ids query)
      (runFrom (NetworkM.ask observed names target) n) := by
  have hn := hf.compiled
  unfold NetworkM.ask
  refine bind ((ensurePolicies hf h).imp (fun _ he => he.imp (·.1)) fun _ _ => id) ?_
  rintro _ _ ⟨ps, k, hps, rfl⟩
  refine get (check (z := f.evidence observed) (fun e he => ?_) fun evidence hevidence => ?_)
  · exact (refuses_of_evidence hn he).imp (·.2.evidence)
  refine check (z := f.unobservedQuery evidence names) (fun e he => ?_) fun query hquery => ?_
  · exact (refuses_of_unobservedQuery hn hevidence he).imp (·.2)
  have hask := canAsk_of_ok hn hevidence hquery
  obtain ⟨hnamed, hfree⟩ := unobservedQuery_eq_ok hquery
  have hq := isQuery_of_ok hn hnamed
  refine bind (solvingAnswer hf hps hevidence query target) ?_
  rintro a _ ⟨⟨hnodup, hmentions⟩, j, rfl⟩
  have hsub : Axes.ids query ⊆ a.axes.ids := by
    intro id hid
    obtain ⟨v, hv, rfl⟩ := Axes.mem_ids.mp hid
    exact Table.mentions_iff.mp (hmentions v hv (hq.subset hv) (hfree v hv))
  obtain ⟨g, l, t, hproject, htable, -, -⟩ :=
    exists_returns_sumOut_rearrange hnodup hq.nodup hsub (f.registry.after j)
  refine (onNetwork ⟨g, l, hproject, ?_⟩).imp (fun _ => id) fun g n h =>
    ⟨⟨ps, h.2.choose, hps, h.2.choose_spec⟩, hask, query, hnamed, h.1⟩
  rw [Factor.axes, htable]
  exact Table.ids_rearrange t query

theorem utilityFactor (hf : f.Fresh) (h : f.IsVersion n) (observed : List (String × String))
    (names : List String) (utility : Option String) :
    Ends (fun e => e.Refuses (f.IsSolvable ∧ f.CanAsk observed names ∧ f.HasTerm utility))
      (fun a n' => f.Rests n' ∧ (f.CanAsk observed names ∧ f.HasTerm utility) ∧
        ∃ query, f.query names = .ok query ∧ a.axes.ids = Axes.ids query)
      (runFrom (NetworkM.utilityFactor observed names utility) n) := by
  have hask := fun target => ask hf h observed names target
  obtain ⟨k, ps, -, rfl⟩ := h
  unfold NetworkM.utilityFactor
  refine get (check (z := f.utilityTarget utility) (fun e he => ?_) fun target htarget => ?_)
  · exact (refuses_of_utilityTarget hf.compiled he).imp (·.2.2)
  · have hterm := hasTerm_of_ok hf.compiled htarget
    exact (hask target).imp (fun e he => he.imp fun hall => ⟨hall.1, hall.2.1⟩) fun a n h =>
      ⟨h.1, ⟨h.2.1, hterm⟩, h.2.2⟩

theorem quotient {value inverse : Factor α} (hquery : (Axes.ids query).Nodup)
    (hvalue : value.axes.ids = Axes.ids query) (hinverse : inverse.axes.ids = Axes.ids query)
    (g : Factor α) (hg : g.table = .product [value.table, inverse.table]) (r : Registry) :
    ∃ a, Returns (g.rearrange query) r a (r.after 1) ∧ a.table = g.table.rearrange query := by
  have hnodup : g.axes.ids.Nodup := by
    rw [Factor.axes, hg]
    refine Table.nodup_foldAll ?_
    simpa using ⟨hvalue ▸ hquery, hinverse ▸ hquery⟩
  refine ⟨_, Factor.returns_rearrange.mpr ⟨?_, rfl, rfl⟩, rfl⟩
  refine (Factor.isOrder_iff hnodup).mpr ((List.perm_ext_iff_of_nodup hquery hnodup).mpr fun id => ?_)
  rw [Factor.axes, hg, Table.product, Table.mem_ids_foldAll, ← hvalue]
  have : inverse.table.axes.ids = value.table.axes.ids := hinverse.trans hvalue.symm
  simp [this, Factor.axes]

/-- **A question about the expected utility fails exactly for its arguments.** -/
theorem solveUtility (hf : f.Fresh) (h : f.IsVersion n) (observed : List (String × String))
    (names : List String) (utility : Option String) :
    Ends (fun e => e.Refuses (f.IsSolvable ∧ f.CanAsk observed names ∧ f.HasTerm utility))
      (fun u n' => f.Rests n' ∧ (f.CanAsk observed names ∧ f.HasTerm utility) ∧
        u.names = names ∧ (names = [] → u.values ≠ []))
      (runFrom (NetworkM.solveUtility observed names utility) n) := by
  unfold NetworkM.solveUtility
  refine bind (utilityFactor hf h observed names utility) ?_
  rintro value _ ⟨hrests, hargs, query, hquery, hvalue⟩
  -- what holds of the arguments of the first question holds of those of the second one
  refine bind ((ask hf hrests.isVersion observed names .probability).imp (fun e he =>
    absurd ⟨hrests.isSolvable, hargs.1⟩ he.refused) fun _ _ => id) ?_
  rintro probability _ ⟨⟨ps, k, hps, rfl⟩, -, query', hquery', hprobability⟩
  obtain rfl : query' = query := Except.ok.inj (hquery'.symm.trans hquery)
  have hq := isQuery_of_ok hf.compiled hquery
  obtain ⟨ms, hms, hhandles⟩ := exists_nodes_of_query hquery
  refine bind (onNetwork (R := fun g => g.table = probability.table.invert)
    ⟨_, 1, Factor.returns_make.mpr ⟨rfl, rfl⟩, rfl⟩) ?_
  rintro inverse _ ⟨hinverse, j, rfl⟩
  refine bind (onNetwork (R := fun g => g.table = .product [value.table, inverse.table])
    ⟨_, 1, Factor.returns_make.mpr ⟨rfl, rfl⟩, rfl⟩) ?_
  rintro expected _ ⟨hexpected, l, rfl⟩
  refine get ?_
  have hinverse' : inverse.axes.ids = Axes.ids query' := by
    rw [Factor.axes, hinverse]
    exact hprobability
  obtain ⟨a, ha, htable⟩ :=
    quotient hq.nodup hvalue hinverse' expected hexpected (f.registry.after l)
  refine bind (of_returns (returns_mapM_except.mpr ⟨hms, rfl⟩)
    (R := fun nodes n => nodes = ms ∧ n = f.advanced l ps) ⟨rfl, rfl⟩) ?_
  rintro _ _ ⟨rfl, rfl⟩
  rw [hhandles]
  refine bind (onNetwork (R := fun g => g.table = expected.table.rearrange query')
    ⟨a, 1, ha, htable⟩) ?_
  rintro result _ ⟨hresult, l', rfl⟩
  refine pure ⟨⟨ps, l', hps, rfl⟩, hargs, rfl, ?_⟩
  rintro rfl
  obtain rfl : [] = query' := Except.ok.inj hquery
  have hone := Table.size_rearrange_nil (t := .product [value.table, inverse.table])
    (size_combine _ _ _)
  intro hnil
  rw [Factor.cells, hresult, hexpected] at hnil
  have hnone := congrArg List.length hnil
  rw [Array.length_toList, hone] at hnone
  cases hnone

theorem expectedUtility (hf : f.Fresh) (h : f.IsVersion n) (observed : List (String × String)) :
    Ends (fun e => e.Refuses (f.IsSolvable ∧ f.CanAsk observed [] ∧ f.HasTerm none))
      (fun _ n' => f.Rests n' ∧ f.CanAsk observed [] ∧ f.HasTerm none)
      (runFrom (NetworkM.expectedUtility observed) n) := by
  unfold NetworkM.expectedUtility
  refine bind (solveUtility hf h observed [] none) ?_
  rintro ⟨names, values⟩ n ⟨hrests, hargs, rfl, hvalues⟩
  obtain ⟨x, xs, rfl⟩ := List.exists_cons_of_ne_nil (hvalues rfl)
  exact pure ⟨hrests, hargs⟩

/-- **A question about variables fails exactly for its arguments.** -/
theorem solveQuery (hf : f.Fresh) (h : f.IsVersion n) (observed : List (String × String))
    (names : List String) :
    Ends (fun e => e.Refuses (f.IsSolvable ∧ f.Admits observed ∧ f.CanQuery names))
      (fun _ n' => f.Rests n' ∧ f.Admits observed ∧ f.CanQuery names)
      (runFrom (NetworkM.solveQuery observed names) n) := by
  have hn := hf.compiled
  unfold NetworkM.solveQuery
  refine bind ((ensurePolicies hf h).imp (fun _ he => he.imp (·.1)) fun _ _ => id) ?_
  rintro _ _ ⟨ps, k, hps, rfl⟩
  refine get (check (z := f.evidence observed) (fun e he => ?_) fun evidence hevidence => ?_)
  · exact (refuses_of_evidence hn he).imp (·.2.1)
  refine check (z := f.query names) (fun e he => ?_) fun query hquery => ?_
  · exact (refuses_of_query hn he).imp (·.2.2)
  have hargs : f.Admits observed ∧ f.CanQuery names :=
    ⟨(exists_evidence_iff hn).mp ⟨_, hevidence⟩, (exists_query_iff hn).mp ⟨_, hquery⟩⟩
  have hstates := (isQuery_of_ok hn hquery).subset
  refine bind (solvingAnswer hf hps hevidence _ .probability) ?_
  rintro joint _ ⟨⟨-, hmentions⟩, j, rfl⟩
  have hstep : ∀ v vs n, (v :: vs ⊆ query ∧ ∃ j, n = f.advanced j ps) →
      Ends (fun e => e.Refuses (f.IsSolvable ∧ f.Admits observed ∧ f.CanQuery names))
        (fun _ n' => True ∧ vs ⊆ query ∧ ∃ j, n' = f.advanced j ps)
        (runFrom (NetworkM.onRegistry (NetworkM.distribution evidence joint v)) n) := by
    rintro v vs _ ⟨hsub, j, rfl⟩
    obtain ⟨hv, hvs⟩ := List.cons_subset.mp hsub
    refine (onNetwork (R := fun _ => True) ?_).imp (fun _ => id) fun _ _ h => ⟨trivial, hvs, h.2⟩
    have hmention : v.id ∉ Axes.ids (evidence.map (·.subject)) → joint.mentions v := by
      intro hfree
      refine hmentions v (List.mem_filter.mpr ⟨hv, ?_⟩) (hstates hv) hfree
      rwa [Bool.not_eq_true', Axes.mentions_eq_false_iff]
    obtain ⟨ds, l, hds⟩ := exists_returns_distribution hmention (f.registry.after j)
    exact ⟨ds, l, hds, trivial⟩
  refine bind (mapM (W := fun vs n => vs ⊆ query ∧ ∃ j, n = f.advanced j ps)
    (V := fun _ _ => True) hstep ⟨List.Subset.refl _, j, rfl⟩) ?_
  rintro distributions _ ⟨-, -, j, rfl⟩
  exact pure ⟨⟨ps, j, hps, rfl⟩, hargs⟩

theorem replaceTable [Build] (name : String) (table : List α) :
    Ends (fun e => e.family ≠ .internal) (fun _ _ => True)
      (runFrom (NetworkM.replaceTable name table) n) := by
  unfold NetworkM.replaceTable
  refine get ?_
  cases entryOf? n.entries name with
  | none =>
      dsimp only
      split
      · exact throw nofun
      · exact throw nofun
  | some entry =>
      refine guard (fun _ => nofun) fun _ => ?_
      refine check (fun e he => family_of_compile he) fun g _ => ?_
      exact of_returns (returns_set (u := ()).mpr rfl) trivial

end Ends

/-! ### Calls -/

namespace Network

variable {f n m : Network α} {c : Call α} {e : Error}

/-- The arguments of a question make sense for the network. -/
def Meets (n : Network α) : Call α → Prop
  | .solveQuery observed names => n.Admits observed ∧ n.CanQuery names
  | .joint observed names => n.CanAsk observed names
  | .utilityFactor observed names utility => n.CanAsk observed names ∧ n.HasTerm utility
  | .solveUtility observed names utility => n.CanAsk observed names ∧ n.HasTerm utility
  | .expectedUtility observed => n.CanAsk observed [] ∧ n.HasTerm none
  | _ => True

end Network

namespace Ends

open Network

variable {f n : Network α}

/-- **A question fails exactly if the decisions cannot be resolved or its arguments make no sense.** -/
theorem question (hf : f.Fresh) (h : f.IsVersion n) {c : Call α} (hc : c.IsQuestion) :
    Ends (fun e => e.Refuses (f.IsSolvable ∧ f.Meets c)) (fun _ _ => f.IsSolvable ∧ f.Meets c)
      (runFrom c.run n) := by
  cases c with
  | solveQuery observed names =>
      exact bind (solveQuery hf h observed names) fun _ _ h => pure ⟨h.1.isSolvable, h.2⟩
  | joint observed names =>
      exact bind (ask hf h observed names .probability) fun _ _ h => pure ⟨h.1.isSolvable, h.2.1⟩
  | utilityFactor observed names utility =>
      exact bind (utilityFactor hf h observed names utility) fun _ _ h => pure ⟨h.1.isSolvable, h.2.1⟩
  | solveUtility observed names utility =>
      exact bind (solveUtility hf h observed names utility) fun _ _ h => pure ⟨h.1.isSolvable, h.2.1⟩
  | expectedUtility observed =>
      exact bind (expectedUtility hf h observed) fun _ _ h => pure ⟨h.1.isSolvable, h.2⟩
  | solvePolicies =>
      refine bind ((solvePolicies hf h).imp (fun e he => ?_) fun _ _ => id) fun _ _ h =>
        pure ⟨h.isSolvable, trivial⟩
      refine Error.refuses_of_family (fun hsolvable => he.2 hsolvable.1) ?_
      rcases he.1 with he | he <;> simp [he]
  | clearPolicies => cases hc
  | replaceTable name table => cases hc

end Ends

namespace Network

variable {f n m : Network α} {c : Call α} {e : Error}

omit [Cell α] in
/-- Which arguments make sense does not change with the calls. -/
theorem meets_advanced (k : ℕ) (ps : List (Policy α)) : (f.advanced k ps).Meets c ↔ f.Meets c := by
  have hadmits : ∀ observed, (f.advanced k ps).Admits observed ↔ f.Admits observed := fun observed =>
    ⟨fun h => ⟨h.outcome, h.agree⟩, fun h => ⟨h.outcome, h.agree⟩⟩
  have hquery : ∀ names, (f.advanced k ps).CanQuery names ↔ f.CanQuery names := fun names =>
    ⟨fun h => ⟨h.distinct, h.state⟩, fun h => ⟨h.distinct, h.state⟩⟩
  have hask : ∀ observed names, (f.advanced k ps).CanAsk observed names ↔ f.CanAsk observed names :=
    fun observed names =>
      ⟨fun h => ⟨(hadmits _).mp h.evidence, (hquery _).mp h.query, h.unobserved⟩,
        fun h => ⟨(hadmits _).mpr h.evidence, (hquery _).mpr h.query, h.unobserved⟩⟩
  cases c with
  | solveQuery observed names => exact and_congr (hadmits _) (hquery _)
  | joint observed names => exact hask _ _
  | utilityFactor observed names utility => exact and_congr_left fun _ => hask _ _
  | solveUtility observed names utility => exact and_congr_left fun _ => hask _ _
  | expectedUtility observed => exact and_congr_left fun _ => hask _ _
  | solvePolicies => exact .rfl
  | clearPolicies => exact .rfl
  | replaceTable name table => exact .rfl

/-- A question to a version of a network succeeds if the decisions can be resolved and its arguments make sense. -/
theorem Fresh.exists_call_iff (hf : f.Fresh) (h : f.IsVersion n) (hc : c.IsQuestion) :
    (∃ a, n.call c = .ok a) ↔ f.IsSolvable ∧ n.Meets c := by
  have hends := Ends.question hf h hc
  obtain ⟨k, ps, -, rfl⟩ := h
  rw [exists_call_eq_ok, meets_advanced]
  exact (hends.imp (fun _ he => he.refused) fun _ _ => id).isOk_iff

end Network

end

namespace Network

variable {α : Type} [Cell α] {m : Network α} {c : Call α} {e : Error}

end Network

end Influence
