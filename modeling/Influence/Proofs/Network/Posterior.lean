import Influence.Proofs.Network.Answer
import Influence.Proofs.Table.Marginal

/-! # Joint distributions and posteriors

Read off the tables, `probability` adds up the products of the chance tables and the rules over all
states that agree with an assignment on some variables.  `IsJoint` says what the joint distribution of
a query and the evidence is, and `posterior` what the distribution of a variable given the evidence
is.

`exists_returns_joint_and_solveQuery`: the questions to a compiled network return just that. -/

namespace Influence.Network

open scoped Exact

variable {n n' m : Network ℚ} {s : Setting ℚ} {evidence : List Observation} {query : List Variable}
  {observed : List (String × String)} {names : List String} {f : Factor ℚ} {v : Variable}
  {vars fixed fixed' : Axes} {x : Assignment} {r : Registry}

/-- The probability of all states that agree with an assignment on some variables. -/
def probability (n : Network ℚ) (fixed : Axes) : Assignment → ℚ :=
  Axes.sumOver (n.states.filter fun v => !Axes.mentions fixed v) fun x =>
    n.chance x * Tables.weight n.rules x

/-- The factor is the joint probability of a query and the evidence, up to the order of its axes. -/
structure IsJoint (n : Network ℚ) (evidence : List Observation) (query : List Variable)
    (f : Factor ℚ) : Prop where
  fits : f.table.Fits n.sizes
  axes : ∀ id, id ∈ f.axes.ids ↔ id ∈ Axes.ids query
  value : ∀ x : Assignment, x.Valid n.sizes → f.table.valueAt x =
    n.probability (query ++ evidence.map (·.subject)) (x.observing evidence)

/-- The distribution of a variable given the evidence.  An observed variable has its observation for
certain.  The probabilities of the outcomes of another one are divided by that of the evidence, unless
that is zero. -/
def posterior (n : Network ℚ) (evidence : List Observation) (v : Variable) : List ℚ :=
  match evidence.find? (·.subject.id == v.id) with
  | some o => NetworkM.certain v o.outcome
  | none =>
    let start : Assignment := fun _ => 0
    let cells := (List.range v.arity).map fun k =>
      n.probability (v :: evidence.map (·.subject)) ((start.set v k).observing evidence)
    let total := n.probability (evidence.map (·.subject)) (start.observing evidence)
    if total = 0 then cells else cells.map (· / total)

theorem integral_one (n : Network ℚ) (fixed : Axes) :
    n.integral (fun _ => 1) fixed = n.probability fixed := by
  unfold integral probability
  simp only [mul_one]

/-- Adding up over some of the fixed variables leaves the others fixed. -/
theorem Compiled.sumOver_unfixed (hn : n.Compiled) (hvars : vars.Sized n.sizes)
    (hnodup : vars.ids.Nodup) (hsub : vars.ids ⊆ n.states.ids)
    (hfixed : ∀ id, id ∈ fixed.ids ↔ id ∈ vars.ids ∨ id ∈ fixed'.ids)
    (hfree : ∀ id ∈ vars.ids, id ∉ fixed'.ids) (F : Assignment → ℚ) (x : Assignment) :
    Axes.sumOver vars (Axes.sumOver (n.states.filter fun v => !Axes.mentions fixed v) F) x =
      Axes.sumOver (n.states.filter fun v => !Axes.mentions fixed' v) F x := by
  have hsized : ∀ fixed : Axes,
      Axes.Sized n.sizes (n.states.filter fun v => !Axes.mentions fixed v) := fun _ =>
    hn.sized_states.subset List.filter_sublist.subset
  have hunion : (Axes.ids (vars ++ n.states.filter fun v => !Axes.mentions fixed v)).Nodup := by
    rw [Axes.ids_append, List.nodup_append]
    refine ⟨hnodup, Axes.nodup_ids_filter hn.nodup_states _, ?_⟩
    rintro id hid _ hid' rfl
    exact (Axes.mem_ids_filter_mentions.mp hid').2 ((hfixed id).mpr (.inl hid))
  rw [← Axes.sumOver_append]
  refine Axes.sumOver_perm_ids (fun v hv => (List.mem_append.mp hv).elim (hvars v) (hsized fixed v))
    (hsized fixed') ?_ hunion _ x
  refine (List.perm_ext_iff_of_nodup hunion
    (Axes.nodup_ids_filter hn.nodup_states _)).mpr fun id => ?_
  rw [Axes.ids_append, List.mem_append, Axes.mem_ids_filter_mentions,
    Axes.mem_ids_filter_mentions, hfixed]
  constructor
  · rintro (hid | ⟨hid, hout⟩)
    · exact ⟨hsub hid, hfree id hid⟩
    · exact ⟨hid, fun h => hout (.inr h)⟩
  · rintro ⟨hid, hout⟩
    by_cases hmem : id ∈ vars.ids
    · exact .inl hmem
    · exact .inr ⟨hid, fun h => h.elim hmem hout⟩

theorem Compiled.sumOver_probability (hn : n.Compiled) (hvars : vars.Sized n.sizes)
    (hnodup : vars.ids.Nodup) (hsub : vars.ids ⊆ n.states.ids)
    (hfixed : ∀ id, id ∈ fixed.ids ↔ id ∈ vars.ids ∨ id ∈ fixed'.ids)
    (hfree : ∀ id ∈ vars.ids, id ∉ fixed'.ids) (x : Assignment) :
    Axes.sumOver vars (n.probability fixed) x = n.probability fixed' x :=
  hn.sumOver_unfixed hvars hnodup hsub hfixed hfree _ x

/-! ### Posteriors -/

/-- The cells of a marginal of the joint probability are the probabilities of the outcomes with the
evidence. -/
theorem IsJoint.cells_marginal (hjoint : n.IsJoint evidence query f) (hn : n.Compiled)
    (hquery : n.IsQuery query)
    (hunobserved : ∀ v ∈ query, v.id ∉ Axes.ids (evidence.map (·.subject))) (hv : v ∈ query)
    (hx : x.Valid n.sizes) : (f.table.marginal v).cells.toList = (List.range v.arity).map fun k =>
      n.probability (v :: evidence.map (·.subject)) ((x.set v k).observing evidence) := by
  have hfits := hjoint.fits
  have hmem := Axes.mem_ids_of_mem hv
  have hmentions : f.table.mentions v := Table.mentions_iff.mpr ((hjoint.axes v.id).mpr hmem)
  have hsize := hn.sized_states v (hquery.subset hv)
  have hothers : ∀ id, id ∈ (f.table.axes.without v).ids ↔ id ∈ Axes.ids query ∧ id ≠ v.id :=
    fun id => (Axes.mem_ids_without hfits.wellFormed.nodup).trans
      (and_congr_left fun _ => hjoint.axes id)
  have hobserved : ∀ id ∈ Axes.ids query, id ∉ Axes.ids (evidence.map (·.subject)) := by
    intro id hid
    obtain ⟨u, hu, rfl⟩ := Axes.mem_ids.mp hid
    exact hunobserved u hu
  have hsized : Axes.Sized n.sizes (f.table.axes.without v) := hfits.sized.without v
  rw [hfits.cells_marginal hmentions hsize x]
  refine List.map_congr_left fun k hk => ?_
  have hvalid : (x.set v k).Valid n.sizes := hx.set (hsize ▸ List.mem_range.mp hk)
  rw [Axes.sumOver_congr hsized hvalid fun y hy _ => hjoint.value y hy, sumOver_observing
    fun u hu => hobserved _ ((hothers _).mp (Axes.mem_ids_of_mem hu)).1]
  refine hn.sumOver_probability hsized (Axes.nodup_without hfits.wellFormed.nodup v) ?_ ?_ ?_ _
  · intro id hid
    exact List.map_subset _ hquery.subset ((hothers id).mp hid).1
  · intro id
    rw [Axes.ids_append, List.mem_append, Axes.ids_cons, List.mem_cons, hothers]
    by_cases hid : id = v.id
    · exact iff_of_true (.inl (hid ▸ hmem)) (.inr (.inl hid))
    · simp [hid]
  · intro id hid
    obtain ⟨hid, hne⟩ := (hothers id).mp hid
    simpa [hne] using hobserved id hid

theorem Compiled.sum_probability (hn : n.Compiled) (hv : v ∈ n.states)
    (hfree : v.id ∉ Axes.ids (evidence.map (·.subject))) (x : Assignment) :
    ((List.range v.arity).map fun k =>
      n.probability (v :: evidence.map (·.subject)) ((x.set v k).observing evidence)).sum =
        n.probability (evidence.map (·.subject)) (x.observing evidence) := by
  have hone : Axes.ids [v] = [v.id] := rfl
  have hsized : Axes.Sized n.sizes [v] := by simpa [Axes.Sized] using hn.sized_states v hv
  have hfixed : ∀ id, id ∈ Axes.ids (v :: evidence.map (·.subject)) ↔
      id ∈ Axes.ids [v] ∨ id ∈ Axes.ids (evidence.map (·.subject)) := by simp [hone]
  rw [← hn.sumOver_probability hsized (by simp [hone])
    (by simpa [hone] using Axes.mem_ids_of_mem hv) hfixed (by simpa [hone] using hfree),
    ← sumOver_observing fun u hu => by rwa [List.mem_singleton.mp hu]]
  rfl

/-- The distribution that is computed from the joint probability is the posterior. -/
theorem IsJoint.exists_returns_distribution (hjoint : n.IsJoint evidence query f)
    (hn : n.Compiled) (hquery : n.IsQuery query)
    (hunobserved : ∀ v ∈ query, v.id ∉ Axes.ids (evidence.map (·.subject)))
    (hv : v ∈ query ∨ v.id ∈ Axes.ids (evidence.map (·.subject))) (r : Registry) :
    ∃ k, Returns (NetworkM.distribution evidence f v) r (n.posterior evidence v) (r.after k) := by
  unfold NetworkM.distribution posterior
  cases hfind : evidence.find? (·.subject.id == v.id) with
  | some o => exact ⟨0, returns_pure.mpr ⟨rfl, rfl⟩⟩
  | none =>
      have hfree : v.id ∉ Axes.ids (evidence.map (·.subject)) := by
        intro hid
        obtain ⟨u, hu, hid⟩ := Axes.mem_ids.mp hid
        obtain ⟨o, ho, rfl⟩ := List.mem_map.mp hu
        exact absurd (beq_iff_eq.mpr hid) (List.find?_eq_none.mp hfind o ho)
      have hmem : v ∈ query := hv.resolve_right hfree
      have hmentions : f.mentions v :=
        Table.mentions_iff.mpr ((hjoint.axes v.id).mpr (Axes.mem_ids_of_mem hmem))
      have hcells := hjoint.cells_marginal hn hquery hunobserved hmem hn.valid_zero
      have htotal := hn.sum_probability (hquery.subset hmem) hfree fun _ => 0
      refine ⟨2, ?_⟩
      simp only [returns_bind, Factor.returns_marginal, returns_pure]
      refine ⟨_, _, ⟨hmentions, rfl, rfl⟩, ⟨_, (f.table.marginal v).normalize⟩, _,
        Factor.returns_make.mpr ⟨rfl, rfl⟩, ?_, rfl⟩
      change (Cell.normalize (f.table.marginal v).cells.toList).toArray.toList = _
      rw [Table.normalize_rat, hcells, htotal]

/-! ### Questions to a network -/

theorem Ready.exists_returns_joint (h : n.Ready s) (hevidence : n.evidence observed = .ok evidence)
    (hquery : n.unobservedQuery evidence names = .ok query) :
    ∃ f r', Returns (NetworkM.joint observed names) n f { n with registry := r' } ∧
      n.IsJoint evidence query f ∧ f.axes.ids = Axes.ids query := by
  obtain ⟨f, r', hask, -, -, hfits, hids, hvalue⟩ :=
    h.exists_returns_ask hevidence hquery .probability
  refine ⟨f, r', hask, ⟨hfits, fun id => by rw [hids], fun x hx => ?_⟩, hids⟩
  rw [hvalue x hx, integral_one]

theorem exists_returns_distributions {α : Type} {f : Factor α} [Cell α] {g : Variable → List α}
    (hg : ∀ v ∈ query, ∀ r : Registry, ∃ k,
      Returns (NetworkM.distribution evidence f v) r (g v) (r.after k)) (n : Network α) :
    ∃ k, Returns
      (query.mapM fun v => NetworkM.onRegistry (NetworkM.distribution evidence f v)) n (query.map g)
      { n with registry := n.registry.after k } := by
  induction query generalizing n with
  | nil => exact ⟨0, returns_mapM_nil.mpr ⟨rfl, rfl⟩⟩
  | cons v query ih =>
      obtain ⟨hv, hquery⟩ := List.forall_mem_cons.mp hg
      obtain ⟨j, hfirst⟩ := hv n.registry
      obtain ⟨k, hrest⟩ := ih hquery { n with registry := n.registry.after j }
      rw [Registry.after_after] at hrest
      exact ⟨j + k, returns_mapM_cons.mpr ⟨_, _, _,
        NetworkM.returns_onRegistry.mpr ⟨_, hfirst, rfl⟩, hrest, rfl⟩⟩

theorem Ready.exists_returns_solveQuery (h : n.Ready s)
    (hevidence : n.evidence observed = .ok evidence) (hquery : n.query names = .ok query) :
    ∃ r', Returns (NetworkM.solveQuery observed names) n
      (names.zip (query.map (n.posterior evidence))) { n with registry := r' } := by
  have hn := h.compiled
  have hq := isQuery_of_ok hn hquery
  let unobserved := query.filter fun v => !Axes.mentions (evidence.map (·.subject)) v
  have hsub : unobserved ⊆ query := List.filter_sublist.subset
  have hfree : ∀ v ∈ unobserved, v.id ∉ Axes.ids (evidence.map (·.subject)) := fun v hv =>
    (Axes.mem_ids_filter_mentions.mp (Axes.mem_ids_of_mem hv)).2
  obtain ⟨f, r', hanswer, hfits, hids, hvalue⟩ := h.exists_returns_answer
    (isEvidence_of_ok hn hevidence).1 .probability unobserved
  have hjoint : n.IsJoint evidence unobserved f := by
    refine ⟨hfits, fun id => (hids id).trans ⟨fun h => (h.resolve_right List.not_mem_nil).2.1,
      fun hid => ?_⟩, fun x hx => ?_⟩
    · obtain ⟨v, hv, rfl⟩ := Axes.mem_ids.mp hid
      exact .inl ⟨Axes.mem_ids_of_mem (hq.subset (hsub hv)), hid, hfree v hv⟩
    · rw [hvalue x hx, integral_one]
  have hunobserved : n.IsQuery unobserved :=
    ⟨Axes.nodup_ids_filter hq.nodup _, fun v hv => hq.subset (hsub hv)⟩
  have hdistribution : ∀ v ∈ query, ∀ r : Registry, ∃ k,
      Returns (NetworkM.distribution evidence f v) r (n.posterior evidence v) (r.after k) := by
    intro v hv
    refine hjoint.exists_returns_distribution hn hunobserved hfree ?_
    by_cases hid : v.id ∈ Axes.ids (evidence.map (·.subject))
    · exact .inr hid
    · refine .inl (List.mem_filter.mpr ⟨hv, ?_⟩)
      rw [Bool.not_eq_true', Axes.mentions_eq_false_iff]
      exact hid
  obtain ⟨k, hdistributions⟩ :=
    exists_returns_distributions hdistribution { n with registry := n.registry.absorb r' }
  refine ⟨(n.registry.absorb r').after k, ?_⟩
  unfold NetworkM.solveQuery
  simp only [returns_bind, returns_get, returns_except, NetworkM.returns_solving, returns_pure]
  exact ⟨_, n, h.returns_ensurePolicies, n, n, ⟨rfl, rfl⟩, evidence, n, ⟨hevidence, rfl⟩, query, n,
    ⟨hquery, rfl⟩, f, _, ⟨r', hanswer, rfl⟩, _, _, hdistributions, rfl, rfl⟩

/-- A computation that begins by resolving the decisions may be started when they have been. -/
theorem returns_of_ensurePolicies {β : Type} {k : PUnit → NetworkM ℚ β} {b : β} (hm : m.Ready s)
    (hensure : Returns NetworkM.ensurePolicies n ⟨⟩ m)
    (h : Returns (NetworkM.ensurePolicies >>= k) m b n') :
    Returns (NetworkM.ensurePolicies >>= k) n b n' := by
  obtain ⟨_, _, hagain, h⟩ := returns_bind.mp h
  obtain ⟨-, rfl⟩ := hm.returns_ensurePolicies.unique hagain
  exact returns_bind.mpr ⟨_, _, hensure, h⟩

/-- Where sizes are numbers, a question about probabilities returns the joint distribution. -/
theorem exists_returns_joint_unlimited {definition : Definition ℚ} {config : Config ℚ}
    (h : compile definition config = .ok n) (hensure : Returns NetworkM.ensurePolicies n ⟨⟩ m)
    (hevidence : n.evidence observed = .ok evidence)
    (hquery : n.unobservedQuery evidence names = .ok query) :
    ∃ f n', Returns (NetworkM.joint observed names) n f n' ∧ m.IsJoint evidence query f ∧
      f.axes.ids = Axes.ids query := by
  obtain ⟨hn, hnone⟩ := compiled_of_compile h
  obtain ⟨⟨s, hready⟩, r, ps, -, -, rfl⟩ := ready_of_ensurePolicies hn hnone hensure
  obtain ⟨f, r', hjoint, hf⟩ := hready.exists_returns_joint hevidence hquery
  exact ⟨f, _, returns_of_ensurePolicies hready hensure hjoint, hf⟩

theorem exists_returns_solveQuery_unlimited {definition : Definition ℚ} {config : Config ℚ}
    (h : compile definition config = .ok n) (hensure : Returns NetworkM.ensurePolicies n ⟨⟩ m)
    (hevidence : n.evidence observed = .ok evidence) (hquery : n.query names = .ok query) :
    ∃ n', Returns (NetworkM.solveQuery observed names) n
      (names.zip (query.map (m.posterior evidence))) n' := by
  obtain ⟨hn, hnone⟩ := compiled_of_compile h
  obtain ⟨⟨s, hready⟩, r, ps, -, -, rfl⟩ := ready_of_ensurePolicies hn hnone hensure
  obtain ⟨r', hsolve⟩ := hready.exists_returns_solveQuery hevidence hquery
  exact ⟨_, returns_of_ensurePolicies hready hensure hsolve⟩

/-- Whether to drill for oil, after deciding on whether to pay for a sounding. -/
def wildcat : Definition ℚ where
  declarations := [⟨"oil", "chance", ["dry", "wet"]⟩, ⟨"test", "decision", ["no", "yes"]⟩,
    ⟨"sound", "chance", ["quiet", "loud"]⟩, ⟨"drill", "decision", ["no", "yes"]⟩,
    ⟨"profit", "utility", []⟩, ⟨"fee", "utility", []⟩]
  entries := [⟨"oil", [], some [3 / 5, 2 / 5]⟩, ⟨"test", [], none⟩,
    ⟨"sound", ["oil", "test"], some [1, 0, 9 / 10, 1 / 10, 1, 0, 1 / 5, 4 / 5]⟩,
    ⟨"drill", ["test", "sound"], none⟩, ⟨"profit", ["oil", "drill"], some [0, -70, 0, 100]⟩,
    ⟨"fee", ["test"], some [0, -5]⟩]

end Influence.Network
