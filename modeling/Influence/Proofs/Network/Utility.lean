import Influence.Proofs.Network.Answers
import Influence.Proofs.Network.Recall

/-! # Expected utilities

`NetworkM.solveUtility` divides the utility weighted by probability by the probability of the query
and the evidence.  `Ready.exists_returns_solveUtility` says that this is the conditional expectation
for every joint outcome of the query.

Without evidence and query the probabilities add up to one, so `NetworkM.expectedUtility` returns the
expected utility of the policies.  In a network with recall that is the largest one
(`expectedUtility_policies_maximal`), provided that there is room for the tables that this takes.  A decision
that observes too much may get a rule without cells, which has no expected utility
(`exists_policies_without_cells`). -/

namespace Influence

section

open scoped Exact

namespace Table

variable {sizes : VariableId → ℕ} {t : Table ℚ}

theorem reciprocal_rat (a : ℚ) : Cell.reciprocal a = a⁻¹ := by
  rw [Cell.reciprocal]
  by_cases h : a = 0
  · simp [h]
  · simp [h]

theorem valueAt_invert (t : Table ℚ) (x : Assignment) :
    t.invert.valueAt x = (t.valueAt x)⁻¹ := by
  rw [valueAt, valueAt, read_eq_getD_toList, read_eq_getD_toList, List.getD_eq_getElem?_getD,
    List.getD_eq_getElem?_getD, axes_invert]
  simp only [invert, Array.toList_map, List.getElem?_map]
  cases h : t.cells.toList[Layout.offset t.axes.distances (x.on t.axes)]? with
  | none => simp
  | some a => simp [reciprocal_rat]

theorem Fits.invert {α : Type} [Cell α] {t : Table α} (ht : t.Fits sizes) : t.invert.Fits sizes :=
  ⟨⟨ht.wellFormed.nodup, ht.wellFormed.arity_pos, by
    rw [Table.invert, Array.size_map]
    exact ht.wellFormed.size_cells, rfl⟩, ht.sized⟩

/-- The quotient of two tables over the same axes, laid out over these in some order. -/
theorem Fits.valueAt_quotient {f g : Table ℚ} {order : Axes} (hf : f.Fits sizes)
    (hg : g.Fits sizes) (horder : order.Sized sizes) (hnodup : order.ids.Nodup)
    (hidsf : f.axes.ids = order.ids) (hidsg : g.axes.ids = order.ids) :
    order.ids.Perm (product [f, g.invert]).axes.ids ∧ (product [f, g.invert]).axes.ids.Nodup ∧
      ((product [f, g.invert]).rearrange order).Fits sizes ∧
      ∀ x : Assignment, x.Valid sizes →
        ((product [f, g.invert]).rearrange order).valueAt x = f.valueAt x / g.valueAt x := by
  have hfits : ∀ t ∈ [f, g.invert], t.Fits sizes := by simpa using ⟨hf, hg.invert⟩
  have hproduct : (product [f, g.invert]).Fits sizes := fits_foldAll hfits
  have hids : order.ids.Perm (product [f, g.invert]).axes.ids := by
    refine (List.perm_ext_iff_of_nodup hnodup hproduct.wellFormed.nodup).mpr fun id => ?_
    rw [product, mem_ids_foldAll]
    simp [hidsf, hidsg]
  refine ⟨hids, hproduct.wellFormed.nodup, hproduct.rearrange hids horder, fun x hx => ?_⟩
  rw [hproduct.valueAt_rearrange hids horder hx, Fits.valueAt_product hfits hx, List.map_cons,
    List.map_singleton, List.prod_cons, List.prod_singleton, valueAt_invert, div_eq_mul_inv]

end Table

namespace Network

variable {n n' m : Network ℚ} {s : Setting ℚ} {evidence : List Observation} {query : List Variable}
  {observed : List (String × String)} {names : List String} {utility : Option String}
  {target : Target} {F : Assignment → ℚ} {ps : List (Policy ℚ)} {others : List (Table ℚ)}

/-- The mean of a function given some outcomes of a query and the evidence, and zero if those have
the probability zero. -/
def conditionalMean (n : Network ℚ) (F : Assignment → ℚ) (evidence : List Observation)
    (query : List Variable) (x : Assignment) : ℚ :=
  n.integral F (query ++ evidence.map (·.subject)) (x.observing evidence) /
    n.probability (query ++ evidence.map (·.subject)) (x.observing evidence)

/-- A question about the utility is answered by conditional means in row-major order. -/
theorem Ready.exists_returns_solveUtility (h : n.Ready s)
    (hevidence : n.evidence observed = .ok evidence)
    (hquery : n.unobservedQuery evidence names = .ok query)
    (htarget : n.utilityTarget utility = .ok target) (hasks : n.Asks target F) :
    ∃ values r', Returns (NetworkM.solveUtility observed names utility) n ⟨names, values⟩
        { n with registry := r' } ∧
      values.length = Axes.count query ∧
      ∀ x : Assignment, x.Valid n.sizes → values[Layout.offset (Axes.distances query) (x.on query)]? =
        some (n.conditionalMean F evidence query x) := by
  have hn := h.compiled
  have hnamed := (unobservedQuery_eq_ok hquery).1
  have hq := isQuery_of_ok hn hnamed
  obtain ⟨ms, hms, hhandles⟩ := exists_nodes_of_query hnamed
  have hsized : Axes.Sized n.sizes query := hn.sized_states.subset hq.subset
  obtain ⟨f, r₁, hf, hhandles₁, hnext₁, hfitsf, hidsf, hvaluef⟩ :=
    h.exists_returns_ask hevidence hquery hasks
  obtain ⟨g, r₂, hg, -, -, hfitsg, hidsg, hvalueg⟩ :=
    (h.update hhandles₁ hnext₁).exists_returns_ask (n := { n with registry := r₁ }) hevidence
      hquery .probability
  obtain ⟨hids, hnodup, hfits, hvalue⟩ :=
    Table.Fits.valueAt_quotient hfitsf hfitsg hsized hq.nodup hidsf hidsg
  have haxes := Table.ids_rearrange (B := Exact.build) (Table.product [f.table, g.table.invert]) query
  refine ⟨((Table.product [f.table, g.table.invert]).rearrange query).cells.toList, r₂.after 3, ?_, ?_,
    fun x hx => ?_⟩
  rotate_left
  · rw [Array.length_toList, hfits.wellFormed.size_cells, Axes.count, Axes.count, hfits.sized.arities,
      hsized.arities, haxes]
  · rw [hfits.getElem?_cells hsized haxes hx, hvalue x hx, hvaluef x hx, conditionalMean,
      ← integral_one]
    exact congrArg _ (congrArg _ (hvalueg x hx))
  unfold NetworkM.solveUtility NetworkM.utilityFactor NetworkM.joint
  simp only [returns_bind, returns_get, returns_except, NetworkM.returns_onRegistry, returns_pure,
    returns_mapM_except]
  refine ⟨f, _, ⟨n, n, ⟨rfl, rfl⟩, target, n, ⟨htarget, rfl⟩, hf⟩, g, _, hg,
    ⟨r₂.nextFactor, g.table.invert⟩, _, ⟨_, Factor.returns_make.mpr ⟨rfl, rfl⟩, rfl⟩,
    ⟨(r₂.after 1).nextFactor, .product [f.table, g.table.invert]⟩, _,
    ⟨_, Factor.returns_product.mpr ⟨rfl, rfl⟩, rfl⟩, _, _, ⟨rfl, rfl⟩, ms, _, ⟨hms, rfl⟩,
    ⟨((r₂.after 1).after 1).nextFactor, (Table.product [f.table, g.table.invert]).rearrange query⟩, _,
    ⟨_, ?_, rfl⟩, rfl, rfl⟩
  rw [hhandles]
  exact Factor.returns_rearrange.mpr
    ⟨(Factor.isOrder_iff (f := ⟨_, .product [f.table, g.table.invert]⟩) hnodup).mpr hids, rfl, rfl⟩

/-- Without evidence and query the answer is the expected utility of the policies. -/
theorem Ready.exists_returns_expectedUtility (h : n.Ready s) (hchance : n.IsStochastic)
    (hutility : ∃ m ∈ n.nodes, m.kind = .utility) :
    ∃ r', Returns (NetworkM.expectedUtility []) n (n.expected n.rules)
      { n with registry := r' } := by
  have hn := h.compiled
  have htarget : n.utilityTarget none = .ok .totalUtility := by
    have hany : n.nodes.any (·.kind = .utility) := by simpa using hutility
    rw [utilityTarget, if_pos hany]
  have hevidence : n.evidence [] = .ok [] := rfl
  have hquery : n.unobservedQuery [] [] = .ok [] := rfl
  obtain ⟨values, r', hsolve, hlength, hvalues⟩ :=
    h.exists_returns_solveUtility hevidence hquery htarget (.totalUtility hutility)
  refine ⟨r', ?_⟩
  have hall : (n.states.filter fun v => !Axes.mentions [] v) = n.states :=
    List.filter_eq_self.mpr fun _ _ => rfl
  have hone : n.probability [] (fun _ => 0) = 1 := by
    rw [probability, hall]
    exact hn.sumOver_states hchance (hn.decisionOrder h.setting).1 h.isRule hn.valid_zero
  have hmean : n.conditionalMean n.utility [] [] (fun _ => 0) = n.expected n.rules := by
    change n.integral n.utility [] (fun _ => 0) / n.probability [] (fun _ => 0) = _
    rw [hone, div_one, integral, hall]
    rfl
  have hhead : values.head? = some (n.expected n.rules) := by
    rw [List.head?_eq_getElem?, ← hmean]
    exact hvalues (fun _ => 0) hn.valid_zero
  unfold NetworkM.expectedUtility
  refine returns_bind.mpr ⟨_, _, hsolve, ?_⟩
  have hscalar : (UtilityResult.mk [] values).scalar? = some (n.expected n.rules) := hhead
  simp only [hscalar]
  exact returns_pure.mpr ⟨rfl, rfl⟩

theorem expectedUtility_policies_maximal_unlimited {definition : Definition ℚ} {config : Config ℚ}
    (h : compile definition config = .ok n) (hchance : n.IsStochastic)
    (hutility : ∃ m ∈ n.nodes, m.kind = .utility) (hrecall : n.HasRecall)
    (hpolicies : Returns NetworkM.solvePolicies n ps n') :
    ∃ s, n.setting = .ok s ∧ s.decisionOrder.Perm n.dependencies.decisions ∧
      List.Forall₂ n.IsRule s.decisionOrder (ps.map n.ruleTable) ∧
      (∀ others, List.Forall₂ n.IsRule s.decisionOrder others →
        n.expected others ≤ n.expected (ps.map n.ruleTable)) ∧
      ∃ n'', Returns (NetworkM.expectedUtility []) n' (n.expected (ps.map n.ruleTable)) n'' := by
  have hn := (compiled_of_compile h).1
  obtain ⟨⟨s, rs, w₀, hres⟩, r, hhandles, hnext, rfl⟩ := exists_resolution hn hpolicies
  obtain ⟨r', hexpected⟩ :=
    (hres.ready hn hhandles hnext).exists_returns_expectedUtility hchance hutility
  exact ⟨s, hres.setting, (hn.decisionOrder hres.setting).1, hres.isRule hn,
    fun others hothers => hres.expected_le hn hchance hrecall hothers, _, hexpected⟩

end Network

end

namespace Network

variable {n n' : Network ℚ} {ps : List (Policy ℚ)} {definition : Definition ℚ} {config : Config ℚ}

theorem isVersion_of_returns_solvePolicies [Build] (hf : n.Fresh)
    (h : Returns NetworkM.solvePolicies n ps n') : n.IsVersion n' := by
  have hlevel := Lockstep.solvePolicies hf ⟨hf.isVersion, hf.isVersion⟩
  rw [show runFrom NetworkM.solvePolicies n = (.ok ps, n') from h] at hlevel
  cases hlevel with
  | ok hlevel => exact hlevel.2.versions.1

/-- **Policies are optimal under recall.**  If the chance tables of a compiled network are
distributions and each decision recalls the one before it, then the policies are rules of all decisions
whose expected utility no other rules exceed, and it is the one that is returned, provided that there is
room for the tables that resolve the decisions and answer the question. -/
theorem expectedUtility_policies_maximal (h : compile definition config = .ok n)
    (hchance : n.IsStochastic) (hutility : ∃ m ∈ n.nodes, m.kind = .utility) (hrecall : n.HasRecall)
    (hroom : n.HasRoomFor .solvePolicies) (hpolicies : Returns NetworkM.solvePolicies n ps n') :
    ∃ s, n.setting = .ok s ∧ s.decisionOrder.Perm n.dependencies.decisions ∧
      List.Forall₂ n.IsRule s.decisionOrder (ps.map n.ruleTable) ∧
      (∀ others, List.Forall₂ n.IsRule s.decisionOrder others →
        n.expected others ≤ n.expected (ps.map n.ruleTable)) ∧
      (n'.HasRoomFor (.expectedUtility []) →
        ∃ n'', Returns (NetworkM.expectedUtility []) n' (n.expected (ps.map n.ruleTable)) n'') := by
  have hcompile := compile_eq_ok_of_isSmall h hroom.tables Exact.build
  have hsolve :=
    (returns_solvePolicies_iff_of_hasRoom h hroom.tables hroom.rules .release Exact.build).mp hpolicies
  obtain ⟨s, hs, hperm, hrules, hmaximal, n'', hexpected⟩ :=
    expectedUtility_policies_maximal_unlimited hcompile hchance hutility hrecall hsolve
  refine ⟨s, hs, hperm, hrules, hmaximal, fun hroom' => ⟨n'', ?_⟩⟩
  have hf := fresh_of_compile h
  have hcall := (isVersion_of_returns_solvePolicies hf hpolicies).call_eq hf (c := .expectedUtility [])
    trivial hroom' Exact.build .release
  exact (returns_congr_of_call (fun _ _ => Answer.value.inj) hcall).mp hexpected

theorem expectedUtility_policies_maximal_wildcat : ∃ n ps n',
    compile wildcat {} = .ok n ∧ n.IsStochastic ∧ (∃ m ∈ n.nodes, m.kind = .utility) ∧
    n.HasRecall ∧ n.HasRoomFor .solvePolicies ∧ Returns NetworkM.solvePolicies n ps n' ∧
    n'.HasRoomFor (.expectedUtility []) ∧
    ∃ s, n.setting = .ok s ∧ s.decisionOrder.Perm n.dependencies.decisions ∧
      List.Forall₂ n.IsRule s.decisionOrder (ps.map n.ruleTable) ∧
      (∀ others, List.Forall₂ n.IsRule s.decisionOrder others →
        n.expected others ≤ n.expected (ps.map n.ruleTable)) ∧
      ∃ n'', Returns (NetworkM.expectedUtility []) n' (n.expected (ps.map n.ruleTable)) n'' := by
  obtain ⟨n, hcompile, hchance, hutility, hchain, hroom, hpolicies⟩ :=
    exists_ok_of_toOption (x := compile wildcat {})
      (P := fun n => n.IsStochastic ∧ (∃ m ∈ n.nodes, m.kind = .utility) ∧
        n.dependencies.decisions.IsChain n.Recalls ∧ n.HasRoomFor .solvePolicies ∧
        ∃ ps ∈ (runFrom NetworkM.solvePolicies n).1.toOption,
          (runFrom NetworkM.solvePolicies n).2.HasRoomFor (.expectedUtility [])) (by decide +kernel)
  obtain ⟨ps, n', hpolicies, hroom'⟩ := exists_returns_of_toOption hpolicies
  obtain rfl : (runFrom NetworkM.solvePolicies n).2 = n' := congrArg Prod.snd hpolicies
  have hrecall : n.HasRecall := ⟨n.dependencies.decisions, .refl _, hchain⟩
  obtain ⟨s, hs, hperm, hrules, hmaximal, hexpected⟩ :=
    expectedUtility_policies_maximal hcompile hchance hutility hrecall hroom hpolicies
  exact ⟨n, ps, _, hcompile, hchance, hutility, hrecall, hroom, hpolicies, hroom', s, hs, hperm, hrules,
    hmaximal, hexpected hroom'⟩

/-- A bet that is taken after sixteen dice have been seen gets a rule without cells.  Its expected utility
is not computed. -/
theorem exists_policies_without_cells : ∃ (d : Definition ℚ) (n n' : Network ℚ) (ps : List (Policy ℚ)),
    compile d {} = .ok n ∧ n.IsStochastic ∧ (∃ m ∈ n.nodes, m.kind = .utility) ∧ n.HasRecall ∧
    Returns NetworkM.solvePolicies n ps n' ∧ ps.map (·.table) = [[]] ∧
    ¬∃ x n'', Returns (NetworkM.expectedUtility []) n' x n'' := by
  obtain ⟨n, hcompile, hchance, hutility, hchain, hpolicies⟩ :=
    exists_ok_of_toOption (x := compile gamble {})
      (P := fun n => n.IsStochastic ∧ (∃ m ∈ n.nodes, m.kind = .utility) ∧
        n.dependencies.decisions.IsChain n.Recalls ∧
        ∃ ps ∈ (runFrom NetworkM.solvePolicies n).1.toOption, ps.map (·.table) = [[]] ∧
          (runFrom (NetworkM.expectedUtility []) (runFrom NetworkM.solvePolicies n).2).1.toOption = none)
      (by decide +kernel)
  obtain ⟨ps, n', hpolicies, htables, hfails⟩ := exists_returns_of_toOption hpolicies
  obtain rfl : (runFrom NetworkM.solvePolicies n).2 = n' := congrArg Prod.snd hpolicies
  refine ⟨gamble, n, _, ps, hcompile, hchance, hutility, ⟨n.dependencies.decisions, .refl _, hchain⟩,
    hpolicies, htables, ?_⟩
  rintro ⟨x, n'', h⟩
  rw [h] at hfails
  cases hfails

end Network

end Influence
