import Influence.Proofs.Network.Utility

/-! # Conditional expectations of the utility

`Measures` says which function of the states a question about the utility is about: the weighted sum
of all terms, or one term without its weight.

`exists_returns_utilityFactor_and_solveUtility`: the weighted utility of a query and the evidence adds
that function up, weighted by probability, over everything that is not fixed, and the expected utility
is the quotient of that and the joint probability, provided that there is room for the tables.  A network
without utilities has no answer to a question about all of them, and without room there may be no cells
(`exists_utility_without_answers`). -/

namespace Influence.Network

section

open scoped Exact

variable {n m : Network ℚ} {s : Setting ℚ} {utility : Option String} {F : Assignment → ℚ}

/-- The function that a question about the utility, or about one named term of it, is about. -/
inductive Measures (n : Network ℚ) : Option String → (Assignment → ℚ) → Prop
  | total : (∃ m ∈ n.nodes, m.kind = .utility) → Measures n none n.utility
  | term {m : Node} {t : Table ℚ} : (m, t) ∈ n.utilities → Measures n (some m.name) t.valueAt

theorem Measures.exists_target (h : n.Measures utility F) (hn : n.Compiled) :
    ∃ target, n.utilityTarget utility = .ok target ∧ n.Asks target F := by
  cases h with
  | total hutility =>
      have hany : n.nodes.any (·.kind = .utility) := by simpa using hutility
      exact ⟨.totalUtility, if_pos hany, .totalUtility hutility⟩
  | @term m t ht =>
      obtain ⟨-, hm, hkind⟩ := hn.mem_utilities ht
      have hnode : n.node m.name = .ok m := (find_eq_ok_iff hn.declared.names).mpr ⟨hm, rfl⟩
      refine ⟨.utilityTerm m.handle, ?_, .utilityTerm ht⟩
      rw [utilityTarget, hnode]
      exact if_neg (not_not.mpr hkind)

theorem Compiled.exists_measures [Build] (hn : n.Compiled) {m : Node} (hm : m ∈ n.nodes)
    (hkind : m.kind = .utility) : ∃ t, (m, t) ∈ n.utilities ∧ n.Measures (some m.name) t.valueAt := by
  obtain ⟨t, ht⟩ := hn.exists_tabled hm (by simp [hkind])
  have hmem : (m, t) ∈ n.utilities := List.mem_filter.mpr ⟨ht, by simpa using hkind⟩
  exact ⟨t, hmem, .term hmem⟩

theorem Ready.exists_returns_utilityFactor (h : n.Ready s) {observed : List (String × String)}
    {names : List String} {evidence : List Observation} {query : List Variable}
    (hevidence : n.evidence observed = .ok evidence)
    (hquery : n.unobservedQuery evidence names = .ok query) (hmeasures : n.Measures utility F) :
    ∃ f r', Returns (NetworkM.utilityFactor observed names utility) n f { n with registry := r' } ∧
      f.table.Fits n.sizes ∧ f.axes.ids = Axes.ids query ∧
      ∀ x : Assignment, x.Valid n.sizes → f.table.valueAt x =
        n.integral F (query ++ evidence.map (·.subject)) (x.observing evidence) := by
  obtain ⟨target, htarget, hasks⟩ := hmeasures.exists_target h.compiled
  obtain ⟨f, r', hask, -, -, hf⟩ := h.exists_returns_ask hevidence hquery hasks
  refine ⟨f, r', ?_, hf⟩
  unfold NetworkM.utilityFactor
  simp only [returns_bind, returns_get, returns_except]
  exact ⟨n, n, ⟨rfl, rfl⟩, target, n, ⟨htarget, rfl⟩, hask⟩

/-- A question about the utility may be started when the decisions have been resolved. -/
theorem returns_utilityFactor_of_ensurePolicies (hm : m.Ready s) (hnodes : m.nodes = n.nodes)
    (hensure : Returns NetworkM.ensurePolicies n ⟨⟩ m) {observed : List (String × String)}
    {names : List String} {f : Factor ℚ} {n' : Network ℚ}
    (h : Returns (NetworkM.utilityFactor observed names utility) m f n') :
    Returns (NetworkM.utilityFactor observed names utility) n f n' := by
  unfold NetworkM.utilityFactor at h ⊢
  simp only [returns_bind, returns_get, returns_except] at h ⊢
  obtain ⟨_, _, ⟨rfl, rfl⟩, target, _, ⟨htarget, rfl⟩, h⟩ := h
  refine ⟨n, n, ⟨rfl, rfl⟩, target, n, ⟨?_, rfl⟩, returns_of_ensurePolicies hm hensure h⟩
  rw [← htarget]
  cases utility <;> simp only [utilityTarget, node, hnodes]

/-- What the questions about a function of the states return, with the decisions resolved in `m`: the
joint probability of a query and the evidence, the function weighted by it, and their quotients in
row-major order, which are zero where the probability is zero. -/
structure Answers [Build] (n m : Network ℚ) (observed : List (String × String)) (names : List String)
    (evidence : List Observation) (query : List Variable) (utility : Option String)
    (F : Assignment → ℚ) : Prop where
  joint : ∃ f n', Returns (NetworkM.joint observed names) n f n' ∧ f.table.Fits n.sizes ∧
    f.axes.ids = Axes.ids query ∧ ∀ x : Assignment, x.Valid n.sizes → f.table.valueAt x =
      m.probability (query ++ evidence.map (·.subject)) (x.observing evidence)
  utilityFactor : ∃ f n', Returns (NetworkM.utilityFactor observed names utility) n f n' ∧
    f.table.Fits n.sizes ∧ f.axes.ids = Axes.ids query ∧
      ∀ x : Assignment, x.Valid n.sizes → f.table.valueAt x =
        m.integral F (query ++ evidence.map (·.subject)) (x.observing evidence)
  solveUtility : ∃ values n',
    Returns (NetworkM.solveUtility observed names utility) n ⟨names, values⟩ n' ∧
      values.length = Axes.count query ∧ ∀ x : Assignment, x.Valid n.sizes →
        let fixed := query ++ evidence.map (·.subject)
        values[Layout.offset (Axes.distances query) (x.on query)]? =
          some (if m.probability fixed (x.observing evidence) = 0 then 0
            else m.integral F fixed (x.observing evidence) /
              m.probability fixed (x.observing evidence))

/-- Where sizes are numbers, the questions about a function of the states are answered. -/
theorem answers_unlimited {definition : Definition ℚ} {config : Config ℚ}
    (h : compile definition config = .ok n) (hensure : Returns NetworkM.ensurePolicies n ⟨⟩ m)
    {observed : List (String × String)} {names : List String} {evidence : List Observation}
    {query : List Variable} (hevidence : n.evidence observed = .ok evidence)
    (hquery : n.unobservedQuery evidence names = .ok query) (hmeasures : m.Measures utility F) :
    n.Answers m observed names evidence query utility F := by
  obtain ⟨hn, hnone⟩ := compiled_of_compile h
  obtain ⟨⟨s, hready⟩, r, ps, -, -, rfl⟩ := ready_of_ensurePolicies hn hnone hensure
  constructor
  case joint =>
    obtain ⟨f, r', hjoint, hf, haxes⟩ := hready.exists_returns_joint hevidence hquery
    exact ⟨f, _, returns_of_ensurePolicies hready hensure hjoint, hf.fits, haxes, hf.value⟩
  case utilityFactor =>
    obtain ⟨f, r', hutility, hf⟩ :=
      hready.exists_returns_utilityFactor hevidence hquery hmeasures
    exact ⟨f, _, returns_utilityFactor_of_ensurePolicies (n := n) hready rfl hensure hutility, hf⟩
  case solveUtility =>
    obtain ⟨target, htarget, hasks⟩ := hmeasures.exists_target hready.compiled
    obtain ⟨values, r', hsolve, hlength, hvalues⟩ :=
      hready.exists_returns_solveUtility hevidence hquery htarget hasks
    obtain ⟨f, _, hutility, hrest⟩ := returns_bind.mp hsolve
    refine ⟨values, _, returns_bind.mpr ⟨f, _,
      returns_utilityFactor_of_ensurePolicies (n := n) hready rfl hensure hutility, hrest⟩, hlength,
      fun x hx => ?_⟩
    rw [hvalues x hx, conditionalMean]
    refine congrArg some ?_
    split
    next hzero => rw [hzero, div_zero]
    next => rfl

end

variable {n m : Network ℚ} {definition : Definition ℚ} {config : Config ℚ}

theorem runFrom_utility_of_none [Build] (hnone : ∀ u ∈ n.nodes, u.kind ≠ .utility)
    (observed : List (String × String)) (names : List String) :
    runFrom (NetworkM.utilityFactor observed names none) n = (.error .noUtilities, n) ∧
      runFrom (NetworkM.solveUtility observed names none) n = (.error .noUtilities, n) := by
  have htarget : n.utilityTarget none = .error .noUtilities := if_neg (by simpa using hnone)
  have hfactor : runFrom (NetworkM.utilityFactor observed names none) n = (.error .noUtilities, n) := by
    change runFrom ((liftM (n.utilityTarget none) : NetworkM ℚ Target) >>= fun target =>
      NetworkM.ask observed names target) n = _
    rw [htarget]
    rfl
  refine ⟨hfactor, ?_⟩
  unfold NetworkM.solveUtility
  rw [runFrom_bind, hfactor]

/-- **Expected utilities are conditional expectations.**  If the decisions of a compiled network can
be resolved, the weighted utility of a query and the evidence adds up the utility, or one term of it,
times the chance tables and the rules found, and the expected utility divides that by the joint
probability, provided that there is room for the questions.  Without a utility no question about the whole
utility is answered. -/
theorem exists_returns_utilityFactor_and_solveUtility (h : compile definition config = .ok n)
    (hensure : Returns NetworkM.ensurePolicies n ⟨⟩ m) :
    m = { n with registry := m.registry, policies := m.policies } ∧
    (∀ observed evidence names query, n.evidence observed = .ok evidence →
      n.unobservedQuery evidence names = .ok query →
      (∀ o, o ∈ evidence ↔ ∃ p ∈ observed, n.IsObservation p o) ∧
      List.Forall₂ n.IsNamed names query ∧
      ∀ utility F, m.Measures utility F →
        n.HasRoomFor (.joint observed names) → n.HasRoomFor (.utilityFactor observed names utility) →
        n.HasRoomFor (.solveUtility observed names utility) →
        n.Answers m observed names evidence query utility F) ∧
    (∀ u ∈ n.nodes, u.kind = .utility →
      ∃ t, (u, t) ∈ n.utilities ∧ m.Measures (some u.name) t.valueAt) ∧
    ((∃ u ∈ n.nodes, u.kind = .utility) → m.Measures none n.utility) ∧
    ((∀ u ∈ n.nodes, u.kind ≠ .utility) → ∀ observed names,
      runFrom (NetworkM.utilityFactor observed names none) n = (.error .noUtilities, n) ∧
        runFrom (NetworkM.solveUtility observed names none) n = (.error .noUtilities, n)) := by
  have hn := (compiled_of_compile h).1
  obtain ⟨k, ps, rfl⟩ := exists_advanced_of_ensurePolicies (fresh_of_compile h) hensure
  refine ⟨rfl, fun observed evidence names query hevidence hquery =>
    ⟨(isEvidence_of_ok hn hevidence).2, isNamed_of_query hn (unobservedQuery_eq_ok hquery).1,
      fun utility F hmeasures hjoint hfactor hsolve => ?_⟩, fun u hu hkind => ?_,
      fun hutility => .total hutility, fun hnone => runFrom_utility_of_none hnone⟩
  · have hcompile := compile_eq_ok_of_isSmall h hjoint.tables Exact.build
    have hensure :=
      (returns_ensurePolicies_iff_of_hasRoom h hjoint.tables hjoint.rules .release Exact.build).mp hensure
    have hanswers := answers_unlimited hcompile hensure hevidence hquery hmeasures
    have hsame : ∀ {c : Call ℚ}, c.IsQuestion → n.HasRoomFor c →
        runFrom (@Call.run ℚ Exact.build _ c) n = runFrom c.run n := fun hc hroom =>
      call_eq_of_hasRoom h hc hroom Exact.build .release
    obtain ⟨⟨f, n₁, hf, hcells⟩, ⟨g, n₂, hg, hcells'⟩, ⟨values, n₃, hvalues, hcells''⟩⟩ := hanswers
    exact ⟨⟨f, n₁, (returns_congr_of_call (fun _ _ => Answer.factor.inj)
        (hsame (c := .joint observed names) trivial hjoint)).mp hf, hcells⟩,
      ⟨g, n₂, (returns_congr_of_call (fun _ _ => Answer.factor.inj)
        (hsame (c := .utilityFactor observed names utility) trivial hfactor)).mp hg, hcells'⟩,
      ⟨values, n₃, (returns_congr_of_call (fun _ _ => Answer.utilities.inj)
        (hsame (c := .solveUtility observed names utility) trivial hsolve)).mp hvalues, hcells''⟩⟩
  · obtain ⟨t, ht, -⟩ := hn.exists_measures hu hkind
    exact ⟨t, ht, .term ht⟩

/-- The whole utility with a weighted fee, and the fee alone, after a loud sounding. -/
theorem exists_returns_utilityFactor_and_solveUtility_wildcat : ∃ n m evidence query u t,
    compile wildcat { weights := [("fee", 2)] } = .ok n ∧
    Returns NetworkM.ensurePolicies n ⟨⟩ m ∧ n.evidence [("sound", "loud")] = .ok evidence ∧
    n.unobservedQuery evidence ["drill", "oil"] = .ok query ∧ u.name = "fee" ∧
    (u, t) ∈ n.utilities ∧ n.HasRoomFor (.joint [("sound", "loud")] ["drill", "oil"]) ∧
    (∀ utility ∈ [none, some "fee"],
      n.HasRoomFor (.utilityFactor [("sound", "loud")] ["drill", "oil"] utility) ∧
      n.HasRoomFor (.solveUtility [("sound", "loud")] ["drill", "oil"] utility)) ∧
    n.Answers m [("sound", "loud")] ["drill", "oil"] evidence query none n.utility ∧
    n.Answers m [("sound", "loud")] ["drill", "oil"] evidence query (some "fee") t.valueAt := by
  obtain ⟨n, hcompile, hresolve, hutility, hjoint, hrooms, hnames⟩ :=
    exists_ok_of_toOption (x := compile wildcat { weights := [("fee", 2)] })
      (P := fun n => (∃ b ∈ (runFrom NetworkM.ensurePolicies n).1.toOption, True) ∧
        (∃ u ∈ n.nodes, u.kind = .utility ∧ u.name = "fee") ∧
        n.HasRoomFor (.joint [("sound", "loud")] ["drill", "oil"]) ∧
        (∀ utility ∈ [none, some "fee"],
          n.HasRoomFor (.utilityFactor [("sound", "loud")] ["drill", "oil"] utility) ∧
          n.HasRoomFor (.solveUtility [("sound", "loud")] ["drill", "oil"] utility)) ∧
        ∃ evidence ∈ (n.evidence [("sound", "loud")]).toOption,
          ∃ query ∈ (n.unobservedQuery evidence ["drill", "oil"]).toOption, True) (by decide +kernel)
  obtain ⟨_, m, hensure, -⟩ := exists_returns_of_toOption hresolve
  obtain ⟨evidence, hevidence, hquery⟩ := exists_ok_of_toOption hnames
  obtain ⟨query, hquery, -⟩ := exists_ok_of_toOption hquery
  obtain ⟨u, hu, hkind, hname⟩ := hutility
  obtain ⟨-, hanswers, hterm, htotal, -⟩ :=
    exists_returns_utilityFactor_and_solveUtility hcompile hensure
  obtain ⟨-, -, hanswers⟩ := hanswers _ _ _ _ hevidence hquery
  obtain ⟨t, ht, hmeasures⟩ := hterm u hu hkind
  rw [hname] at hmeasures
  obtain ⟨hwhole, hwhole'⟩ := hrooms none (by simp)
  obtain ⟨hfee, hfee'⟩ := hrooms (some "fee") (by simp)
  exact ⟨n, m, evidence, query, u, t, hcompile, hensure, hevidence, hquery, hname, ht, hjoint, hrooms,
    hanswers _ _ (htotal ⟨u, hu, hkind⟩) hjoint hwhole hwhole', hanswers _ _ hmeasures hjoint hfee hfee'⟩

/-- A coin without anything that depends on it. -/
def idle : Definition ℚ where
  declarations := [⟨"coin", "chance", ["heads", "tails"]⟩]
  entries := [⟨"coin", [], some [1 / 2, 1 / 2]⟩]

/-- Sixteen dice, of which the first decides about a prize. -/
def lottery : Definition ℚ where
  declarations := dice.declarations ++ [⟨"prize", "utility", []⟩]
  entries := dice.entries ++ [⟨"prize", ["a"], some (1 :: List.replicate 15 0)⟩]

/-- The mean of the utility is zero if there is none, but the questions about it fail.  And where the
outcomes of all dice are asked for, the weighted utility has no cells, and there are no expected
utilities, though the prize may be won. -/
theorem exists_utility_without_answers :
    (∃ n m, compile idle {} = .ok n ∧ Returns NetworkM.ensurePolicies n ⟨⟩ m ∧ n.evidence [] = .ok [] ∧
      n.unobservedQuery [] [] = .ok [] ∧ (∀ x, m.integral m.utility [] x = 0) ∧
      (∀ f n', ¬Returns (NetworkM.utilityFactor [] [] none) n f n') ∧
      ∀ u n', ¬Returns (NetworkM.solveUtility [] [] none) n u n') ∧
    ∃ n m query f n' n'', compile lottery {} = .ok n ∧ Returns NetworkM.ensurePolicies n ⟨⟩ m ∧
      n.unobservedQuery [] letters = .ok query ∧ m.integral m.utility query (fun _ => 0) ≠ 0 ∧
      Returns (NetworkM.utilityFactor [] letters none) n f n' ∧ f.cells = #[] ∧
      Returns (NetworkM.solveUtility [] letters none) n ⟨letters, []⟩ n'' := by
  constructor
  · obtain ⟨n, hcompile, hresolve, hutility, hnone⟩ := exists_ok_of_toOption (x := compile idle {})
      (P := fun n => (∃ b ∈ (runFrom NetworkM.ensurePolicies n).1.toOption, True) ∧
        n.utilities = [] ∧ ∀ u ∈ n.nodes, u.kind ≠ .utility) (by decide +kernel)
    obtain ⟨_, m, hensure, -⟩ := exists_returns_of_toOption hresolve
    obtain ⟨k, ps, rfl⟩ := exists_advanced_of_ensurePolicies (fresh_of_compile hcompile) hensure
    have hzero : ∀ x, utility (n.advanced k ps) x = 0 := fun x => by
      change (n.utilities.map fun p => n.weightOf p.1 * p.2.valueAt x).sum = 0
      rw [hutility]
      rfl
    obtain ⟨hfactor, hsolve⟩ := runFrom_utility_of_none hnone [] []
    refine ⟨n, _, hcompile, hensure, rfl, rfl, fun x => ?_, fun f n' h => ?_, fun u n' h => ?_⟩
    · rw [integral]
      simp only [hzero, mul_zero, Axes.sumOver_zero]
    · cases hfactor.symm.trans h
    · cases hsolve.symm.trans h
  · obtain ⟨n, hcompile, hresolve, hquery, hfactor, hsolve⟩ := exists_ok_of_toOption
      (x := compile lottery {})
      (P := fun n => (∃ b ∈ (runFrom NetworkM.ensurePolicies n).1.toOption, True) ∧
        (∃ query ∈ (n.unobservedQuery [] letters).toOption,
          integral (runFrom NetworkM.ensurePolicies n).2 (runFrom NetworkM.ensurePolicies n).2.utility
            query (fun _ => 0) ≠ 0) ∧
        (∃ f ∈ (runFrom (NetworkM.utilityFactor [] letters none) n).1.toOption, f.cells = #[]) ∧
        ∃ u ∈ (runFrom (NetworkM.solveUtility [] letters none) n).1.toOption, u = ⟨letters, []⟩)
      (by decide +kernel)
    obtain ⟨_, m, hensure, -⟩ := exists_returns_of_toOption hresolve
    obtain ⟨query, hquery, hutility⟩ := exists_ok_of_toOption hquery
    obtain ⟨f, n', hfactor, hcells⟩ := exists_returns_of_toOption hfactor
    obtain ⟨_, n'', hsolve, rfl⟩ := exists_returns_of_toOption hsolve
    obtain rfl : (runFrom NetworkM.ensurePolicies n).2 = m := congrArg Prod.snd hensure
    exact ⟨n, _, query, f, n', n'', hcompile, hensure, hquery, hutility, hfactor, hcells, hsolve⟩

end Influence.Network
