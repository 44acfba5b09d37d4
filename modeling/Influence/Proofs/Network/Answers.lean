import Influence.Proofs.Network.Room

/-! # Questions to a compiled network

A question to a compiled network returns joint distributions and posteriors
(`Network.exists_returns_joint_and_solveQuery`), provided that there is room for the question.

Without room the number of joint outcomes may wrap around.  And a distribution is scaled only if it does
not add up to zero, so that also negative cells may lead to other answers (`Network.exists_misleading_answers`). -/

namespace Influence.Network

variable {n m : Network ℚ} {definition : Definition ℚ} {config : Config ℚ}

theorem exists_advanced_of_ensurePolicies [Build] (hf : n.Fresh)
    (h : Returns NetworkM.ensurePolicies n ⟨⟩ m) : ∃ k ps, m = n.advanced k ps := by
  have hlevel := Lockstep.ensurePolicies hf ⟨hf.isVersion, hf.isVersion⟩
  rw [show runFrom NetworkM.ensurePolicies n = (.ok ⟨⟩, m) from h] at hlevel
  cases hlevel with
  | ok hlevel =>
      obtain ⟨ps, -, k, -, hm, -⟩ := hlevel
      exact ⟨k, ps, hm⟩

/-- **Questions return joint distributions and posteriors.**  If the decisions of a compiled network
can be resolved, the joint probability of a query and the evidence adds up the products of the chance
tables and the rules found, with its axes in the order of the query, and each variable of a query gets
its posterior, provided that there is room for the question.  Evidence that is repeated changes neither. -/
theorem exists_returns_joint_and_solveQuery (h : compile definition config = .ok n)
    (hensure : Returns NetworkM.ensurePolicies n ⟨⟩ m) :
    m = { n with registry := m.registry, policies := m.policies } ∧
    (∀ observed evidence, n.evidence observed = .ok evidence →
      (∀ o, o ∈ evidence ↔ ∃ p ∈ observed, n.IsObservation p o) ∧
      (∀ names query, n.unobservedQuery evidence names = .ok query →
        List.Forall₂ n.IsNamed names query ∧
        (n.HasRoomFor (.joint observed names) →
          ∃ f n', Returns (NetworkM.joint observed names) n f n' ∧ m.IsJoint evidence query f ∧
            f.axes.ids = Axes.ids query)) ∧
      ∀ names query, n.query names = .ok query →
        List.Forall₂ n.IsNamed names query ∧
        (n.HasRoomFor (.solveQuery observed names) →
          ∃ n', Returns (NetworkM.solveQuery observed names) n
            (names.zip (query.map (m.posterior evidence))) n')) ∧
    ∀ (front back : List (String × String)) (p : String × String) (names : List String), p ∈ front →
      (NetworkM.joint (front ++ p :: back) names : NetworkM ℚ (Factor ℚ)) =
          NetworkM.joint (front ++ back) names ∧
        (NetworkM.solveQuery (front ++ p :: back) names : NetworkM ℚ (List (String × List ℚ))) =
          NetworkM.solveQuery (front ++ back) names := by
  have hn := (compiled_of_compile h).1
  obtain ⟨k, ps, rfl⟩ := exists_advanced_of_ensurePolicies (fresh_of_compile h) hensure
  -- with room for a question the network is also what exact sizes make of it
  have hunlimited : ∀ {c : Call ℚ}, n.HasRoomFor c →
      @compile ℚ _ Exact.build definition config = .ok n ∧
        Returns (@NetworkM.ensurePolicies ℚ Exact.build _) n ⟨⟩ (n.advanced k ps) := fun hroom =>
    ⟨compile_eq_ok_of_isSmall h hroom.tables Exact.build,
      (returns_ensurePolicies_iff_of_hasRoom h hroom.tables hroom.rules .release Exact.build).mp hensure⟩
  refine ⟨rfl,
    fun observed evidence hevidence => ⟨(isEvidence_of_ok hn hevidence).2,
      fun names query hquery => ⟨isNamed_of_query hn (unobservedQuery_eq_ok hquery).1, fun hroom => ?_⟩,
      fun names query hquery => ⟨isNamed_of_query hn hquery, fun hroom => ?_⟩⟩,
    fun front back p names hp => ⟨?_, ?_⟩⟩
  · obtain ⟨hcompile, hensure⟩ := hunlimited hroom
    obtain ⟨f, n', hjoint, hf⟩ := exists_returns_joint_unlimited hcompile hensure hevidence hquery
    have hcall := call_eq_of_hasRoom h (c := .joint observed names) trivial hroom Exact.build .release
    exact ⟨f, n', (returns_congr_of_call (fun _ _ => Answer.factor.inj) hcall).mp hjoint, hf⟩
  · obtain ⟨hcompile, hensure⟩ := hunlimited hroom
    obtain ⟨n', hsolve⟩ := exists_returns_solveQuery_unlimited hcompile hensure hevidence hquery
    have hcall := call_eq_of_hasRoom h (c := .solveQuery observed names) trivial hroom Exact.build .release
    exact ⟨n', (returns_congr_of_call (fun _ _ => Answer.distributions.inj) hcall).mp hsolve⟩
  · simp only [NetworkM.joint, NetworkM.ask, evidence_repeat _ hp]
  · simp only [NetworkM.solveQuery, evidence_repeat _ hp]

/-- A loud sounding, which is listed twice, and the names of an observed and of other variables. -/
theorem exists_returns_joint_and_solveQuery_wildcat : ∃ n m evidence query all,
    compile wildcat {} = .ok n ∧ Returns NetworkM.ensurePolicies n ⟨⟩ m ∧
    n.evidence [("sound", "loud"), ("sound", "loud")] = .ok evidence ∧
    n.unobservedQuery evidence ["drill", "oil"] = .ok query ∧
    n.query ["sound", "drill", "oil"] = .ok all ∧
    n.HasRoomFor (.joint [("sound", "loud"), ("sound", "loud")] ["drill", "oil"]) ∧
    n.HasRoomFor (.solveQuery [("sound", "loud"), ("sound", "loud")] ["sound", "drill", "oil"]) ∧
    (∃ f n', Returns (NetworkM.joint [("sound", "loud"), ("sound", "loud")] ["drill", "oil"]) n f n' ∧
      m.IsJoint evidence query f ∧ f.axes.ids = Axes.ids query) ∧
    (∃ n', Returns (NetworkM.solveQuery [("sound", "loud"), ("sound", "loud")]
      ["sound", "drill", "oil"]) n
      (["sound", "drill", "oil"].zip (all.map (m.posterior evidence))) n') ∧
    (NetworkM.joint [("sound", "loud"), ("sound", "loud")] ["drill", "oil"] : NetworkM ℚ _) =
      NetworkM.joint [("sound", "loud")] ["drill", "oil"] := by
  obtain ⟨n, hcompile, hjoint, hquery, hresolve, hnames⟩ := exists_ok_of_toOption
    (x := compile wildcat {})
    (P := fun n =>
      n.HasRoomFor (.joint [("sound", "loud"), ("sound", "loud")] ["drill", "oil"]) ∧
      n.HasRoomFor (.solveQuery [("sound", "loud"), ("sound", "loud")] ["sound", "drill", "oil"]) ∧
      (∃ b ∈ (runFrom NetworkM.ensurePolicies n).1.toOption, True) ∧
      ∃ evidence ∈ (n.evidence [("sound", "loud"), ("sound", "loud")]).toOption,
      (∃ query ∈ (n.unobservedQuery evidence ["drill", "oil"]).toOption, True) ∧
      ∃ all ∈ (n.query ["sound", "drill", "oil"]).toOption, True) (by decide +kernel)
  obtain ⟨_, m, hensure, -⟩ := exists_returns_of_toOption hresolve
  obtain ⟨evidence, hevidence, hsome, hall⟩ := exists_ok_of_toOption hnames
  obtain ⟨query, hsome, -⟩ := exists_ok_of_toOption hsome
  obtain ⟨all, hall, -⟩ := exists_ok_of_toOption hall
  obtain ⟨-, hanswers, hrepeat⟩ := exists_returns_joint_and_solveQuery hcompile hensure
  obtain ⟨-, hjoints, hsolves⟩ := hanswers _ _ hevidence
  exact ⟨n, m, evidence, query, all, hcompile, hensure, hevidence, hsome, hall, hjoint, hquery,
    (hjoints _ _ hsome).2 hjoint, (hsolves _ _ hall).2 hquery,
    (hrepeat [("sound", "loud")] [] ("sound", "loud") _ (by simp)).1⟩

/-- A variable whose probabilities cancel out. -/
def canceling : Definition ℚ where
  declarations := [⟨"a", "chance", ["x", "y"]⟩]
  entries := [⟨"a", [], some [1, -1]⟩]

/-- What adds up to zero is not scaled, and need not be zero itself.  And the joint distribution of
sixteen dice has no cells, though all of their joint outcomes are possible. -/
theorem exists_misleading_answers :
    (∃ n m n', compile canceling {} = .ok n ∧ Returns NetworkM.ensurePolicies n ⟨⟩ m ∧
      m.probability [] (fun _ => 0) = 0 ∧ Returns (NetworkM.solveQuery [] ["a"]) n [("a", [1, -1])] n') ∧
    ∃ n m n' query f, compile dice {} = .ok n ∧ Returns NetworkM.ensurePolicies n ⟨⟩ m ∧
      n.unobservedQuery [] letters = .ok query ∧ Returns (NetworkM.joint [] letters) n f n' ∧
      f.cells = #[] ∧ m.probability query (fun _ => 0) ≠ 0 := by
  constructor
  · obtain ⟨n, hcompile, hresolve, hsolve⟩ := exists_ok_of_toOption (x := compile canceling {})
      (P := fun n => (∃ b ∈ (runFrom NetworkM.ensurePolicies n).1.toOption,
          (runFrom NetworkM.ensurePolicies n).2.probability [] (fun _ => 0) = 0) ∧
        ∃ answer ∈ (runFrom (NetworkM.solveQuery [] ["a"]) n).1.toOption, answer = [("a", [1, -1])])
      (by decide +kernel)
    obtain ⟨_, m, hensure, hzero⟩ := exists_returns_of_toOption hresolve
    obtain ⟨_, n', hsolve, rfl⟩ := exists_returns_of_toOption hsolve
    obtain rfl : (runFrom NetworkM.ensurePolicies n).2 = m := congrArg Prod.snd hensure
    exact ⟨n, _, n', hcompile, hensure, hzero, hsolve⟩
  · obtain ⟨n, hcompile, hresolve, hquery, hjoint⟩ := exists_ok_of_toOption (x := compile dice {})
      (P := fun n => (∃ b ∈ (runFrom NetworkM.ensurePolicies n).1.toOption, True) ∧
        (∃ query ∈ (n.unobservedQuery [] letters).toOption,
          (runFrom NetworkM.ensurePolicies n).2.probability query (fun _ => 0) ≠ 0) ∧
        ∃ f ∈ (runFrom (NetworkM.joint [] letters) n).1.toOption, f.cells = #[]) (by decide +kernel)
    obtain ⟨_, m, hensure, -⟩ := exists_returns_of_toOption hresolve
    obtain ⟨query, hquery, hprobability⟩ := exists_ok_of_toOption hquery
    obtain ⟨f, n', hjoint, hcells⟩ := exists_returns_of_toOption hjoint
    obtain rfl : (runFrom NetworkM.ensurePolicies n).2 = m := congrArg Prod.snd hensure
    exact ⟨n, _, n', query, f, hcompile, hensure, hquery, hjoint, hcells, hprobability⟩

end Influence.Network
