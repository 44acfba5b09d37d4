import Influence.Proofs.Network.Causes
import Influence.Proofs.Network.ConditionalUtility

/-! # The law of total expectation

The expected utilities for the joint outcomes of a query, weighted by the probabilities of these, add
up to the expected utility without the query, weighted by the probability of the evidence
(`Network.sum_joint_mul_solveUtility`), provided that there is room for the questions.

An expected utility is a quotient, which is zero where the probability is.  If the chance tables are
not negative nothing is lost there: what has the probability zero adds nothing to the weighted utility
either (`Network.Ready.probability_mul_conditionalMean`). -/

namespace Influence.Network

section

open scoped Exact

variable {n m f : Network ℚ} {s : Setting ℚ} {observed : List (String × String)}
  {names : List String} {utility : Option String} {evidence : List Observation}
  {query : List Variable} {target : Target} {F : Assignment → ℚ} {x : Assignment}

/-- The cells of the tables of the chance variables are not negative. -/
def IsNonnegative (n : Network ℚ) : Prop := ∀ p ∈ n.chances, ∀ a ∈ p.2.cells.toList, 0 ≤ a

instance (n : Network ℚ) : Decidable n.IsNonnegative :=
  inferInstanceAs (Decidable (∀ p ∈ n.chances, ∀ a ∈ p.2.cells.toList, 0 ≤ a))

/-! ### Means -/

/-- Rules are distributions, so only a chance table could make the probability of a state negative. -/
theorem Ready.weight_nonneg (h : n.Ready s) (hchance : n.IsNonnegative) (hx : x.Valid n.sizes) :
    0 ≤ n.chance x * Tables.weight n.rules x := by
  refine mul_nonneg (Tables.weight_nonneg fun t ht => ?_) (Tables.weight_nonneg fun t ht => ?_)
  · obtain ⟨p, hp, rfl⟩ := List.mem_map.mp ht
    exact Table.valueAt_nonneg (hchance p hp) x
  · obtain ⟨d, -, hrule⟩ := exists_left_of_mem h.isRule ht
    exact hrule.conditional.nonneg x hx

/-- The mean of a function times the probability is the integral, also where the probability is zero. -/
theorem Ready.probability_mul_conditionalMean (h : n.Ready s) (hchance : n.IsNonnegative)
    (hevidence : n.IsEvidence evidence) (F : Assignment → ℚ) (query : List Variable)
    (hx : x.Valid n.sizes) :
    n.probability (query ++ evidence.map (·.subject)) (x.observing evidence) *
        n.conditionalMean F evidence query x =
      n.integral F (query ++ evidence.map (·.subject)) (x.observing evidence) := by
  have hn := h.compiled
  have hobserving : (x.observing evidence).Valid n.sizes := hx.observing fun o ho => by
    rw [← hn.sized_states o.subject (hevidence.subject o ho)]
    exact hevidence.outcome o ho
  unfold conditionalMean
  by_cases hzero : n.probability (query ++ evidence.map (·.subject)) (x.observing evidence) = 0
  · rw [hzero, zero_mul]
    exact (Axes.sumOver_mul_eq_zero (hn.sized_states.subset List.filter_sublist.subset) hobserving
      (fun _ hy => h.weight_nonneg hchance hy) hzero F).symm
  · exact mul_div_cancel₀ _ hzero

/-- The means for the outcomes of a query, weighted by probability, add up to the mean without it. -/
theorem Ready.sumOver_probability_mul_conditionalMean (h : n.Ready s) (hchance : n.IsNonnegative)
    (hevidence : n.IsEvidence evidence) (hquery : n.IsQuery query)
    (hfree : ∀ v ∈ query, v.id ∉ Axes.ids (evidence.map (·.subject))) (F : Assignment → ℚ)
    (hx : x.Valid n.sizes) :
    Axes.sumOver query (fun y =>
        n.probability (query ++ evidence.map (·.subject)) (y.observing evidence) *
          n.conditionalMean F evidence query y) x =
      n.probability (evidence.map (·.subject)) (x.observing evidence) *
        n.conditionalMean F evidence [] x := by
  have hn := h.compiled
  have hsized : Axes.Sized n.sizes query := hn.sized_states.subset hquery.subset
  calc _ = Axes.sumOver query (fun y =>
          n.integral F (query ++ evidence.map (·.subject)) (y.observing evidence)) x :=
        Axes.sumOver_congr hsized hx fun _ hy _ =>
          h.probability_mul_conditionalMean hchance hevidence F query hy
    _ = Axes.sumOver query (n.integral F (query ++ evidence.map (·.subject)))
          (x.observing evidence) := sumOver_observing hfree _
    _ = n.integral F (evidence.map (·.subject)) (x.observing evidence) := by
        refine hn.sumOver_unfixed hsized hquery.nodup (List.map_subset _ hquery.subset)
          (fun id => by rw [Axes.ids_append, List.mem_append]) (fun id hid => ?_) _ _
        obtain ⟨v, hv, rfl⟩ := Axes.mem_ids.mp hid
        exact hfree v hv
    _ = _ := (h.probability_mul_conditionalMean hchance hevidence F [] hx).symm

/-! ### Questions -/

/-- The joint probabilities and the expected utilities of a query are laid out in the same way. -/
theorem Ready.exists_returns_rows (h : n.Ready s) (hevidence : n.evidence observed = .ok evidence)
    (hquery : n.unobservedQuery evidence names = .ok query)
    (htarget : n.utilityTarget utility = .ok target) (hasks : n.Asks target F)
    (hx : x.Valid n.sizes) :
    ∃ f values n₁ n₂, Returns (NetworkM.joint observed names) n f n₁ ∧
      Returns (NetworkM.solveUtility observed names utility) n ⟨names, values⟩ n₂ ∧
      f.axes.ids = Axes.ids query ∧
      f.table.cells.toList = (Axes.outcomes query x).map (fun y =>
        n.probability (query ++ evidence.map (·.subject)) (y.observing evidence)) ∧
      values = (Axes.outcomes query x).map (n.conditionalMean F evidence query) := by
  have hn := h.compiled
  have hq := isQuery_of_ok hn (unobservedQuery_eq_ok hquery).1
  have hsized : Axes.Sized n.sizes query := hn.sized_states.subset hq.subset
  obtain ⟨f, r₁, hjoint, hf, hids⟩ := h.exists_returns_joint hevidence hquery
  obtain ⟨values, r₂, hsolve, hlength, hvalues⟩ :=
    h.exists_returns_solveUtility hevidence hquery htarget hasks
  have hsize : f.table.cells.toList.length = Axes.count query := by
    rw [Array.length_toList, hf.fits.wellFormed.size_cells, Axes.count, Axes.count,
      hf.fits.sized.arities, hsized.arities]
    exact congrArg (fun ids => Layout.size (ids.map n.sizes)) hids
  refine ⟨f, values, _, _, hjoint, hsolve, hids, ?_,
    Axes.eq_map_outcomes hq.nodup hsized hx hlength hvalues⟩
  refine Axes.eq_map_outcomes hq.nodup hsized hx hsize fun y hy => ?_
  rw [hf.fits.getElem?_cells hsized hids hy, hf.value y hy]

theorem HasTerm.exists_measures (h : n.HasTerm utility) (hn : n.Compiled) :
    ∃ F, n.Measures utility F := by
  cases utility with
  | none => exact ⟨n.utility, .total h⟩
  | some name =>
      obtain ⟨m, hm, rfl, hkind⟩ := h
      obtain ⟨t, -, hmeasures⟩ := hn.exists_measures hm hkind
      exact ⟨_, hmeasures⟩

theorem CanAsk.exists_unobservedQuery (h : n.CanAsk observed names) (hn : n.Compiled) :
    ∃ evidence query, n.evidence observed = .ok evidence ∧
      n.unobservedQuery evidence names = .ok query := by
  obtain ⟨evidence, hevidence⟩ := (exists_evidence_iff hn).mpr h.evidence
  cases hquery : n.unobservedQuery evidence names with
  | ok query => exact ⟨evidence, query, hevidence, hquery⟩
  | error e => exact absurd h (refuses_of_unobservedQuery hn hevidence hquery).refused

/-- A version of a network can be made ready for questions if the decisions can be resolved. -/
theorem Fresh.exists_ready (hf : f.Fresh) (hsolvable : f.IsSolvable) :
    ∃ s m, f.IsVersion m ∧ m.Ready s := by
  have hends := Ends.ensurePolicies hf hf.isVersion
  obtain ⟨⟨⟩, hok⟩ := (hends.imp (fun _ he => he.refused) fun _ _ h => h.isSolvable).isOk_iff.mpr
    hsolvable
  have hensure : Returns NetworkM.ensurePolicies f ⟨⟩ (runFrom NetworkM.ensurePolicies f).2 :=
    Prod.ext hok rfl
  obtain ⟨⟨s, hready⟩, -⟩ := ready_of_ensurePolicies hf.compiled hf.policies hensure
  exact ⟨s, _, (hends.result hok).isVersion, hready⟩

theorem call_of_returns [Build] {β : Type} {c : Call ℚ} {x : NetworkM ℚ β} {g : β → Answer ℚ} {b : β}
    (hrun : c.run = x >>= fun b => pure (g b)) (h : Returns x n b m) :
    n.call c = .ok (g b).withoutNumber := by
  have hreturns : Returns c.run n (g b) m := by
    rw [hrun]
    exact returns_bind.mpr ⟨b, m, h, returns_pure.mpr ⟨rfl, rfl⟩⟩
  rw [call, hreturns]
  rfl

/-- The questions about a query are answered row by row, and the expected utilities of the rows, each
times the joint probability of the row and the evidence, add up to the expected utility given the
evidence times the probability of the evidence. -/
def AddsUpOver [Build] (n : Network ℚ) (observed : List (String × String)) (names : List String)
    (utility : Option String) : Prop :=
  ∃ query f values f₀ probability mean,
    List.Forall₂ n.IsNamed names query ∧ f.axes.ids = Axes.ids query ∧
    n.call (.joint observed names) = .ok (.factor f) ∧
    n.call (.solveUtility observed names utility) = .ok (.utilities ⟨names, values⟩) ∧
    values.length = f.table.cells.toList.length ∧
    n.call (.joint observed []) = .ok (.factor f₀) ∧ f₀.table.cells.toList = [probability] ∧
    n.call (.solveUtility observed [] utility) = .ok (.utilities ⟨[], [mean]⟩) ∧
    (List.zipWith (· * ·) f.table.cells.toList values).sum = probability * mean

/-- The answers of a network whose decisions have been resolved add up. -/
theorem Ready.addsUpOver (h : n.Ready s) (hchance : n.IsNonnegative)
    (hask : n.CanAsk observed names) (hterm : n.HasTerm utility) :
    n.AddsUpOver observed names utility := by
  have hn := h.compiled
  obtain ⟨F, hmeasures⟩ := hterm.exists_measures hn
  obtain ⟨target, htarget, hasks⟩ := hmeasures.exists_target hn
  obtain ⟨evidence, query, hevidence, hquery⟩ := hask.exists_unobservedQuery hn
  obtain ⟨hnamed, hfree⟩ := unobservedQuery_eq_ok hquery
  obtain ⟨f, values, _, _, hjoint, hutility, hids, hcells, rfl⟩ :=
    h.exists_returns_rows hevidence hquery htarget hasks hn.valid_zero
  have hnone : n.unobservedQuery evidence [] = .ok [] := rfl
  obtain ⟨f₀, _, _, _, hjoint₀, hutility₀, -, hcells₀, rfl⟩ :=
    h.exists_returns_rows hevidence hnone htarget hasks hn.valid_zero
  refine ⟨query, { f with id := 0 }, _, { f₀ with id := 0 }, _, _, isNamed_of_query hn hnamed, hids,
    call_of_returns (g := .factor) rfl hjoint, call_of_returns (g := .utilities) rfl hutility, ?_,
    call_of_returns (g := .factor) rfl hjoint₀, hcells₀, call_of_returns (g := .utilities) rfl hutility₀,
    ?_⟩
  · rw [hcells, List.length_map, List.length_map]
  · rw [hcells, List.zipWith_map, List.zipWith_self, Axes.sum_outcomes]
    exact h.sumOver_probability_mul_conditionalMean hchance (isEvidence_of_ok hn hevidence).1
      (isQuery_of_ok hn hnamed) hfree F hn.valid_zero

/-- Where sizes are numbers, the answers of a version of a network whose decisions can be resolved add up. -/
theorem Fresh.addsUpOver {ps : Answer ℚ} (hf : f.Fresh) (hversion : f.IsVersion m)
    (hsolve : m.call .solvePolicies = .ok ps) (hchance : m.IsNonnegative)
    (hask : m.CanAsk observed names) (hterm : m.HasTerm utility) :
    m.AddsUpOver observed names utility := by
  have hsolvable : f.IsSolvable :=
    ((hf.exists_call_iff (c := .solvePolicies) hversion trivial).mp ⟨ps, hsolve⟩).1
  obtain ⟨s, g, hg, hready⟩ := hf.exists_ready hsolvable
  have hcall : ∀ c, m.call c = g.call c := Akin.call_eq ⟨f, hf, hversion, hg⟩
  unfold AddsUpOver
  simp only [hcall]
  -- what the question is about does not change with the calls
  obtain ⟨j, qs, -, rfl⟩ := hg
  obtain ⟨k, rs, -, rfl⟩ := hversion
  exact hready.addsUpOver hchance
    ⟨⟨hask.evidence.outcome, hask.evidence.agree⟩, ⟨hask.query.distinct, hask.query.state⟩,
      hask.unobserved⟩ hterm

end

variable {m : Network ℚ} {observed : List (String × String)} {names : List String}
  {utility : Option String}

theorem Compiled.exists_solveUtility_eq_error [Build] (hm : m.Compiled) (hterm : ¬m.HasTerm utility)
    (observed : List (String × String)) (names : List String) :
    ∃ e, m.call (.solveUtility observed names utility) = .error e := by
  cases htarget : m.utilityTarget utility with
  | ok target => exact absurd (hasTerm_of_ok hm htarget) hterm
  | error e =>
      have hfactor : runFrom (NetworkM.utilityFactor observed names utility) m = (.error e, m) := by
        change runFrom ((liftM (m.utilityTarget utility) : NetworkM ℚ Target) >>= fun target =>
          NetworkM.ask observed names target) m = _
        rw [htarget]
        rfl
      refine ⟨e, ?_⟩
      unfold call Call.run NetworkM.solveUtility
      rw [runFrom_bind_of_error (runFrom_bind_of_error hfactor)]
      rfl

/-- The questions that the law is about. -/
def rowQuestions (observed : List (String × String)) (names : List String) (utility : Option String) :
    List (Call ℚ) :=
  [.joint observed names, .solveUtility observed names utility, .joint observed [],
    .solveUtility observed [] utility]

/-- **The law of total expectation.**  If the decisions of a network can be resolved and its chance
tables are not negative, the expected utilities for the rows of a query add up to the expected utility
without it, each weighted by probability, provided that there is room for the questions.  This holds of the
whole utility and of each term of it, and without a term no expected utility is returned. -/
theorem sum_joint_mul_solveUtility {ps : Answer ℚ} (h : m.IsReachable)
    (hsolve : m.call .solvePolicies = .ok ps) (hchance : m.IsNonnegative)
    (hask : m.CanAsk observed names) (utility : Option String) :
    (m.HasTerm utility → (∀ c ∈ rowQuestions observed names utility, m.HasRoomFor c) →
      m.AddsUpOver observed names utility) ∧
    (¬m.HasTerm utility → ∀ names, ∃ e, m.call (.solveUtility observed names utility) = .error e) := by
  refine ⟨fun hterm hrooms => ?_, fun hterm names =>
    h.compiled.exists_solveUtility_eq_error hterm observed names⟩
  have hquestion : ∀ c ∈ rowQuestions observed names utility, c.IsQuestion := by
    simp [rowQuestions, Call.IsQuestion]
  have hroom := hrooms (.joint observed names) (by simp [rowQuestions])
  obtain ⟨f, hversions, -⟩ := h.exists_isVersion (c := .joint observed names) trivial hroom
  obtain ⟨hf, hversion⟩ := hversions .release
  obtain ⟨hexact, hversion'⟩ := hversions Exact.build
  have hcall : ∀ {c : Call ℚ}, c.IsQuestion → m.HasRoomFor c → @call ℚ Exact.build _ m c = m.call c := by
    intro c hc hroom
    unfold call
    rw [hversion.call_eq hf hc hroom Exact.build .release]
  have hsame := fun c hc => hcall (hquestion c hc) (hrooms c hc)
  simp only [rowQuestions, List.forall_mem_cons] at hsame
  obtain ⟨hjoint, hutility, hjoint₀, hutility₀, -⟩ := hsame
  have hadds := hexact.addsUpOver hversion' ((hcall (c := .solvePolicies) trivial hroom.solvePolicies).trans hsolve)
    hchance hask hterm
  unfold AddsUpOver at hadds ⊢
  rwa [hjoint, hutility, hjoint₀, hutility₀] at hadds

/-- After a session on the wildcatter's network, in which the sounding is never loud without a test. -/
theorem sum_joint_mul_solveUtility_session : ∃ (m : Network ℚ) (ps : Answer ℚ), m.IsReachable ∧
    m.call .solvePolicies = .ok ps ∧ m.IsNonnegative ∧
    m.CanAsk [("sound", "loud")] ["test", "oil"] ∧
    (∀ utility ∈ [none, some "fee"], m.HasTerm utility ∧
      (∀ c ∈ rowQuestions [("sound", "loud")] ["test", "oil"] utility, m.HasRoomFor c) ∧
      m.AddsUpOver [("sound", "loud")] ["test", "oil"] utility) ∧
    ¬m.HasTerm (some "oil") ∧
      ∃ e, m.call (.solveUtility [("sound", "loud")] [] (some "oil")) = .error e := by
  obtain ⟨n, hcompile, hsolve, hchance, houtcome, hdistinct, hstate, htotal, hfee, hoil, hrooms⟩ :=
    exists_ok_of_toOption (x := compile wildcat {})
    (P := fun n => (∃ ps ∈ ((n.afterCalls session).call .solvePolicies).toOption, True) ∧
      (n.afterCalls session).IsNonnegative ∧
      (∀ p ∈ [("sound", "loud")], ∃ v ∈ (n.afterCalls session).nodes,
        v.name = p.1 ∧ v.kind ≠ .utility ∧ p.2 ∈ v.outcomes) ∧
      ["test", "oil"].Nodup ∧
      (∀ name ∈ ["test", "oil"], ∃ v ∈ (n.afterCalls session).nodes,
        v.name = name ∧ v.kind ≠ .utility) ∧
      (∃ v ∈ (n.afterCalls session).nodes, v.kind = .utility) ∧
      (∃ v ∈ (n.afterCalls session).nodes, v.name = "fee" ∧ v.kind = .utility) ∧
      (¬∃ v ∈ (n.afterCalls session).nodes, v.name = "oil" ∧ v.kind = .utility) ∧
      ∀ utility ∈ [none, some "fee"],
        ∀ c ∈ rowQuestions [("sound", "loud")] ["test", "oil"] utility,
          (n.afterCalls session).HasRoomFor c) (by decide +kernel)
  obtain ⟨ps, hsolve, -⟩ := exists_ok_of_toOption hsolve
  have hreachable : (n.afterCalls session).IsReachable := ⟨wildcat, {}, n, session, hcompile, rfl⟩
  have hask : (n.afterCalls session).CanAsk [("sound", "loud")] ["test", "oil"] :=
    ⟨⟨houtcome, by simp⟩, ⟨hdistinct, hstate⟩, by simp⟩
  have hlaw := sum_joint_mul_solveUtility hreachable hsolve hchance hask
  have hterms : ∀ utility ∈ [none, some "fee"], (n.afterCalls session).HasTerm utility := by
    simpa using ⟨htotal, hfee⟩
  exact ⟨_, ps, hreachable, hsolve, hchance, hask, fun utility hmem => ⟨hterms utility hmem,
    hrooms utility hmem, (hlaw utility).1 (hterms utility hmem) (hrooms utility hmem)⟩, hoil,
    (hlaw (some "oil")).2 hoil []⟩

/-- Where the outcomes of sixteen dice are asked for, there are no rows that could add up to the expected
prize. -/
theorem exists_not_addsUpOver : ∃ (m : Network ℚ) (ps : Answer ℚ), m.IsReachable ∧
    m.call .solvePolicies = .ok ps ∧ m.IsNonnegative ∧ m.CanAsk [] letters ∧ m.HasTerm none ∧
    ¬m.AddsUpOver [] letters none := by
  obtain ⟨n, hcompile, hsolve, hchance, hstate, hterm, hrow, hrow₀, hvalue₀⟩ :=
    exists_ok_of_toOption (x := compile lottery {})
    (P := fun n => (∃ ps ∈ (n.call .solvePolicies).toOption, True) ∧ n.IsNonnegative ∧
      (∀ name ∈ letters, ∃ v ∈ n.nodes, v.name = name ∧ v.kind ≠ .utility) ∧
      (∃ v ∈ n.nodes, v.kind = .utility) ∧
      (∃ f ∈ (runFrom (NetworkM.joint [] letters) n).1.toOption, f.table.cells = #[]) ∧
      (∃ f ∈ (runFrom (NetworkM.joint [] []) n).1.toOption, f.table.cells = #[1]) ∧
      ∃ u ∈ (runFrom (NetworkM.solveUtility [] [] none) n).1.toOption, u.values = [1 / 16])
    (by decide +kernel)
  obtain ⟨ps, hsolve, -⟩ := exists_ok_of_toOption hsolve
  obtain ⟨f, _, hrow, hcells⟩ := exists_returns_of_toOption hrow
  obtain ⟨f₀, _, hrow₀, hcells₀⟩ := exists_returns_of_toOption hrow₀
  obtain ⟨u, _, hvalue₀, hvalues⟩ := exists_returns_of_toOption hvalue₀
  refine ⟨n, ps, ⟨lottery, {}, n, [], hcompile, rfl⟩, hsolve, hchance,
    ⟨⟨by simp, by simp⟩, ⟨by decide, hstate⟩, by simp⟩, hterm, ?_⟩
  rintro ⟨_, g, values, g₀, probability, mean, -, -, hjoint, -, -, hjoint₀, hprobability, hmean, hsum⟩
  obtain rfl : { f with id := 0 } = g :=
    Answer.factor.inj (Except.ok.inj ((call_of_returns (g := .factor) rfl hrow).symm.trans hjoint))
  obtain rfl : { f₀ with id := 0 } = g₀ :=
    Answer.factor.inj (Except.ok.inj ((call_of_returns (g := .factor) rfl hrow₀).symm.trans hjoint₀))
  obtain rfl : u = ⟨[], [mean]⟩ :=
    Answer.utilities.inj (Except.ok.inj ((call_of_returns (g := .utilities) rfl hvalue₀).symm.trans hmean))
  have hempty : ({ f with id := 0 } : Factor ℚ).table.cells.toList = [] := congrArg Array.toList hcells
  have hone : [probability] = [1] := hprobability.symm.trans (congrArg Array.toList hcells₀)
  rw [hempty, List.zipWith_nil_left, List.sum_nil, List.head_eq_of_cons_eq hone,
    List.head_eq_of_cons_eq hvalues] at hsum
  norm_num at hsum

end Influence.Network
