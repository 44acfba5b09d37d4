import Influence.Proofs.Elimination.Choice
import Influence.Proofs.Network.Decisions
import Influence.Proofs.Network.Resolution

/-! # What the policies of a network maximize

When a decision is resolved, the pool holds the laws of the chance variables and of the later
decisions and one table of the utility.  What the rule maximizes in such a pool is known, and
`Step.takesBest_iff` says what that means for the policy: it takes only best outcomes exactly if the
reduced tables that `isRelevant` passed over do not depend on the decision, or nothing does. -/

namespace Influence.Network

section

open scoped Exact

variable {n n' : Network ℚ} {s : Setting ℚ} {ps : List (Policy ℚ)} {rs : List (Resolved ℚ)}
  {w₀ w w₁ : Workspace ℚ} {d : Variable} {earlier later : List Variable} {p : Policy ℚ}
  {laterPs : List (Policy ℚ)} {rule : Factor ℚ} {x z : Assignment}

theorem Compiled.sized_unseen (hn : n.Compiled) (h : n.setting = .ok s)
    (hsplit : s.decisionOrder = earlier ++ d :: later) :
    (n.unseen d later).Sized n.sizes := by
  intro v hv
  rcases List.mem_append.mp hv with hv | hv
  · exact hn.sized_states v (List.mem_of_mem_filter hv)
  · obtain ⟨m, hm, -, rfl⟩ := hn.exists_decision h (v := v) (by simp [hsplit, hv])
    exact hn.sizes_handle hm

/-- The pool in which a decision is resolved, if the network has a utility. -/
theorem Step.exists_pool (hn : n.Compiled) (h : n.Resolution s ps rs w₀)
    (hstep : n.Step s d later p laterPs w₀ w w₁ rule)
    (hutility : ∃ m ∈ n.nodes, m.kind = .utility) :
    ∃ u rules, w.tables = Law.tables n.laws ++ u :: Law.tables (ruleLaws later.reverse rules) ∧
      u.Fits n.sizes ∧ List.Forall₂ n.IsRule later.reverse rules ∧
      ∀ y : Assignment, y.Valid n.sizes → Tables.weight w.tables y =
        n.chance y * Tables.weight (laterPs.map n.ruleTable) y * n.utility y := by
  obtain ⟨us, htables₀, -, hus⟩ := (h.isSummed hn).tables
  obtain ⟨u, rfl, hu, hvalue⟩ := hus hutility
  obtain ⟨rules, htables, hrules, hweight⟩ := hstep.rules
  have hsplit : w.tables = n.chances.map (·.2) ++ u :: rules := by
    rw [htables, htables₀, List.append_assoc, List.singleton_append]
  refine ⟨u, rules, ?_, hu, hrules, fun y hy => ?_⟩
  · rw [hsplit, tables_laws, tables_ruleLaws hrules.length_eq]
  · rw [hsplit, Tables.weight_append, Tables.weight_cons, hvalue y hy, hweight y hy, mul_assoc,
      mul_comm (n.utility y)]
    rfl

theorem Step.value_eq (hn : n.Compiled) (h : n.Resolution s ps rs w₀)
    (hsplit : s.decisionOrder = earlier ++ d :: later)
    (hstep : n.Step s d later p laterPs w₀ w w₁ rule)
    (hutility : ∃ m ∈ n.nodes, m.kind = .utility) (hx : x.Valid n.sizes) :
    Axes.sumOver (w.hidden s [] [] true) (Tables.weight w.tables) x =
      n.value d later (laterPs.map n.ruleTable) x := by
  obtain ⟨u, rules, -, -, -, hweight⟩ := hstep.exists_pool hn h hutility
  have hsized := hn.sized_unseen h.setting hsplit
  rw [Axes.sumOver_perm_ids (Workspace.sized_hidden (hstep.fits hn h)) hsized
    (hstep.perm_hidden hn h hsplit) Workspace.nodup_hidden]
  exact Axes.sumOver_congr hsized hx fun y hy _ => hweight y hy

/-- **What a policy maximizes.**  A policy takes only best outcomes exactly if the tables that its
resolution passed over do not depend on the decision, or the value does not. -/
theorem Step.takesBest_iff (hn : n.Compiled) (hchance : n.IsStochastic)
    (h : n.Resolution s ps rs w₀) (hsplit : s.decisionOrder = earlier ++ d :: later)
    (hstep : n.Step s d later p laterPs w₀ w w₁ rule) (hz : z.Valid n.sizes) :
    TakesBest d (n.value d later (laterPs.map n.ruleTable)) (n.ruleTable p).valueAt z ↔
      ConstantAt d (Tables.weight
        (w₁.tables.filter (Tables.isPassedOver d (n.dependencies.parents d)))) z ∨
        ConstantAt d (n.value d later (laterPs.map n.ruleTable)) z := by
  by_cases hutility : ∃ m ∈ n.nodes, m.kind = .utility
  case neg =>
    have hzero : n.value d later (laterPs.map n.ruleTable) = fun _ => 0 := by
      have hnone : ∀ m ∈ n.nodes, m.kind ≠ .utility := fun m hm hkind => hutility ⟨m, hm, hkind⟩
      funext x
      unfold Network.value
      simp only [hn.utility_eq_zero hnone, mul_zero, Axes.sumOver_zero]
    have hconstant : ConstantAt d (n.value d later (laterPs.map n.ruleTable)) z := by
      rw [hzero]
      exact fun _ _ _ _ => rfl
    exact iff_of_true hconstant.takesBest (.inr hconstant)
  case pos =>
    obtain ⟨u, rules, htables, hu, hrules, -⟩ := hstep.exists_pool hn h hutility
    obtain ⟨hperm, hnodup⟩ := hn.decisionOrder h.setting
    have hlength := hrules.length_eq
    have hds : later.reverse ⊆ n.dependencies.decisions := fun v hv =>
      hperm.subset (by simp [hsplit, List.mem_reverse.mp hv])
    have hd : d ∈ n.dependencies.decisions := hperm.subset (by simp [hsplit])
    have hsize := hn.sized_decisions d hd
    have hnodup' : (Axes.ids (d :: later)).Nodup := by
      rw [hsplit, Axes.ids_append] at hnodup
      exact (List.nodup_append.mp hnodup).2.1
    obtain ⟨hfresh, hlater⟩ := Axes.nodup_ids_cons.mp hnodup'
    have hlaws : ∀ l ∈ n.laws ++ ruleLaws later.reverse rules, l.Sound n.sizes n.rank := by
      intro l hl
      rcases List.mem_append.mp hl with hl | hl
      · exact hn.sound_laws hchance l hl
      · exact hn.sound_ruleLaws hds hrules l hl
    have hheads : ∀ id, id ∈ (Law.heads (n.laws ++ ruleLaws later.reverse rules)).ids ↔
        (∃ m ∈ n.nodes, m.kind = .chance ∧ m.handle.id = id) ∨ id ∈ Axes.ids later := by
      intro id
      rw [heads_append hlength, Axes.ids_append, List.mem_append, hn.mem_ids_heads_laws]
      simp [Axes.ids]
    have hhidden : ∀ id, id ∈ Axes.ids (w.hidden s [] [] true) ↔
        (∃ m ∈ n.nodes, m.kind = .chance ∧ m.handle.id = id ∧
          id ∉ Axes.ids (n.dependencies.parents d)) ∨ id ∈ Axes.ids later := fun id =>
      (hstep.perm_hidden hn h hsplit).mem_iff.trans Compiled.mem_ids_unseen
    have hset : ∀ k < d.arity, (z.set d k).Valid n.sizes := fun k hk => hz.set (by rwa [← hsize])
    have hvalue : ∀ k < d.arity, Axes.sumOver (w.hidden s [] [] true) (Tables.weight w.tables)
        (z.set d k) = n.value d later (laterPs.map n.ruleTable) (z.set d k) := fun k hk =>
      hstep.value_eq hn h hsplit hutility (hset k hk)
    rw [← takesBest_congr hvalue fun k hk => (hstep.value _ (hset k hk)).symm,
      ← constantAt_congr hvalue, ← (setting_eq_ok h.setting).2.1]
    refine hstep.isRuleFor.takesBest_iff htables hlaws ?_ hu ?_ ?_ ?_ hsize hz
    · exact hn.nodup_heads_append hds (by simpa [Axes.ids] using hlater) hlength
    · intro id hid
      rw [hheads]
      rcases (hhidden id).mp hid with ⟨m, hm, hkind, heq, -⟩ | hid
      · exact .inl ⟨m, hm, hkind, heq⟩
      · exact .inr hid
    · intro l hl hlt
      rw [hhidden]
      rcases (hheads _).mp (Law.mem_ids_heads.mpr ⟨l, hl, rfl⟩) with ⟨m, hm, hkind, hid⟩ | hid
      · refine .inl ⟨m, hm, hkind, hid, fun hparent => ?_⟩
        obtain ⟨v, hv, heq⟩ := Axes.mem_ids.mp hparent
        have := hn.rank_lt_decision hd hv
        rw [heq] at this
        omega
      · exact .inr hid
    · rw [hheads]
      rintro (⟨m, hm, hkind, hid⟩ | hid)
      · obtain ⟨m', hm', hkind', rfl⟩ := hn.mem_decisions.mp hd
        rw [hn.eq_of_id hm hm' hid, hkind'] at hkind
        cases hkind
      · exact hfresh hid

/-! ### The policies of a compiled network -/

/-- The workspace from which the rule of a decision is read: the utilities have been summed, the
later decisions resolved, and what the decision does not need has been summed out. -/
def IsReduced [Build] (n : Network ℚ) (s : Setting ℚ) (later : List Variable) (w₁ : Workspace ℚ) : Prop :=
  ∃ w₀ rs w, Returns (StepM.sumUtilities s) (.start n.registry n.factors) ⟨⟩ w₀ ∧
    Returns (later.reverse.mapM (StepM.resolve s)) w₀ rs w ∧
    Returns (StepM.eliminateHidden s [] [] true) w ⟨⟩ w₁

/-- When policies are optimal where sizes are numbers. -/
theorem takesBest_policy_iff_unlimited {definition : Definition ℚ} {config : Config ℚ}
    (h : compile definition config = .ok n) (hchance : n.IsStochastic)
    (hpolicies : Returns NetworkM.solvePolicies n ps n') :
    ∃ s, n.setting = .ok s ∧ ps.length = s.decisionOrder.length ∧
      ∀ k d p, s.decisionOrder[k]? = some d → ps[k]? = some p →
        ∃ w₁, n.IsReduced s (s.decisionOrder.drop (k + 1)) w₁ ∧
          ∀ z : Assignment, z.Valid n.sizes →
            let value := n.value d (s.decisionOrder.drop (k + 1))
              ((ps.drop (k + 1)).map n.ruleTable)
            TakesBest d value (n.ruleTable p).valueAt z ↔
              ConstantAt d (Tables.weight
                (w₁.tables.filter (Tables.isPassedOver d (n.dependencies.parents d)))) z ∨
                ConstantAt d value z := by
  have hn := (compiled_of_compile h).1
  obtain ⟨⟨s, rs, w₀, hres⟩, -⟩ := exists_resolution hn hpolicies
  refine ⟨s, hres.setting, ?_, fun k d p hd hp => ?_⟩
  · rw [(hres.isRule hn).length_eq, List.length_map]
  obtain ⟨hk, rfl⟩ := List.getElem?_eq_some_iff.mp hd
  have hsplit : s.decisionOrder =
      s.decisionOrder.take k ++ s.decisionOrder[k] :: s.decisionOrder.drop (k + 1) := by simp
  obtain ⟨earlierPs, p', laterPs, w, w₁, rule, rfl, hlength, hstep⟩ := hres.exists_step hn hsplit
  obtain rfl : earlierPs.length = k := by
    rw [hlength, List.length_take]
    omega
  obtain rfl : p' = p := by simpa using hp
  obtain ⟨rs', hreached⟩ := hstep.reached
  refine ⟨w₁, ⟨w₀, rs', w, hres.summed, hreached, hstep.isRuleFor.reduced⟩, fun z hz => ?_⟩
  have hlater : (earlierPs ++ p' :: laterPs).drop (earlierPs.length + 1) = laterPs := by simp
  rw [hlater]
  exact hstep.takesBest_iff hn hchance hres hsplit hz

end

variable {n n' : Network ℚ} {ps : List (Policy ℚ)} {definition : Definition ℚ} {config : Config ℚ}

theorem isReduced_iff [Build] {s : Setting ℚ} {later : List Variable} {w₁ : Workspace ℚ} :
    n.IsReduced s later w₁ ↔
      Returns (StepM.reduce s later) (.start n.registry n.factors) ⟨⟩ w₁ := by
  unfold IsReduced StepM.reduce
  simp only [returns_bind]
  constructor
  · rintro ⟨w₀, rs, w, hsum, hresolve, hreduce⟩
    exact ⟨⟨⟩, w₀, hsum, rs, w, hresolve, hreduce⟩
  · rintro ⟨⟨⟩, w₀, hsum, rs, w, hresolve, hreduce⟩
    exact ⟨w₀, rs, w, hsum, hresolve, hreduce⟩

/-- **When policies are optimal.**  In every state of what a decision observes and of the decisions
before it, its policy takes only outcomes of the largest value exactly if the reduced tables that
mention the decision without bearing on it do not depend on it, or the value does not, provided that there
is room for the tables that resolve the decisions. -/
theorem takesBest_policy_iff (h : compile definition config = .ok n) (hchance : n.IsStochastic)
    (hroom : n.HasRoomFor .solvePolicies) (hpolicies : Returns NetworkM.solvePolicies n ps n') :
    ∃ s, n.setting = .ok s ∧ ps.length = s.decisionOrder.length ∧
      ∀ k d p, s.decisionOrder[k]? = some d → ps[k]? = some p →
        ∃ w₁, n.IsReduced s (s.decisionOrder.drop (k + 1)) w₁ ∧
          ∀ z : Assignment, z.Valid n.sizes →
            let value := n.value d (s.decisionOrder.drop (k + 1))
              ((ps.drop (k + 1)).map n.ruleTable)
            TakesBest d value (n.ruleTable p).valueAt z ↔
              ConstantAt d (Tables.weight
                (w₁.tables.filter (Tables.isPassedOver d (n.dependencies.parents d)))) z ∨
                ConstantAt d value z := by
  have hcompile := compile_eq_ok_of_isSmall h hroom.tables Exact.build
  have hsolve :=
    (returns_solvePolicies_iff_of_hasRoom h hroom.tables hroom.rules .release Exact.build).mp hpolicies
  obtain ⟨s, hs, hlength, hbest⟩ := takesBest_policy_iff_unlimited hcompile hchance hsolve
  refine ⟨s, hs, hlength, fun k d p hd hp => ?_⟩
  obtain ⟨w₁, hreduced, hiff⟩ := hbest k d p hd hp
  refine ⟨w₁, isReduced_iff.mpr ?_, hiff⟩
  obtain ⟨hk, rfl⟩ := List.getElem?_eq_some_iff.mp hd
  have hsplit : s.decisionOrder =
      s.decisionOrder.take k ++ s.decisionOrder[k] :: s.decisionOrder.drop (k + 1) := by simp
  exact (returns_reduce_iff_of_hasRoom (compiled_of_compile h).1 hroom hs hsplit Exact.build .release).mp
    ((@isReduced_iff _ Exact.build _ _ _).mp hreduced)

/-- A diagram whose second decision sees a coin that does not matter.  Its payoff depends on the
first decision, and it has a chance variable below it that has no influence. -/
def blindfold : Definition ℚ where
  declarations := [⟨"coin", "chance", ["heads", "tails"]⟩, ⟨"first", "decision", ["left", "right"]⟩,
    ⟨"second", "decision", ["left", "right"]⟩, ⟨"echo", "chance", ["only"]⟩, ⟨"payoff", "utility", []⟩]
  entries := [⟨"coin", [], some [1 / 2, 1 / 2]⟩, ⟨"first", [], none⟩, ⟨"second", ["coin"], none⟩,
    ⟨"echo", ["coin", "second"], some [1, 1, 1, 1]⟩,
    ⟨"payoff", ["first", "second"], some [1, 0, 0, 2]⟩]

theorem takesBest_policy_iff_blindfold : ∃ n ps n',
    compile blindfold {} = .ok n ∧ n.IsStochastic ∧ n.HasRoomFor .solvePolicies ∧
    Returns NetworkM.solvePolicies n ps n' ∧
    ∃ s, n.setting = .ok s ∧ ps.length = s.decisionOrder.length ∧
      ∀ k d p, s.decisionOrder[k]? = some d → ps[k]? = some p →
        ∃ w₁, n.IsReduced s (s.decisionOrder.drop (k + 1)) w₁ ∧
          ∀ z : Assignment, z.Valid n.sizes →
            let value := n.value d (s.decisionOrder.drop (k + 1))
              ((ps.drop (k + 1)).map n.ruleTable)
            TakesBest d value (n.ruleTable p).valueAt z ↔
              ConstantAt d (Tables.weight
                (w₁.tables.filter (Tables.isPassedOver d (n.dependencies.parents d)))) z ∨
                ConstantAt d value z := by
  obtain ⟨n, hcompile, hchance, hroom, hpolicies⟩ := exists_ok_of_toOption (x := compile blindfold {})
    (P := fun n => n.IsStochastic ∧ n.HasRoomFor .solvePolicies ∧
      ∃ ps ∈ (runFrom NetworkM.solvePolicies n).1.toOption, True) (by decide +kernel)
  obtain ⟨ps, n', hpolicies, -⟩ := exists_returns_of_toOption hpolicies
  exact ⟨n, ps, n', hcompile, hchance, hroom, hpolicies,
    takesBest_policy_iff hcompile hchance hroom hpolicies⟩

/-- The second decision sees nothing that its payoff depends on.  It gets the rule that gives the
same mass to both outcomes, and one of them is worse than the other. -/
theorem exists_policy_not_takesBest : ∃ n ps n' s d p,
    compile blindfold {} = .ok n ∧ n.IsStochastic ∧ Returns NetworkM.solvePolicies n ps n' ∧
    n.setting = .ok s ∧ s.decisionOrder[1]? = some d ∧ ps[1]? = some p ∧
      ∃ z : Assignment, z.Valid n.sizes ∧ ¬TakesBest d
        (n.value d (s.decisionOrder.drop 2) ((ps.drop 2).map n.ruleTable))
        (n.ruleTable p).valueAt z := by
  obtain ⟨n, hcompile, hchance, h⟩ := exists_ok_of_toOption (x := compile blindfold {})
    (P := fun n => n.IsStochastic ∧ ∃ ps ∈ (runFrom NetworkM.solvePolicies n).1.toOption,
      ∃ s ∈ n.setting.toOption, ∃ d ∈ s.decisionOrder[1]?, ∃ p ∈ ps[1]?, ¬TakesBest d
        (n.value d (s.decisionOrder.drop 2) ((ps.drop 2).map n.ruleTable))
        (n.ruleTable p).valueAt fun _ => 0) (by decide +kernel)
  obtain ⟨ps, n', hpolicies, h⟩ := exists_returns_of_toOption h
  obtain ⟨s, hs, d, hd, p, hp, hworse⟩ := exists_ok_of_toOption h
  exact ⟨n, ps, n', s, d, p, hcompile, hchance, hpolicies, hs, hd, hp, fun _ => 0,
    (compiled_of_compile hcompile).1.valid_zero, hworse⟩

end Influence.Network
