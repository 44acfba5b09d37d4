import Influence.Proofs.Network.Layouts

/-! # The upkeep of a network

In every network that calls lead to the rules stored are none or one for each decision, every variable has
its declared kind, and the factors of the tables come before all that are made later
(`Network.isOrderly_of_isReachable`).

The number of the joint outcomes of what a decision observes is kept in a word, so the table of a rule may
have fewer cells (`Network.exists_isReachable_not_length`). -/

namespace Influence.Network

section

variable {α : Type} [Build] [Cell α] {n m : Network α}

/-- The rules stored are none or one for each decision in the order of the decisions, every variable
has its declared kind, and the numbers of the factors of the tables have been handed out. -/
structure IsOrderly (n : Network α) : Prop where
  policies : ∃ s, n.setting = .ok s ∧
    s.decisionOrder.Perm ((n.nodes.filter (·.kind = .decision)).map (·.handle)) ∧
    (n.policies = [] ∨ List.Forall₂ n.IsFitting s.decisionOrder n.policies)
  kinds : ∀ m ∈ n.nodes, n.registry.kindOf m.handle = m.kind
  numbered : ∀ f ∈ n.factors, f.id < n.registry.nextFactor

theorem IsVersion.isOrderly {f : Network α} (hf : f.Fresh) (h : f.IsVersion n) : n.IsOrderly := by
  obtain ⟨k, ps, hps, rfl⟩ := h
  have hn := hf.compiled
  obtain ⟨s, hs⟩ := hn.exists_setting
  constructor
  case policies =>
    refine ⟨s, hs, (hn.decisionOrder hs).1.trans ?_, hps.imp_right fun h =>
      (h.isFitting hf hs).imp fun _ _ h => ⟨h.isFor, h.table, h.expectedUtility⟩⟩
    have hhandles : (f.nodes.map (·.handle)).Nodup := Axes.nodup_of_ids hn.nodup_handles
    refine (List.perm_ext_iff_of_nodup (Axes.nodup_of_ids hn.nodup_decisions)
      (hhandles.sublist (List.filter_sublist.map _))).mpr fun d => ?_
    simp [hn.mem_decisions, and_assoc]
  case kinds => exact fun m hm => hn.kindOf_handle hm
  case numbered => exact fun g hg => Nat.lt_add_right k (hn.numbered g hg)

/-- **Calls keep a network in order.**  After any calls, failed ones included, the rules stored are none
or one for each decision, relabelled variables are so no longer, and the numbers of the factors of the
tables have been handed out.  A failure then changes nothing but the rules and the next creation number,
and a rejected table not even these.  Calls that replace no table return factors with ascending
numbers, which come after those of the tables. -/
theorem isOrderly_of_isReachable (h : m.IsReachable) :
    m.IsOrderly ∧
    (∀ (c : Call α) e m', runFrom c.run m = (.error e, m') →
      m.Continues m' ∧ ∀ name table, c = .replaceTable name table → m' = m) ∧
    ∀ calls : List (Call α), (∀ c ∈ calls, ∀ name table, c ≠ .replaceTable name table) →
      (m.factorsOf calls).Pairwise (·.id < ·.id) ∧
        ∀ f ∈ m.factorsOf calls, ∀ g ∈ m.factors, g.id < f.id := by
  obtain ⟨definition, config, n, calls, hcompile, rfl⟩ := h
  obtain ⟨f, hf, hversion⟩ := (fresh_of_compile hcompile).exists_isVersion_afterCalls calls
  have horderly := hversion.isOrderly hf
  refine ⟨horderly, fun c e m' h => ⟨continues_of_eq_error h, ?_⟩, fun calls hcalls => ?_⟩
  · rintro name table rfl
    exact eq_of_replaceTable_eq_error h
  · obtain ⟨hpairwise, hnext⟩ := pairwise_factorsOf hcalls
    exact ⟨hpairwise, fun f hf g hg => (horderly.numbered g hg).trans_le (hnext f hf)⟩

end

/-- After a session on the wildcatter's network, which ends with a failure: further failures, and two
questions with one between them that asks for a variable that there is not. -/
theorem isOrderly_of_isReachable_session : ∃ m : Network ℚ, m.IsReachable ∧ m.IsOrderly ∧
    m.policies.length = 2 ∧
    (∃ e m', runFrom (Call.joint [] ["gas"]).run m = (.error e, m') ∧ m.Continues m') ∧
    (∃ e m', runFrom (Call.replaceTable "oil" [1]).run m = (.error e, m') ∧ m' = m) ∧
    ∃ f g, m.factorsOf [.joint [] ["oil"], .joint [] ["gas"], .utilityFactor [] ["test"] none] =
      [f, g] ∧ f.id < g.id ∧ ∀ h ∈ m.factors, h.id < f.id := by
  obtain ⟨n, hcompile, hpolicies, hgas, hreplace, hfactors⟩ :=
    exists_ok_of_toOption (x := compile wildcat {})
      (P := fun n => (n.afterCalls session).policies.length = 2 ∧
        (runFrom (Call.joint [] ["gas"]).run (n.afterCalls session)).1.toOption = none ∧
        (runFrom (Call.replaceTable "oil" [1]).run (n.afterCalls session)).1.toOption = none ∧
        ((n.afterCalls session).factorsOf
          [.joint [] ["oil"], .joint [] ["gas"], .utilityFactor [] ["test"] none]).length = 2)
      (by decide +kernel)
  have hreachable : (n.afterCalls session).IsReachable := ⟨wildcat, {}, n, session, hcompile, rfl⟩
  obtain ⟨horderly, hframe, hnumbers⟩ := isOrderly_of_isReachable hreachable
  obtain ⟨e, m', hgas⟩ := exists_error_of_toOption hgas
  obtain ⟨e', m'', hreplace⟩ := exists_error_of_toOption hreplace
  obtain ⟨f, g, hfactors⟩ := List.length_eq_two.mp hfactors
  obtain ⟨hpairwise, hlater⟩ := hnumbers
    [.joint [] ["oil"], .joint [] ["gas"], .utilityFactor [] ["test"] none] (by simp)
  rw [hfactors] at hpairwise hlater
  exact ⟨_, hreachable, horderly, hpolicies, ⟨e, m', hgas, (hframe _ _ _ hgas).1⟩,
    ⟨e', m'', hreplace, (hframe _ _ _ hreplace).2 _ _ rfl⟩, f, g, hfactors,
    List.rel_of_pairwise_cons hpairwise (by simp), hlater f (by simp)⟩

/-- A decision that observes sixteen dice has a policy without any cells. -/
theorem exists_isReachable_not_length : ∃ (m : Network ℚ) (p : Policy ℚ), m.IsReachable ∧
    m.policies = [p] ∧ p.table = [] ∧ p.expectedUtility = [] ∧
      (handlesOf m.nodes (p.given ++ [p.name])).count = 2 * 16 ^ 16 := by
  obtain ⟨n, hcompile, hlength, hpolicies⟩ := exists_ok_of_toOption (x := compile gamble {})
    (P := fun n => (n.afterCalls [.solvePolicies]).policies.length = 1 ∧
      ∀ p ∈ (n.afterCalls [.solvePolicies]).policies, p.table = [] ∧ p.expectedUtility = [] ∧
        (handlesOf (n.afterCalls [.solvePolicies]).nodes (p.given ++ [p.name])).count = 2 * 16 ^ 16)
    (by decide +kernel)
  obtain ⟨p, hp⟩ := List.length_eq_one_iff.mp hlength
  obtain ⟨htable, hexpected, hcount⟩ := hpolicies p (hp ▸ List.mem_singleton_self p)
  exact ⟨_, p, ⟨gamble, {}, n, _, hcompile, rfl⟩, hp, htable, hexpected, hcount⟩

end Influence.Network
