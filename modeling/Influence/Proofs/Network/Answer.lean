import Influence.Proofs.Network.Question
import Influence.Proofs.Network.WorkingSet

/-! # Answers to questions

A ready network answers a question with one table over the query.  Its cells add up the products of
the tables of the network and its policies over everything that is neither queried nor observed
(`Ready.exists_returns_ask`).

In the run the decisions count as chance variables, so nothing is left that a decision observes, and
the hidden variables are all chance variables and decisions that the question does not fix
(`IsWorking.perm_hidden`).  A question about one term of the utility leaves that utility as an axis
with one outcome (`Target.survivors`), which is summed out when the answer is laid out. -/

namespace Influence

open scoped Exact

/-- The utilities that are axes of the answer for a target. -/
def Target.survivors : Target → Axes
  | .utilityTerm v => [v]
  | _ => []

/-- A question about one term keeps what is not a utility and the tables of that term. -/
theorem Target.keeps_utilityTerm {α : Type} {r : Registry} {t : Table α} {v : Variable} :
    (Target.utilityTerm v).keeps r t ↔
      ¬Tables.isUtility r t ∨ v.id ∈ Axes.ids (t.axes.filter fun u => r.kindOf u == .utility) := by
  simp only [Target.keeps, Tables.isDropped, Tables.isUtility_eq, Option.any_some]
  rw [Bool.not_eq_true', Bool.and_eq_false_iff, Bool.not_eq_false', Bool.not_eq_true,
    ← Axes.mentions_iff]
  simp

namespace Network

variable {n n' : Network ℚ} {s : Setting ℚ} {w w₁ : Workspace ℚ} {evidence : List Observation}
  {query : List Variable} {target : Target} {F : Assignment → ℚ} {v : Variable} {x : Assignment}
  {r : Registry}

/-! ### The tables of a run -/

theorem Ready.ids_rules_subset (h : n.Ready s) {t : Table ℚ} (ht : t ∈ n.rules) :
    t.axes.ids ⊆ n.states.ids := by
  obtain ⟨d, hd, hrule⟩ := exists_left_of_mem h.isRule ht
  exact h.compiled.ids_rule_subset ((h.compiled.decisionOrder h.setting).1.subset hd) hrule

theorem Compiled.kindOf_of_mem_states (hn : n.Compiled) (hv : v.id ∈ n.states.ids) :
    n.registry.kindOf v ≠ .utility := by
  obtain ⟨u, hu, hid⟩ := Axes.mem_ids.mp hv
  obtain ⟨m, hm, hkind, rfl⟩ := mem_states.mp hu
  rwa [hn.kindOf_of_id hm hid.symm]

theorem Compiled.mem_ids_states_or_utility (hn : n.Compiled) {t : Table ℚ} (ht : t ∈ n.tables)
    (hv : v ∈ t.axes) : v.id ∈ n.states.ids ∨ n.registry.kindOf v = .utility := by
  obtain ⟨m, hm, rfl⟩ := mem_handles.mp (hn.mem_handles_of_table ht hv)
  by_cases hkind : m.kind = .utility
  · exact .inr (by rw [hn.kindOf_handle hm, hkind])
  · exact .inl (Axes.mem_ids_of_mem (mem_states.mpr ⟨m, hm, hkind, rfl⟩))

theorem Ready.not_isUtility_rule (h : n.Ready s) {t : Table ℚ} (ht : t ∈ n.rules) :
    Tables.isUtility n.registry t = false := by
  refine List.any_eq_false.mpr fun v hv => ?_
  simpa using h.compiled.kindOf_of_mem_states (h.ids_rules_subset ht (Axes.mem_ids_of_mem hv))

/-- Every chance variable and every decision has a table. -/
theorem Ready.exists_table (h : n.Ready s) {id : VariableId} (hid : id ∈ n.states.ids) :
    ∃ t ∈ n.chances.map (·.2) ++ n.rules, id ∈ t.axes.ids := by
  have hn := h.compiled
  obtain ⟨v, hv, rfl⟩ := Axes.mem_ids.mp hid
  obtain ⟨m, hm, hkind, rfl⟩ := mem_states.mp hv
  cases hm' : m.kind with
  | chance =>
      obtain ⟨t, ht⟩ := hn.exists_tabled hm (by simp [hm'])
      have hmem : t ∈ n.chances.map (·.2) :=
        List.mem_map.mpr ⟨(m, t), List.mem_filter.mpr ⟨ht, by simpa using hm'⟩, rfl⟩
      refine ⟨t, List.mem_append_left _ hmem, ?_⟩
      rw [(hn.table_of_tabled ht).1]
      simp
  | decision =>
      have hd := (hn.decisionOrder h.setting).1.mem_iff.mpr
        (hn.mem_decisions.mpr ⟨m, hm, hm', rfl⟩)
      obtain ⟨t, ht, hrule⟩ := exists_right_of_mem h.isRule hd
      exact ⟨t, List.mem_append_right _ ht, hrule.mem⟩
  | utility => exact absurd hm' hkind

namespace IsWorking

variable (hw : n.IsWorking w) (h : n.Ready s)

include hw h

theorem kindOf_eq_utility (v : Variable) :
    w.registry.kindOf v = .utility ↔ n.registry.kindOf v = .utility := by
  rw [hw.kindOf]
  split
  next hid =>
    obtain ⟨d, hd, hid⟩ := Axes.mem_ids.mp hid
    have hstate := Axes.mem_ids_of_mem (h.compiled.decision_mem_states hd)
    rw [hid] at hstate
    exact iff_of_false (by decide) (h.compiled.kindOf_of_mem_states hstate)
  next => rfl

/-- Chance variables and decisions count as chance variables. -/
theorem kindOf_eq_chance (hv : v.id ∈ n.states.ids) : w.registry.kindOf v = .chance := by
  rw [hw.kindOf]
  split
  next => rfl
  next hfree =>
    obtain ⟨u, hu, hid⟩ := Axes.mem_ids.mp hv
    obtain ⟨m, hm, hkind, rfl⟩ := mem_states.mp hu
    rw [h.compiled.kindOf_of_id hm hid.symm]
    cases hm' : m.kind with
    | chance => rfl
    | utility => exact absurd hm' hkind
    | decision =>
        rw [← hid] at hfree
        exact absurd (Axes.mem_ids_of_mem (h.compiled.mem_decisions.mpr ⟨m, hm, hm', rfl⟩)) hfree

theorem isUtility_eq (t : Table ℚ) :
    Tables.isUtility w.registry t = Tables.isUtility n.registry t := by
  unfold Tables.isUtility
  rw [Bool.eq_iff_iff, List.any_eq_true, List.any_eq_true]
  simp only [beq_iff_eq, hw.kindOf_eq_utility h]

theorem filter_isUtility :
    w.tables.filter (Tables.isUtility w.registry) = n.utilities.map (·.2) := by
  rw [funext (hw.isUtility_eq h), hw.tables, List.filter_append, h.compiled.filter_isUtility,
    List.filter_eq_nil_iff.mpr fun t ht => by simp [h.not_isUtility_rule ht], List.append_nil]

theorem filter_not_isUtility :
    w.tables.filter (!Tables.isUtility w.registry ·) = n.chances.map (·.2) ++ n.rules := by
  rw [funext (hw.isUtility_eq h), hw.tables, List.filter_append, h.compiled.filter_not_isUtility,
    List.filter_eq_self.mpr fun t ht => by simp [h.not_isUtility_rule ht]]

theorem fits : ∀ t ∈ w.tables, t.Fits n.sizes := by
  rw [hw.tables]
  intro t ht
  rcases List.mem_append.mp ht with ht | ht
  · exact h.compiled.fits_tables t ht
  · obtain ⟨d, -, hrule⟩ := exists_left_of_mem h.isRule ht
    exact hrule.fits

theorem arity_utility :
    ∀ t ∈ w.tables, ∀ v ∈ t.axes, w.registry.kindOf v = .utility → v.arity = 1 := by
  intro t ht v hv hkind
  rw [hw.kindOf_eq_utility h] at hkind
  rw [hw.tables] at ht
  rcases List.mem_append.mp ht with ht | ht
  · exact h.compiled.arity_utility t ht v hv hkind
  · exact absurd hkind
      (h.compiled.kindOf_of_mem_states (h.ids_rules_subset ht (Axes.mem_ids_of_mem hv)))

theorem unobserved (hevidence : n.IsEvidence evidence) :
    Tables.Unobserved w.registry evidence w.tables := by
  intro o ho t _ v _ hid hkind
  rw [hw.kindOf_eq_utility h] at hkind
  refine h.compiled.kindOf_of_mem_states ?_ hkind
  rw [hid]
  exact Axes.mem_ids_of_mem (hevidence.subject o ho)

end IsWorking

/-! ### What a question asks for -/

/-- The target asks for the mean of a function of the states. -/
inductive Asks (n : Network ℚ) : Target → (Assignment → ℚ) → Prop
  | probability : Asks n .probability fun _ => 1
  | totalUtility : (∃ m ∈ n.nodes, m.kind = .utility) → Asks n .totalUtility n.utility
  | utilityTerm {m : Node} {t : Table ℚ} : (m, t) ∈ n.utilities →
      Asks n (.utilityTerm m.handle) t.valueAt

/-- The sum of a function, weighted by probability, over all states that agree with an assignment on
some variables. -/
def integral (n : Network ℚ) (F : Assignment → ℚ) (fixed : Axes) : Assignment → ℚ :=
  Axes.sumOver (n.states.filter fun v => !Axes.mentions fixed v) fun x =>
    n.chance x * Tables.weight n.rules x * F x

theorem Compiled.mem_utilities (hn : n.Compiled) {m : Node} {t : Table ℚ}
    (ht : (m, t) ∈ n.utilities) : (m, t) ∈ n.tabled ∧ m ∈ n.nodes ∧ m.kind = .utility := by
  obtain ⟨hp, hkind⟩ := List.mem_filter.mp ht
  exact ⟨hp, (hn.node_of_tabled hp).1, by simpa using hkind⟩

theorem Compiled.filter_utility_axes (hn : n.Compiled) {m : Node} {t : Table ℚ}
    (ht : (m, t) ∈ n.utilities) :
    (t.axes.filter fun v => n.registry.kindOf v == .utility) = [m.handle] := by
  obtain ⟨hp, hm, hkind⟩ := hn.mem_utilities ht
  rw [(hn.table_of_tabled hp).1, List.filter_append,
    List.filter_eq_nil_iff.mpr fun v hv => by simpa using hn.kindOf_parent hv, List.nil_append,
    List.filter_singleton, hn.kindOf_handle hm, hkind]
  rfl

/-- Of the tables of utilities a question about one term keeps the one of that term. -/
theorem Compiled.filter_keeps_utilityTerm (hn : n.Compiled) {m : Node} {t : Table ℚ}
    (ht : (m, t) ∈ n.utilities) :
    (n.utilities.map (·.2)).filter ((Target.utilityTerm m.handle).keeps n.registry) = [t] := by
  have hkeeps : ∀ p ∈ n.utilities,
      ((Target.utilityTerm m.handle).keeps n.registry p.2 = true ↔ p = (m, t)) := by
    rintro ⟨m', t'⟩ hp
    obtain ⟨hp', hm', hkind'⟩ := hn.mem_utilities hp
    rw [Target.keeps_utilityTerm, hn.filter_utility_axes hp, hn.isUtility_iff hp']
    constructor
    · rintro (hnot | hid)
      · exact absurd hkind' hnot
      · have hid : m.handle.id = m'.handle.id := by simpa using hid
        exact List.inj_on_of_nodup_map hn.nodup_tabled hp' (hn.mem_utilities ht).1 hid.symm
    · rintro heq
      obtain ⟨rfl, -⟩ := Prod.mk.inj heq
      exact .inr (by simp)
  have hnodup : n.utilities.Nodup :=
    (List.Nodup.of_map _ hn.nodup_tabled).filter _
  have hfilter : n.utilities.filter
      (fun p => (Target.utilityTerm m.handle).keeps n.registry p.2) = [(m, t)] := by
    rw [List.filter_congr (q := fun p => decide (p = (m, t))) fun p hp => by
      rw [Bool.eq_iff_iff, hkeeps p hp, decide_eq_true_eq]]
    refine List.perm_singleton.mp ((List.perm_ext_iff_of_nodup (hnodup.filter _)
      (List.nodup_singleton _)).mpr fun p => ?_)
    rw [List.mem_filter, List.mem_singleton, decide_eq_true_eq]
    exact ⟨fun h => h.2, fun h => ⟨h ▸ ht, h⟩⟩
  rw [List.filter_map]
  exact congrArg _ hfilter

/-- What survives is a utility of the network, which has one outcome. -/
theorem Asks.survivor (hn : n.Compiled) (hasks : n.Asks target F) {id : VariableId}
    (hid : id ∈ target.survivors.ids) :
    ∃ m ∈ n.nodes, m.kind = .utility ∧ m.handle.id = id ∧ n.sizes id = 1 := by
  cases hasks with
  | probability => cases hid
  | totalUtility => cases hid
  | utilityTerm ht =>
      obtain ⟨-, hm, hkind⟩ := hn.mem_utilities ht
      obtain rfl := List.mem_singleton.mp hid
      exact ⟨_, hm, hkind, rfl, by
        rw [← hn.sizes_handle hm, hn.declared.arity_utility _ hm hkind]⟩

theorem Asks.survivor_notMem_states (hn : n.Compiled) (hasks : n.Asks target F) {id : VariableId}
    (hid : id ∈ target.survivors.ids) : id ∉ n.states.ids := by
  obtain ⟨m, hm, hkind, rfl, -⟩ := hasks.survivor hn hid
  intro hstate
  exact hn.kindOf_of_mem_states hstate ((hn.kindOf_handle hm).trans hkind)

namespace IsWorking

variable (hw : n.IsWorking w) (h : n.Ready s) (hevidence : n.IsEvidence evidence)
  (hasks : n.Asks target F)

include hw h hevidence hasks

theorem integrand_eq :
    Tables.integrand s w.registry evidence w.tables target =
      fun x => n.chance x * Tables.weight n.rules x * F x := by
  funext x
  have hprobability : Tables.weight (w.tables.filter (!Tables.isUtility w.registry ·)) x =
      n.chance x * Tables.weight n.rules x := by
    rw [hw.filter_not_isUtility h, Tables.weight_append]
    rfl
  cases hasks with
  | probability =>
      rw [mul_one, ← hprobability, Tables.integrand_of_ne s (by decide)]
      rfl
  | totalUtility =>
      rw [Tables.integrand, hprobability, hw.filter_isUtility h, List.map_map]
      refine congrArg (n.chance x * Tables.weight n.rules x * ·) ?_
      rw [utility]
      refine congrArg _ (List.map_congr_left fun p hp => ?_)
      rw [Function.comp_apply, h.compiled.weightOf_axes (setting_eq_ok h.setting).2.2
        (List.mem_of_mem_filter hp)]
      intro v hv
      obtain ⟨u, hu, hid⟩ := Axes.mem_ids.mp (Axes.mentions_iff.mp (by simpa using hv))
      obtain ⟨o, ho, rfl⟩ := List.mem_map.mp hu
      rw [← hid]
      exact Axes.mem_ids_of_mem (hevidence.subject o ho)
  | @utilityTerm m t ht =>
      have hkeeps : ∀ u : Table ℚ, (Target.utilityTerm m.handle).keeps w.registry u =
          (Target.utilityTerm m.handle).keeps n.registry u := fun u => by
        have hfilter : (u.axes.filter fun v => w.registry.kindOf v == .utility) =
            u.axes.filter fun v => n.registry.kindOf v == .utility :=
          List.filter_congr fun v _ => by
            rw [Bool.eq_iff_iff, beq_iff_eq, beq_iff_eq, hw.kindOf_eq_utility h]
        rw [Bool.eq_iff_iff, Target.keeps_utilityTerm, Target.keeps_utilityTerm, hw.isUtility_eq h,
          hfilter]
      have hother : ((w.tables.filter ((Target.utilityTerm m.handle).keeps w.registry)).filter
          (!Tables.isUtility w.registry ·)) = w.tables.filter (!Tables.isUtility w.registry ·) := by
        rw [List.filter_filter]
        refine List.filter_congr fun u _ => ?_
        rw [Bool.and_eq_left_iff_imp]
        exact fun hu => Target.keeps_utilityTerm.mpr (.inl (by simpa using hu))
      have hterm : ((w.tables.filter ((Target.utilityTerm m.handle).keeps w.registry)).filter
          (Tables.isUtility w.registry)) = [t] := by
        rw [List.filter_filter, List.filter_congr fun u _ => Bool.and_comm _ _,
          ← List.filter_filter, hw.filter_isUtility h, funext hkeeps,
          h.compiled.filter_keeps_utilityTerm ht]
      rw [Tables.integrand_of_ne s (by simp), ← Tables.weight_filter_mul (Tables.isUtility w.registry),
        hterm, hother, hprobability, Tables.weight_cons, Tables.weight_nil, mul_one, mul_comm]

/-- The tables that the target keeps mention all states that are not observed, and nothing else that
has not been summed out but a utility that survives. -/
theorem mem_ids_left (hreach : w.Reaches w₁
      (Tables.prepare s w.registry (Tables.observeAll evidence w.tables) target))
    {id : VariableId} : id ∈ (Tables.axes w₁.tables).ids ↔
      (id ∈ n.states.ids ∧ id ∉ Axes.ids (evidence.map (·.subject))) ∨
        id ∈ target.survivors.ids := by
  have hfits := hw.fits h
  have hobserved := hw.unobserved h hevidence
  rw [hreach.tables_eq, Tables.mem_ids_prepare s hfits (hw.arity_utility h) hobserved target]
  constructor
  · rintro ⟨hfree, t, ht, hkeep, hid, hout⟩
    have hmem := hw.tables ▸ ht
    rcases List.mem_append.mp hmem with hmem | hmem
    · obtain ⟨v, hv, rfl⟩ := Axes.mem_ids.mp hid
      refine (h.compiled.mem_ids_states_or_utility hmem hv).imp (⟨·, hfree⟩) fun hkind => ?_
      rw [← hw.kindOf_eq_utility h] at hkind
      have hutility : Tables.isUtility w.registry t :=
        List.any_eq_true.mpr ⟨v, hv, by simpa using hkind⟩
      cases hasks with
      | probability => simp [Target.keeps, hutility] at hkeep
      | totalUtility =>
          refine absurd ?_ (hout rfl hutility)
          have hsum : v.id ∈ (Tables.utilitySum s w.registry
              (Tables.observeAll evidence w.tables)).axes.ids :=
            (Tables.mem_ids_utilitySum s w.registry).mpr ⟨Tables.observed evidence t,
              (Tables.perm_observeAll evidence _).mem_iff.mpr (List.mem_map_of_mem ht),
              by rw [Tables.isUtility_observed hobserved ht (hfits t ht), hutility],
              (Tables.mem_ids_observed (hfits t ht)).mpr ⟨hid, hfree⟩⟩
          obtain ⟨u, hu, huv⟩ := Axes.mem_ids.mp hsum
          rw [← huv]
          refine Axes.mem_ids_of_mem (List.mem_filter.mpr ⟨hu, ?_⟩)
          obtain ⟨m, hm, rfl⟩ := mem_handles.mp (h.compiled.mem_handles_of_table hmem hv)
          rw [beq_iff_eq, hw.kindOf_eq_utility h, h.compiled.kindOf_of_id hm huv,
            ← h.compiled.kindOf_handle hm, ← hw.kindOf_eq_utility h, hkind]
      | utilityTerm hterm =>
          have hsurvivor := (Target.keeps_utilityTerm.mp hkeep).resolve_left (not_not.mpr hutility)
          obtain ⟨p, hp, rfl⟩ := List.mem_map.mp (h.compiled.map_snd_tabled.symm ▸ hmem)
          rw [hw.isUtility_eq h, h.compiled.isUtility_iff hp] at hutility
          have hone := h.compiled.filter_utility_axes (List.mem_filter.mpr ⟨hp, by simpa using hutility⟩)
          have haxes : p.2.axes.filter (fun v => w.registry.kindOf v == .utility) = [p.1.handle] := by
            rw [← hone]
            refine List.filter_congr fun v _ => ?_
            rw [Bool.eq_iff_iff, beq_iff_eq, beq_iff_eq, hw.kindOf_eq_utility h]
          have hv' : v ∈ p.2.axes.filter (fun v => w.registry.kindOf v == .utility) :=
            List.mem_filter.mpr ⟨hv, by simpa using hkind⟩
          rw [haxes] at hsurvivor hv'
          rw [List.mem_singleton.mp hv']
          simpa [Target.survivors, eq_comm] using hsurvivor
    · exact .inl ⟨h.ids_rules_subset hmem hid, hfree⟩
  · rintro (⟨hid, hfree⟩ | hid)
    · obtain ⟨t, ht, hid⟩ := h.exists_table hid
      rw [← hw.filter_not_isUtility h] at ht
      obtain ⟨ht, hutility⟩ := List.mem_filter.mp ht
      refine ⟨hfree, t, ht, ?_, hid, fun _ hu => by simp [hu] at hutility⟩
      cases hasks with
      | probability => exact hutility
      | totalUtility => rfl
      | utilityTerm => exact Target.keeps_utilityTerm.mpr (.inl (by simpa using hutility))
    · have hfree : id ∉ Axes.ids (evidence.map (·.subject)) := fun hobserved => by
        obtain ⟨u, hu, rfl⟩ := Axes.mem_ids.mp hobserved
        obtain ⟨o, ho, rfl⟩ := List.mem_map.mp hu
        exact hasks.survivor_notMem_states h.compiled hid
          (Axes.mem_ids_of_mem (hevidence.subject o ho))
      cases hasks with
      | probability => cases hid
      | totalUtility => cases hid
      | @utilityTerm m t hterm =>
          obtain rfl := List.mem_singleton.mp hid
          have hmem : m.handle ∈ t.axes.filter fun v => n.registry.kindOf v == .utility := by
            rw [h.compiled.filter_utility_axes hterm]
            exact List.mem_singleton_self _
          obtain ⟨haxis, hkind⟩ := List.mem_filter.mp hmem
          have ht : t ∈ w.tables := by
            rw [hw.tables, ← h.compiled.map_snd_tabled]
            exact List.mem_append_left _
              (List.mem_map_of_mem (f := (·.2)) (h.compiled.mem_utilities hterm).1)
          refine ⟨hfree, t, ht, Target.keeps_utilityTerm.mpr (.inr ?_),
            Axes.mem_ids_of_mem haxis, fun h => by cases h⟩
          refine Axes.mem_ids_of_mem (List.mem_filter.mpr ⟨haxis, ?_⟩)
          rw [beq_iff_eq, hw.kindOf_eq_utility h]
          simpa using hkind

/-- What is hidden are the states that are neither queried nor observed. -/
theorem perm_hidden (hreach : w.Reaches w₁
      (Tables.prepare s w.registry (Tables.observeAll evidence w.tables) target))
    (helim : ∀ id ∈ w₁.eliminated, id ∉ n.states.ids) (query : List Variable) :
    (Axes.ids (w₁.hidden s evidence query false)).Perm
      (Axes.ids (n.states.filter fun v =>
        !Axes.mentions (query ++ evidence.map (·.subject)) v)) := by
  have hleft : ∀ id, id ∈ (Tables.axes w₁.tables).ids ↔
      (id ∈ n.states.ids ∧ id ∉ Axes.ids (evidence.map (·.subject))) ∨
        id ∈ target.survivors.ids := fun _ => hw.mem_ids_left h hevidence hasks hreach
  refine (List.perm_ext_iff_of_nodup Workspace.nodup_hidden
    (Axes.nodup_ids_filter h.compiled.nodup_states _)).mpr fun id => ?_
  rw [Axes.mem_ids_filter_mentions, Axes.ids_append, List.mem_append, not_or]
  constructor
  · intro hid
    have hmem := (hleft id).mp (Workspace.hidden_subset hid)
    obtain ⟨v, hv, rfl⟩ := Axes.mem_ids.mp hid
    obtain ⟨-, hkind, -, -, hquery, -⟩ := Workspace.mem_hidden.mp hv
    refine hmem.elim (fun hmem => ⟨hmem.1, hquery, hmem.2⟩) fun hsurvivor => ?_
    obtain ⟨m, hm, hutility, hid, -⟩ := hasks.survivor h.compiled hsurvivor
    rw [← h.compiled.kindOf_of_id hm hid.symm, ← hw.kindOf_eq_utility h, ← hreach.kindOf_eq,
      hkind] at hutility
    cases hutility
  · rintro ⟨hid, hquery, hfree⟩
    obtain ⟨v, hv, rfl⟩ := Axes.mem_ids.mp (Axes.mem_ids_union.mpr (.inr ((hleft id).mpr (.inl ⟨hid, hfree⟩))) :
      id ∈ (Axes.union [] (Tables.axes w₁.tables)).ids)
    refine Axes.mem_ids_of_mem (Workspace.mem_hidden.mpr ⟨hv, ?_, fun h => helim _ h hid, hfree,
      hquery, Workspace.notMem_required_iff.mpr fun d hd hkind => ?_⟩)
    · rw [hreach.kindOf_eq, hw.kindOf_eq_chance h hid]
    · -- no decision is open
      have hstate := Axes.mem_ids_of_mem
        (h.compiled.decision_mem_states ((h.compiled.decisionOrder h.setting).1.subset hd))
      rw [hreach.kindOf_eq, hw.kindOf_eq_chance h hstate] at hkind
      cases hkind

end IsWorking

/-! ### Answers -/

/-- **A question is answered by enumeration.**  The answer of a ready network has the axes of the
query, besides a utility that survives, and adds up everything that the question does not fix. -/
theorem Ready.exists_returns_answer (h : n.Ready s) (hevidence : n.IsEvidence evidence)
    (hasks : n.Asks target F) (query : List Variable) :
    ∃ f r', Returns (n.answer evidence query target) n.registry f r' ∧ f.table.Fits n.sizes ∧
      (∀ id, id ∈ f.axes.ids ↔ (id ∈ n.states.ids ∧ id ∈ Axes.ids query ∧
        id ∉ Axes.ids (evidence.map (·.subject))) ∨ id ∈ target.survivors.ids) ∧
      ∀ x : Assignment, x.Valid n.sizes → f.table.valueAt x =
        n.integral F (query ++ evidence.map (·.subject)) (x.observing evidence) := by
  obtain ⟨fs, r', hset, -, hw⟩ := h.exists_returns_workingSet
  have hn := h.compiled
  have hfits := hw.fits h
  have houtcome : ∀ o ∈ evidence, o.outcome < n.sizes o.subject.id := fun o ho => by
    rw [← hn.sized_states o.subject (hevidence.subject o ho)]
    exact hevidence.outcome o ho
  obtain ⟨w₁, f, w₂, -, hsolve, hreach, helim, htable⟩ :=
    StepM.exists_returns_solve hw.numbered hfits s hevidence.outcome query target
  have htarget : target = .totalUtility → ∃ t ∈ (Workspace.start r' fs).tables,
      Tables.isUtility (Workspace.start r' fs).registry t := by
    rintro rfl
    cases hasks with
    | totalUtility hutility =>
        obtain ⟨t, ht, hu⟩ := hn.exists_isUtility hutility
        exact ⟨t, by simp [hw.tables, ht], by rw [hw.isUtility_eq h, hu]⟩
  have hsummed : ∀ id ∈ w₁.eliminated, id ∉ n.states.ids := by
    intro id hid hstate
    rw [helim, hw.eliminated] at hid
    obtain ⟨v, hv, rfl⟩ := Axes.mem_ids.mp (hid.resolve_left List.not_mem_nil).2
    obtain ⟨hkind, -⟩ := Tables.mem_summedUtilities hv
    rw [hw.kindOf_eq_chance h hstate] at hkind
    cases hkind
  obtain ⟨hfits', hids, hvalue⟩ := Tables.answer hfits (hw.arity_utility h) houtcome
    (hw.unobserved h hevidence) htarget hreach htable
  have hperm := hw.perm_hidden h hevidence hasks hreach hsummed query
  have hprepared : ∀ t ∈ w₁.tables, t.Fits n.sizes := by
    rw [hreach.tables_eq]
    exact Tables.fits_prepare s (Tables.fits_observeAll hfits) target
  refine ⟨f, w₂.registry, ?_, hfits', fun id => ?_, fun x hx => ?_⟩
  · unfold answer
    simp only [returns_bind, returns_except, Setting.returns_run]
    exact ⟨fs, r', hset, s, r', ⟨h.setting, rfl⟩, w₂, hsolve, rfl⟩
  · refine (hids id).trans ?_
    have hsurvivor : id ∈ target.survivors.ids → id ∉ n.states.ids :=
      hasks.survivor_notMem_states hn
    rw [hw.mem_ids_left h hevidence hasks hreach, hperm.mem_iff, Axes.mem_ids_filter_mentions,
      Axes.ids_append, List.mem_append]
    tauto
  · rw [hvalue x hx, hw.integrand_eq h hevidence hasks, Axes.sumOver_perm_ids
      (Workspace.sized_hidden hprepared)
      (hn.sized_states.subset List.filter_sublist.subset) hperm Workspace.nodup_hidden]
    rfl

/-- A table that has the axes of a query is summed over the others and laid out over the query. -/
theorem exists_returns_sumOut_rearrange {α : Type} [Cell α] {f : Factor α} (hf : f.axes.ids.Nodup)
    (hnodup : (Axes.ids query).Nodup) (hsub : Axes.ids query ⊆ f.axes.ids) (r : Registry) :
    ∃ g k t, Returns (project query f) r g (r.after k) ∧ g.table = t.rearrange query ∧
      t = (f.axes.filter fun v => !Axes.mentions query v).foldl Table.sumOut f.table ∧
      (Axes.ids query).Perm t.axes.ids := by
  obtain ⟨g, _, hsum, ⟨k, rfl⟩, htable, hnodup', hids'⟩ := (Factor.leads_sumOutAll
    (Axes.nodup_ids_filter hf fun v => !Axes.mentions query v) hf
    (Axes.ids_filter_sublist _ _).subset r).exists_returns
  have hids : (Axes.ids query).Perm g.axes.ids := by
    refine (List.perm_ext_iff_of_nodup hnodup hnodup').mpr fun id => ?_
    refine Iff.trans ?_ (hids' id).symm
    rw [Axes.mem_ids_filter_mentions]
    constructor
    · exact fun hid => ⟨hsub hid, fun h => h.2 hid⟩
    · exact fun ⟨hid, hnot⟩ => by_contra fun hout => hnot ⟨hid, hout⟩
  have hfound : (query.find? fun v => !g.mentions v) = none := by
    refine List.find?_eq_none.mpr fun v hv => ?_
    rw [Bool.not_eq_true', Bool.not_eq_false]
    exact Table.mentions_iff.mpr (hids.subset (Axes.mem_ids_of_mem hv))
  refine ⟨⟨(r.after k).nextFactor, g.table.rearrange query⟩, k + 1, g.table, ?_, rfl, htable, hids⟩
  unfold project
  refine returns_bind.mpr ⟨g, r.after k, hsum, ?_⟩
  simp only [hfound]
  rw [← Registry.after_after]
  exact Factor.returns_rearrange.mpr ⟨(Factor.isOrder_iff hnodup').mpr hids, rfl, rfl⟩

/-- A table over the query and perhaps variables with one outcome is laid out over the query. -/
theorem exists_returns_project {f : Factor ℚ} (hfits : f.table.Fits n.sizes)
    (hquery : Axes.Sized n.sizes query) (hnodup : (Axes.ids query).Nodup)
    (hsub : Axes.ids query ⊆ f.axes.ids)
    (hone : ∀ v ∈ f.axes, v.id ∉ Axes.ids query → v.arity = 1) (r : Registry) :
    ∃ g k, Returns (project query f) r g (r.after k) ∧ g.table.Fits n.sizes ∧
      g.axes.ids = Axes.ids query ∧
      ∀ x : Assignment, x.Valid n.sizes → g.table.valueAt x = f.table.valueAt x := by
  let extra : Axes := f.axes.filter fun v => !Axes.mentions query v
  have hextra : extra.ids.Nodup := Axes.nodup_ids_filter hfits.wellFormed.nodup _
  have hsized : extra.Sized n.sizes := hfits.sized.subset List.filter_sublist.subset
  have hmem : extra.ids ⊆ f.axes.ids := (Axes.ids_filter_sublist _ _).subset
  have hextraOne : ∀ v ∈ extra, v.arity = 1 := fun v hv =>
    hone v (List.mem_of_mem_filter hv)
      (Axes.mem_ids_filter_mentions.mp (Axes.mem_ids_of_mem hv)).2
  obtain ⟨g, k, _, hreturns, htable, rfl, hids⟩ :=
    exists_returns_sumOut_rearrange hfits.wellFormed.nodup hnodup hsub r
  obtain ⟨hfits', -, hvalue'⟩ := hfits.sumOutAll hextra hsized hmem
  refine ⟨g, k, hreturns, ?_, ?_, fun x hx => ?_⟩
  · rw [htable]
    exact hfits'.rearrange hids hquery
  · rw [Factor.axes, htable]
    exact Table.ids_rearrange _ query
  · rw [htable]
    exact (hfits'.valueAt_rearrange hids hquery hx).trans
      ((hvalue' x hx).trans (Axes.sumOver_single hextraOne hsized hx _))

/-- The answer is laid out over the query, and only creation numbers are used up. -/
theorem Ready.exists_returns_ask (h : n.Ready s) {observed : List (String × String)}
    {names : List String} (hevidence : n.evidence observed = .ok evidence)
    (hquery : n.unobservedQuery evidence names = .ok query) (hasks : n.Asks target F) :
    ∃ f r', Returns (NetworkM.ask observed names target) n f { n with registry := r' } ∧
      r'.handles = n.registry.handles ∧ n.registry.nextFactor ≤ r'.nextFactor ∧
      f.table.Fits n.sizes ∧ f.axes.ids = Axes.ids query ∧
      ∀ x : Assignment, x.Valid n.sizes → f.table.valueAt x =
        n.integral F (query ++ evidence.map (·.subject)) (x.observing evidence) := by
  have hn := h.compiled
  obtain ⟨hnamed, hfree⟩ := unobservedQuery_eq_ok hquery
  have hq := isQuery_of_ok hn hnamed
  obtain ⟨f, r', hanswer, hfits, hids, hvalue⟩ :=
    h.exists_returns_answer (isEvidence_of_ok hn hevidence).1 hasks query
  have hsub : Axes.ids query ⊆ f.axes.ids := by
    intro id hid
    obtain ⟨v, hv, rfl⟩ := Axes.mem_ids.mp hid
    exact (hids v.id).mpr (.inl ⟨Axes.mem_ids_of_mem (hq.subset hv), hid, hfree v hv⟩)
  have hone : ∀ v ∈ f.axes, v.id ∉ Axes.ids query → v.arity = 1 := by
    intro v hv hout
    have hsurvivor := ((hids v.id).mp (Axes.mem_ids_of_mem hv)).resolve_left fun h => hout h.2.1
    obtain ⟨-, -, -, -, hsize⟩ := hasks.survivor hn hsurvivor
    rw [hfits.sized v hv, hsize]
  obtain ⟨g, k, hproject, hfits', hids', hvalue'⟩ := exists_returns_project hfits
    (hn.sized_states.subset hq.subset) hq.nodup hsub hone (n.registry.absorb r')
  refine ⟨g, (n.registry.absorb r').after k, ?_, rfl, ?_, hfits', hids', fun x hx => ?_⟩
  · unfold NetworkM.ask
    simp only [returns_bind, returns_get, returns_except, NetworkM.returns_solving,
      NetworkM.returns_onRegistry]
    exact ⟨_, n, h.returns_ensurePolicies, n, n, ⟨rfl, rfl⟩, evidence, n, ⟨hevidence, rfl⟩, query, n,
      ⟨hquery, rfl⟩, f, _, ⟨r', hanswer, rfl⟩, _, hproject, rfl⟩
  · rw [Registry.after_nextFactor, Registry.absorb_nextFactor]
    omega
  · rw [hvalue' x hx, hvalue x hx]

end Network

end Influence
