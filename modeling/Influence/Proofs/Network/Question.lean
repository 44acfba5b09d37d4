import Influence.Proofs.Network.Expectation

/-! # Evidence and queries in names

Accepted evidence observes distinct variables, none of them a utility, at the outcomes that are named
(`isEvidence_of_ok`).  An observation that is listed again changes nothing, whether the evidence is
accepted or not (`evidence_repeat`).

An accepted query lists distinct variables that are not utilities (`isQuery_of_ok`), in the order of
their names (`isNamed_of_query`). -/

namespace Influence

theorem except_foldlM_induction {ε β γ : Type} {P : γ → Prop} {f : γ → β → Except ε γ}
    (hstep : ∀ c b c', P c → f c b = .ok c' → P c') {l : List β} {c c' : γ}
    (h : l.foldlM f c = .ok c') (hc : P c) : P c' := by
  induction l generalizing c with
  | nil =>
      cases h
      exact hc
  | cons b l ih =>
      rw [List.foldlM_cons, except_bind_eq_ok] at h
      obtain ⟨d, hb, h⟩ := h
      exact ih h (hstep c b d hc hb)

namespace Network

/-! ### Evidence -/

section

variable {α : Type} {n : Network α} {evidence evidence' : List Observation} {name outcome : String}
  {p q : String × String}

theorem addObservation_eq_ok : n.addObservation evidence (name, outcome) = .ok evidence' ↔
    ∃ m k, n.node name = .ok m ∧ m.kind ≠ .utility ∧ n.outcomeIndex name outcome = .ok k ∧
      ((∃ o, evidence.find? (·.subject.id == m.handle.id) = some o ∧ o.outcome = k ∧
          evidence' = evidence) ∨
        (evidence.find? (·.subject.id == m.handle.id) = none ∧
          evidence' = evidence ++ [⟨m.handle, k⟩])) := by
  simp only [addObservation, except_bind_eq_ok, except_guard_eq_ok]
  constructor
  · rintro ⟨m, hm, hkind, k, hk, h⟩
    refine ⟨m, k, hm, hkind, hk, ?_⟩
    split at h
    next o hfind =>
      split at h
      next heq =>
        cases h
        exact .inl ⟨o, hfind, heq, rfl⟩
      next => cases h
    next hfind =>
      cases h
      exact .inr ⟨hfind, rfl⟩
  · rintro ⟨m, k, hm, hkind, hk, h⟩
    refine ⟨m, hm, hkind, k, hk, ?_⟩
    rcases h with ⟨o, hfind, heq, rfl⟩ | ⟨hfind, rfl⟩
    · simp only [hfind, if_pos heq]
      rfl
    · simp only [hfind]
      rfl

theorem addObservation_self (h : n.addObservation evidence p = .ok evidence') :
    n.addObservation evidence' p = .ok evidence' := by
  obtain ⟨name, outcome⟩ := p
  obtain ⟨m, k, hm, hkind, hk, h⟩ := addObservation_eq_ok.mp h
  refine addObservation_eq_ok.mpr ⟨m, k, hm, hkind, hk, .inl ?_⟩
  rcases h with ⟨o, hfind, heq, rfl⟩ | ⟨hfind, rfl⟩
  · exact ⟨o, hfind, heq, rfl⟩
  · exact ⟨⟨m.handle, k⟩, by simp [List.find?_append, hfind], rfl, rfl⟩

/-- Evidence goes on to hold while observations are added. -/
theorem addObservation_of_self (hp : n.addObservation evidence p = .ok evidence)
    (hq : n.addObservation evidence q = .ok evidence') :
    n.addObservation evidence' p = .ok evidence' := by
  obtain ⟨name, outcome⟩ := p
  obtain ⟨name', outcome'⟩ := q
  obtain ⟨m, k, hm, hkind, hk, hp⟩ := addObservation_eq_ok.mp hp
  obtain ⟨m', k', -, -, -, hq⟩ := addObservation_eq_ok.mp hq
  refine addObservation_eq_ok.mpr ⟨m, k, hm, hkind, hk, .inl ?_⟩
  have hfound : ∃ o, evidence.find? (·.subject.id == m.handle.id) = some o ∧ o.outcome = k := by
    rcases hp with ⟨o, hfind, heq, -⟩ | ⟨-, h⟩
    · exact ⟨o, hfind, heq⟩
    · exact absurd (congrArg List.length h) (by simp)
  obtain ⟨o, hfind, heq⟩ := hfound
  refine ⟨o, ?_, heq, rfl⟩
  rcases hq with ⟨-, -, -, rfl⟩ | ⟨-, rfl⟩
  · exact hfind
  · rw [List.find?_append, hfind]
    rfl

/-- **A repeated observation changes nothing.** -/
theorem evidence_repeat (n : Network α) {front : List (String × String)} (hp : p ∈ front)
    (back : List (String × String)) : n.evidence (front ++ p :: back) = n.evidence (front ++ back) := by
  have hfront : ∀ (observed : List (String × String)) (acc acc' : List Observation),
      observed.foldlM n.addObservation acc = .ok acc' → p ∈ observed →
      n.addObservation acc' p = .ok acc' := by
    intro observed
    induction observed with
    | nil => exact fun _ _ _ hp => absurd hp List.not_mem_nil
    | cons q observed ih =>
        intro acc acc' h hp
        rw [List.foldlM_cons, except_bind_eq_ok] at h
        obtain ⟨acc₁, hq, h⟩ := h
        rcases List.mem_cons.mp hp with rfl | hp
        · exact except_foldlM_induction (P := fun acc => n.addObservation acc p = .ok acc)
            (fun _ _ _ hself hstep => addObservation_of_self hself hstep) h (addObservation_self hq)
        · exact ih acc₁ acc' h hp
  rw [evidence, evidence, List.foldlM_append, List.foldlM_append]
  cases h : front.foldlM n.addObservation [] with
  | error e => rfl
  | ok acc =>
      change (p :: back).foldlM n.addObservation acc = back.foldlM n.addObservation acc
      rw [List.foldlM_cons, hfront front [] acc h hp]
      rfl

end

variable {α : Type} {n : Network α} {evidence : List Observation} {query : List Variable}
  {observed : List (String × String)} {names : List String}

/-- The observations are of distinct variables of the network, at outcomes of theirs. -/
structure IsEvidence {α : Type} (n : Network α) (evidence : List Observation) : Prop where
  nodup : (Axes.ids (evidence.map (·.subject))).Nodup
  subject : ∀ o ∈ evidence, o.subject ∈ n.states
  outcome : ∀ o ∈ evidence, o.outcome < o.subject.arity

/-- The name of a variable and that of an outcome of it stand for an observation. -/
def IsObservation {α : Type} (n : Network α) (p : String × String) (o : Observation) : Prop :=
  ∃ m ∈ n.nodes, m.name = p.1 ∧ m.handle = o.subject ∧ m.outcomes.idxOf? p.2 = some o.outcome

theorem outcomeIndex_eq_ok {name outcome : String} {m : Node} {k : ℕ} (hm : n.node name = .ok m) :
    n.outcomeIndex name outcome = .ok k ↔ m.outcomes.idxOf? outcome = some k := by
  rw [outcomeIndex, except_bind_eq_ok]
  constructor
  · rintro ⟨m', hm', h⟩
    obtain rfl : m = m' := Except.ok.inj (hm.symm.trans hm')
    split at h
    next i hi =>
      cases h
      exact hi
    next => cases h
  · intro h
    refine ⟨m, hm, ?_⟩
    rw [h]
    rfl

/-- One more pair of names adds the observation that it stands for. -/
theorem IsEvidence.addObservation [Build] (hevidence : n.IsEvidence evidence) (hn : n.Compiled)
    {p : String × String} {evidence' : List Observation}
    (h : n.addObservation evidence p = .ok evidence') :
    n.IsEvidence evidence' ∧ ∀ o, o ∈ evidence' ↔ o ∈ evidence ∨ n.IsObservation p o := by
  obtain ⟨name, outcome⟩ := p
  obtain ⟨m, k, hm, hkind, hk, h⟩ := addObservation_eq_ok.mp h
  obtain ⟨hmem, hname⟩ := (find_eq_ok_iff hn.declared.names).mp hm
  rw [outcomeIndex_eq_ok hm] at hk
  have hstands : ∀ o, n.IsObservation (name, outcome) o ↔ o = ⟨m.handle, k⟩ := by
    intro o
    constructor
    · rintro ⟨m', hm', hname', hsubject, houtcome⟩
      have hfound : n.node name = .ok m' := (find_eq_ok_iff hn.declared.names).mpr ⟨hm', hname'⟩
      obtain rfl : m = m' := Except.ok.inj (hm.symm.trans hfound)
      obtain rfl : k = o.outcome := Option.some.inj (hk.symm.trans houtcome)
      rw [hsubject]
    · rintro rfl
      exact ⟨m, hmem, hname, rfl, hk⟩
  simp only [hstands]
  rcases h with ⟨o, hfind, rfl, rfl⟩ | ⟨hnone, rfl⟩
  · refine ⟨hevidence, fun o' => ⟨.inl, fun ho' => ho'.elim id ?_⟩⟩
    rintro rfl
    have ho := List.mem_of_find?_eq_some hfind
    obtain ⟨m', hm', -, hsubject⟩ := mem_states.mp (hevidence.subject o ho)
    have hid : m'.handle.id = m.handle.id := by
      rw [hsubject]
      simpa using List.find?_some hfind
    rwa [hn.eq_of_id hmem hm' hid.symm, hsubject]
  · have hlt : k < m.handle.arity := by
      rw [hn.declared.arity m hmem]
      exact (List.findIdx?_eq_some_iff_getElem.mp hk).1
    refine ⟨⟨?_, ?_, ?_⟩, fun o => by rw [List.mem_append, List.mem_singleton]⟩
    · rw [List.map_append, Axes.ids_append, List.nodup_append]
      refine ⟨hevidence.nodup, by simp, ?_⟩
      rintro id hid _ hid' rfl
      obtain ⟨v, hv, hid⟩ := Axes.mem_ids.mp hid
      obtain ⟨o, ho, rfl⟩ := List.mem_map.mp hv
      have hne := List.find?_eq_none.mp hnone o ho
      rw [beq_iff_eq, hid] at hne
      exact hne (by simpa using hid')
    · intro o ho
      rcases List.mem_append.mp ho with ho | ho
      · exact hevidence.subject o ho
      · rw [List.mem_singleton.mp ho]
        exact mem_states.mpr ⟨m, hmem, hkind, rfl⟩
    · intro o ho
      rcases List.mem_append.mp ho with ho | ho
      · exact hevidence.outcome o ho
      · rw [List.mem_singleton.mp ho]
        exact hlt

/-- Accepted evidence consists of the observations that the pairs of names stand for. -/
theorem isEvidence_of_ok [Build] (hn : n.Compiled) (h : n.evidence observed = .ok evidence) :
    n.IsEvidence evidence ∧ ∀ o, o ∈ evidence ↔ ∃ p ∈ observed, n.IsObservation p o := by
  have hfold : ∀ (observed : List (String × String)) (acc : List Observation), n.IsEvidence acc →
      observed.foldlM n.addObservation acc = .ok evidence → n.IsEvidence evidence ∧
        ∀ o, o ∈ evidence ↔ o ∈ acc ∨ ∃ p ∈ observed, n.IsObservation p o := by
    intro observed
    induction observed with
    | nil =>
        intro acc hacc h
        cases h
        exact ⟨hacc, by simp⟩
    | cons p observed ih =>
        intro acc hacc h
        rw [List.foldlM_cons, except_bind_eq_ok] at h
        obtain ⟨acc', hstep, h⟩ := h
        obtain ⟨hacc', hmem⟩ := hacc.addObservation hn hstep
        obtain ⟨hevidence, hrest⟩ := ih acc' hacc' h
        exact ⟨hevidence, fun o => by simp [hrest, hmem, or_assoc]⟩
  obtain ⟨hevidence, hmem⟩ := hfold observed [] ⟨by simp, by simp, by simp⟩ h
  exact ⟨hevidence, fun o => by simpa using hmem o⟩

/-! ### Queries -/

/-- The query lists distinct variables of the network. -/
structure IsQuery {α : Type} (n : Network α) (query : List Variable) : Prop where
  nodup : (Axes.ids query).Nodup
  subset : query ⊆ n.states

theorem addQuery_eq_ok {α : Type} {n : Network α} {name : String} {query query' : List Variable} :
    n.addQuery query name = .ok query' ↔ ∃ m, n.node name = .ok m ∧ m.kind ≠ .utility ∧
      m.handle.id ∉ Axes.ids query ∧ query' = query ++ [m.handle] := by
  simp only [addQuery, except_bind_eq_ok, except_guard_eq_ok, Bool.not_eq_true,
    Axes.mentions_eq_false_iff]
  refine exists_congr fun m => and_congr_right fun _ => and_congr_right fun _ =>
    and_congr_right fun _ => ?_
  exact ⟨fun h => (Except.ok.inj h).symm, fun h => h ▸ rfl⟩

theorem isQuery_of_ok [Build] (hn : n.Compiled) (h : n.query names = .ok query) : n.IsQuery query := by
  refine except_foldlM_induction (P := n.IsQuery) ?_ h ⟨by simp, by simp⟩
  intro acc name acc' hacc hstep
  obtain ⟨m, hm, hkind, hfresh, rfl⟩ := addQuery_eq_ok.mp hstep
  have hmem := (find_eq_ok_iff hn.declared.names).mp hm
  constructor
  case nodup =>
    rw [Axes.ids_append, List.nodup_append]
    refine ⟨hacc.nodup, by simp, ?_⟩
    rintro id hid _ hid' rfl
    exact hfresh ((by simpa using hid' : id = m.handle.id) ▸ hid)
  case subset =>
    refine List.append_subset.mpr ⟨hacc.subset, fun v hv => ?_⟩
    rw [List.mem_singleton.mp hv]
    exact mem_states.mpr ⟨m, hmem.1, hkind, rfl⟩

/-- A query lists the handles of its names. -/
theorem exists_nodes_of_query {α : Type} {n : Network α} (h : n.query names = .ok query) :
    ∃ ms, List.Forall₂ (fun name m => n.node name = .ok m) names ms ∧ ms.map (·.handle) = query := by
  have hfold : ∀ (names : List String) (acc query : List Variable),
      names.foldlM n.addQuery acc = .ok query →
      ∃ ms, List.Forall₂ (fun name m => n.node name = .ok m) names ms ∧
        acc ++ ms.map (·.handle) = query := by
    intro names
    induction names with
    | nil =>
        intro acc query h
        cases h
        exact ⟨[], .nil, List.append_nil acc⟩
    | cons name names ih =>
        intro acc query h
        rw [List.foldlM_cons, except_bind_eq_ok] at h
        obtain ⟨acc', hstep, h⟩ := h
        obtain ⟨m, hm, -, -, rfl⟩ := addQuery_eq_ok.mp hstep
        obtain ⟨ms, hms, rfl⟩ := ih _ _ h
        exact ⟨m :: ms, .cons hm hms, by simp⟩
  exact hfold names [] query h

/-- The name is that of the variable. -/
def IsNamed {α : Type} (n : Network α) (name : String) (v : Variable) : Prop :=
  ∃ m ∈ n.nodes, m.name = name ∧ m.handle = v

theorem isNamed_of_query [Build] (hn : n.Compiled) (h : n.query names = .ok query) :
    List.Forall₂ n.IsNamed names query := by
  obtain ⟨ms, hms, rfl⟩ := exists_nodes_of_query h
  refine List.forall₂_map_right_iff.mpr (hms.imp fun name m hm => ?_)
  obtain ⟨hmem, hname⟩ := (find_eq_ok_iff hn.declared.names).mp hm
  exact ⟨m, hmem, hname, rfl⟩

theorem unobservedQuery_eq_ok {α : Type} {n : Network α}
    (h : n.unobservedQuery evidence names = .ok query) :
    n.query names = .ok query ∧
      ∀ v ∈ query, v.id ∉ Axes.ids (evidence.map (·.subject)) := by
  rw [unobservedQuery, except_bind_eq_ok] at h
  obtain ⟨query', hquery, h⟩ := h
  split at h
  next => cases h
  next hfind =>
    cases h
    refine ⟨hquery, fun v hv => ?_⟩
    obtain ⟨ms, hms, rfl⟩ := exists_nodes_of_query hquery
    obtain ⟨p, hp, rfl⟩ : ∃ p ∈ names.zip (ms.map (·.handle)), p.2 = v := by
      rw [← List.mem_map, List.map_snd_zip (by rw [List.length_map, hms.length_eq])]
      exact hv
    exact Axes.mentions_iff.not.mp (List.find?_eq_none.mp hfind p hp)

end Network

end Influence
