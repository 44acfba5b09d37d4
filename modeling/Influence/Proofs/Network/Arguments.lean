import Influence.Proofs.Network.Question
import Influence.Proofs.Network.Rejection

/-! # Arguments of questions

The names in a question are accepted exactly if they make sense: evidence if it names outcomes of
variables that are not utilities and no two outcomes of one variable (`Network.exists_evidence_iff`), a
query if it names distinct variables that are not utilities (`Network.exists_query_iff`), and a term of
the utility if there is one (`Network.HasTerm`).  Arguments that are rejected do not meet the condition,
and the cause is neither a broken invariant nor a size mismatch (`Error.Refuses`). -/

namespace Influence

/-- The condition fails, and the cause is neither a broken invariant nor a size mismatch. -/
structure Error.Refuses (P : Prop) (e : Error) : Prop where
  refused : ¬P
  internal : e.family ≠ .internal
  sizeMismatch : e.family ≠ .sizeMismatch

theorem Error.Refuses.imp {P Q : Prop} {e : Error} (h : e.Refuses P) (hQ : Q → P) : e.Refuses Q :=
  ⟨fun hq => h.refused (hQ hq), h.internal, h.sizeMismatch⟩

theorem Error.refuses_of_family {P : Prop} {e : Error} (h : ¬P)
    (he : e.family = .unknownVariable ∨ e.family = .unknownOutcome ∨ e.family = .validation ∨
      e.family = .noSolution) : e.Refuses P := by
  constructor
  · exact h
  · rcases he with he | he | he | he <;> rw [he] <;> nofun
  · rcases he with he | he | he | he <;> rw [he] <;> nofun

namespace Network

variable {α : Type} {n : Network α} {observed : List (String × String)} {names : List String}
  {evidence : List Observation} {query : List Variable} {name : String} {utility : Option String}
  {e : Error}

/-- The name is that of a chance variable or a decision. -/
def IsState (n : Network α) (name : String) : Prop :=
  ∃ m ∈ n.nodes, m.name = name ∧ m.kind ≠ .utility

/-- The pairs of names are observations that can be made together: of variables that are not
utilities, at outcomes of theirs, and at one outcome of each. -/
structure Admits (n : Network α) (observed : List (String × String)) : Prop where
  outcome : ∀ p ∈ observed, ∃ m ∈ n.nodes, m.name = p.1 ∧ m.kind ≠ .utility ∧ p.2 ∈ m.outcomes
  agree : ∀ p ∈ observed, ∀ q ∈ observed, p.1 = q.1 → p.2 = q.2

/-- The names are those of distinct variables that are not utilities. -/
structure CanQuery (n : Network α) (names : List String) : Prop where
  distinct : names.Nodup
  state : ∀ name ∈ names, n.IsState name

/-- There is the named term of the utility, or any term if none is named. -/
def HasTerm (n : Network α) : Option String → Prop
  | some name => ∃ m ∈ n.nodes, m.name = name ∧ m.kind = .utility
  | none => ∃ m ∈ n.nodes, m.kind = .utility

theorem node_eq_ok [Build] (hn : n.Compiled) {m : Node} (hm : m ∈ n.nodes) : n.node m.name = .ok m :=
  (find_eq_ok_iff hn.declared.names).mpr ⟨hm, rfl⟩

/-- An observation at an outcome of a variable agrees with the evidence or adds to it. -/
theorem exists_addObservation [Build] (hn : n.Compiled) {p : String × String} {m : Node} (hm : m ∈ n.nodes)
    (hname : m.name = p.1) (hkind : m.kind ≠ .utility) (houtcome : p.2 ∈ m.outcomes)
    (hagree : ∀ o ∈ evidence, ∀ k, m.outcomes.idxOf? p.2 = some k → o.subject.id = m.handle.id →
      o.outcome = k) : ∃ evidence', n.addObservation evidence p = .ok evidence' := by
  obtain ⟨name, outcome⟩ := p
  obtain rfl := hname
  obtain ⟨k, hk⟩ : ∃ k, m.outcomes.idxOf? outcome = some k :=
    Option.ne_none_iff_exists'.mp fun hnone => List.idxOf?_eq_none_iff.mp hnone houtcome
  have hnode := node_eq_ok hn hm
  cases hfind : evidence.find? (·.subject.id == m.handle.id) with
  | none =>
      exact ⟨_, addObservation_eq_ok.mpr
        ⟨m, k, hnode, hkind, (outcomeIndex_eq_ok hnode).mpr hk, .inr ⟨hfind, rfl⟩⟩⟩
  | some o =>
      have hsame := hagree o (List.mem_of_find?_eq_some hfind) k hk (by simpa using List.find?_some hfind)
      exact ⟨_, addObservation_eq_ok.mpr
        ⟨m, k, hnode, hkind, (outcomeIndex_eq_ok hnode).mpr hk, .inl ⟨o, hfind, hsame, rfl⟩⟩⟩

/-- Observations that can be made together are accepted. -/
theorem Admits.exists_evidence [Build] (hn : n.Compiled) (h : n.Admits observed) :
    ∃ evidence, n.evidence observed = .ok evidence := by
  -- the evidence so far consists of observations of `front`
  have hfold : ∀ (rest front : List (String × String)) (acc : List Observation),
      (∀ p ∈ front ++ rest, p ∈ observed) → n.IsEvidence acc →
      (∀ o ∈ acc, ∃ p ∈ front, n.IsObservation p o) →
      ∃ evidence, rest.foldlM n.addObservation acc = .ok evidence := by
    intro rest
    induction rest with
    | nil => exact fun _ acc _ _ _ => ⟨acc, rfl⟩
    | cons p rest ih =>
        intro front acc hsub hacc hmem
        have hp : p ∈ observed := hsub p (by simp)
        obtain ⟨m, hm, hname, hkind, houtcome⟩ := h.outcome p hp
        obtain ⟨acc', hstep⟩ : ∃ acc', n.addObservation acc p = .ok acc' := by
          refine exists_addObservation hn hm hname hkind houtcome fun o ho k hk hid => ?_
          obtain ⟨q, hq, m', hm', hname', hsubject, hk'⟩ := hmem o ho
          obtain rfl : m' = m := hn.eq_of_id hm' hm (by rw [hsubject, hid])
          have hsame := h.agree p hp q (hsub q (by simp [hq])) (hname.symm.trans hname')
          rw [← hsame, hk] at hk'
          exact (Option.some.inj hk').symm
        obtain ⟨hacc', hadded⟩ := hacc.addObservation hn hstep
        obtain ⟨evidence, hrest⟩ := ih (front ++ [p]) acc' (by simpa using hsub) hacc' fun o ho => by
          rcases (hadded o).mp ho with ho | ho
          · obtain ⟨q, hq, ho⟩ := hmem o ho
            exact ⟨q, by simp [hq], ho⟩
          · exact ⟨p, by simp, ho⟩
        exact ⟨evidence, by rw [List.foldlM_cons, except_bind_eq_ok]; exact ⟨acc', hstep, hrest⟩⟩
  exact hfold observed [] [] (fun p hp => hp) ⟨by simp, by simp, by simp⟩ (by simp)

/-- **Evidence is accepted exactly if the observations can be made together.** -/
theorem exists_evidence_iff [Build] (hn : n.Compiled) :
    (∃ evidence, n.evidence observed = .ok evidence) ↔ n.Admits observed := by
  refine ⟨?_, fun h => h.exists_evidence hn⟩
  rintro ⟨evidence, h⟩
  have hstep : ∀ (observed : List (String × String)) (acc : List Observation),
      observed.foldlM n.addObservation acc = .ok evidence → ∀ p ∈ observed,
        ∃ m ∈ n.nodes, m.name = p.1 ∧ m.kind ≠ .utility ∧ ∃ k, m.outcomes.idxOf? p.2 = some k := by
    intro observed
    induction observed with
    | nil => exact fun _ _ p hp => absurd hp List.not_mem_nil
    | cons q observed ih =>
        intro acc h p hp
        rw [List.foldlM_cons, except_bind_eq_ok] at h
        obtain ⟨acc', hfirst, h⟩ := h
        rcases List.mem_cons.mp hp with rfl | hp
        · obtain ⟨name, outcome⟩ := p
          obtain ⟨m, k, hnode, hkind, hk, -⟩ := addObservation_eq_ok.mp hfirst
          obtain ⟨hm, hname⟩ := (find_eq_ok_iff hn.declared.names).mp hnode
          exact ⟨m, hm, hname, hkind, k, (outcomeIndex_eq_ok hnode).mp hk⟩
        · exact ih acc' h p hp
  obtain ⟨hevidence, hmem⟩ := isEvidence_of_ok hn h
  constructor
  case outcome =>
    intro p hp
    obtain ⟨m, hm, hname, hkind, k, hk⟩ := hstep observed [] h p hp
    refine ⟨m, hm, hname, hkind, by_contra fun hout => ?_⟩
    rw [List.idxOf?_eq_none_iff.mpr hout] at hk
    cases hk
  case agree =>
    intro p hp q hq hsame
    obtain ⟨m, hm, hname, -, k, hk⟩ := hstep observed [] h p hp
    obtain ⟨m', hm', hname', -, k', hk'⟩ := hstep observed [] h q hq
    obtain rfl : m = m' := List.inj_on_of_nodup_map hn.declared.names hm hm'
      (hname.trans (hsame.trans hname'.symm))
    have hleft : ⟨m.handle, k⟩ ∈ evidence := (hmem _).mpr ⟨p, hp, m, hm, hname, rfl, hk⟩
    have hright : ⟨m.handle, k'⟩ ∈ evidence := (hmem _).mpr ⟨q, hq, m, hm, hname', rfl, hk'⟩
    have hnodup : (evidence.map (·.subject.id)).Nodup := by
      simpa [Axes.ids, Function.comp_def] using hevidence.nodup
    have hequal := List.inj_on_of_nodup_map hnodup hleft hright rfl
    obtain rfl : k = k' := congrArg (·.outcome) hequal
    have hget := (List.findIdx?_eq_some_iff_getElem.mp hk)
    have hget' := (List.findIdx?_eq_some_iff_getElem.mp hk')
    exact (beq_iff_eq.mp hget.2.1).symm.trans (beq_iff_eq.mp hget'.2.1)

theorem family_of_evidence (h : n.evidence observed = .error e) :
    e.family = .unknownVariable ∨ e.family = .unknownOutcome ∨ e.family = .validation := by
  obtain ⟨evidence, ⟨name, outcome⟩, -, h⟩ := except_foldlM_eq_error h
  simp only [addObservation, except_bind_eq_error, except_guard_eq_error] at h
  rcases h with h | ⟨m, -, ⟨-, rfl⟩ | ⟨-, h | ⟨k, -, h⟩⟩⟩
  · exact .inl (find_eq_error h ▸ rfl)
  · exact .inr (.inr rfl)
  · rw [outcomeIndex, except_bind_eq_error] at h
    rcases h with h | ⟨m', -, h⟩
    · exact .inl (find_eq_error h ▸ rfl)
    · split at h
      · cases h
      · cases h
        exact .inr (.inl rfl)
  · split at h
    · split at h
      · cases h
      · cases h
        exact .inr (.inr rfl)
    · cases h

theorem refuses_of_evidence [Build] (hn : n.Compiled) (h : n.evidence observed = .error e) :
    e.Refuses (n.Admits observed) := by
  refine Error.refuses_of_family (fun hadmits => ?_) ?_
  · obtain ⟨evidence, hok⟩ := hadmits.exists_evidence hn
    rw [h] at hok
    cases hok
  · rcases family_of_evidence h with h | h | h <;> simp [h]

/-! ### Queries -/

/-- The names of nodes that are not utilities are accepted while no name is repeated. -/
theorem exists_addQueries_iff [Build] (hn : n.Compiled) {acc : List Variable} :
    (∃ query, names.foldlM n.addQuery acc = .ok query) ↔ n.CanQuery names ∧
      ∀ m ∈ n.nodes, m.name ∈ names → m.handle.id ∉ Axes.ids acc := by
  induction names generalizing acc with
  | nil => exact iff_of_true ⟨acc, rfl⟩ ⟨⟨.nil, by simp⟩, by simp⟩
  | cons name names ih =>
      have hstep : (∃ query, (name :: names).foldlM n.addQuery acc = .ok query) ↔
          ∃ m ∈ n.nodes, m.name = name ∧ m.kind ≠ .utility ∧ m.handle.id ∉ Axes.ids acc ∧
            ∃ query, names.foldlM n.addQuery (acc ++ [m.handle]) = .ok query := by
        simp only [List.foldlM_cons, except_bind_eq_ok, addQuery_eq_ok]
        constructor
        · rintro ⟨query, _, ⟨m, hnode, hkind, hfresh, rfl⟩, h⟩
          obtain ⟨hm, hname⟩ := (find_eq_ok_iff hn.declared.names).mp hnode
          exact ⟨m, hm, hname, hkind, hfresh, query, h⟩
        · rintro ⟨m, hm, rfl, hkind, hfresh, query, h⟩
          exact ⟨query, _, ⟨m, node_eq_ok hn hm, hkind, hfresh, rfl⟩, h⟩
      rw [hstep]
      simp only [ih, Axes.ids_append, List.mem_append, not_or]
      constructor
      · rintro ⟨m, hm, rfl, hkind, hfresh, hquery, hrest⟩
        refine ⟨⟨List.nodup_cons.mpr ⟨fun hmem => ?_, hquery.distinct⟩, ?_⟩, fun m' hm' hname => ?_⟩
        · exact (hrest m hm hmem).2 (by simp)
        · exact List.forall_mem_cons.mpr ⟨⟨m, hm, rfl, hkind⟩, hquery.state⟩
        · rcases List.mem_cons.mp hname with hname | hname
          · rwa [List.inj_on_of_nodup_map hn.declared.names hm' hm hname]
          · exact (hrest m' hm' hname).1
      · rintro ⟨hquery, hfresh⟩
        obtain ⟨hname, hdistinct⟩ := List.nodup_cons.mp hquery.distinct
        obtain ⟨⟨m, hm, rfl, hkind⟩, hstate⟩ := List.forall_mem_cons.mp hquery.state
        refine ⟨m, hm, rfl, hkind, hfresh m hm (by simp), ⟨hdistinct, hstate⟩, fun m' hm' hmem => ?_⟩
        refine ⟨hfresh m' hm' (by simp [hmem]), fun hid => hname ?_⟩
        rwa [hn.eq_of_id hm hm' (by simpa [eq_comm] using hid)]

/-- **A query is accepted exactly if it names distinct variables that are not utilities.** -/
theorem exists_query_iff [Build] (hn : n.Compiled) :
    (∃ query, n.query names = .ok query) ↔ n.CanQuery names := by
  unfold Network.query
  rw [exists_addQueries_iff hn]
  exact and_iff_left (by simp)

theorem family_of_query (h : n.query names = .error e) :
    e.family = .unknownVariable ∨ e.family = .validation := by
  obtain ⟨query, name, -, h⟩ := except_foldlM_eq_error h
  simp only [addQuery, except_bind_eq_error, except_guard_eq_error] at h
  rcases h with h | ⟨m, -, ⟨-, rfl⟩ | ⟨-, ⟨-, rfl⟩ | ⟨-, h⟩⟩⟩
  · exact .inl (find_eq_error h ▸ rfl)
  · exact .inr rfl
  · exact .inr rfl
  · cases h

theorem refuses_of_query [Build] (hn : n.Compiled) (h : n.query names = .error e) :
    e.Refuses (n.CanQuery names) := by
  refine Error.refuses_of_family (fun hquery => ?_) ?_
  · obtain ⟨query, hok⟩ := (exists_query_iff hn).mpr hquery
    rw [h] at hok
    cases hok
  · rcases family_of_query h with h | h <;> simp [h]

/-- The arguments of a question about variables that are not observed. -/
structure CanAsk (n : Network α) (observed : List (String × String)) (names : List String) : Prop where
  evidence : n.Admits observed
  query : n.CanQuery names
  unobserved : ∀ p ∈ observed, p.1 ∉ names

/-- A queried variable is observed if its name is among those of the evidence. -/
theorem mem_ids_subjects_iff [Build] (hn : n.Compiled) (hevidence : n.evidence observed = .ok evidence)
    {name : String} {v : Variable} (hv : n.IsNamed name v) :
    v.id ∈ Axes.ids (evidence.map (·.subject)) ↔ ∃ p ∈ observed, p.1 = name := by
  obtain ⟨m, hm, rfl, rfl⟩ := hv
  obtain ⟨-, hmem⟩ := isEvidence_of_ok hn hevidence
  constructor
  · intro hid
    obtain ⟨u, hu, hid⟩ := Axes.mem_ids.mp hid
    obtain ⟨o, ho, rfl⟩ := List.mem_map.mp hu
    obtain ⟨p, hp, m', hm', hname, hsubject, -⟩ := (hmem o).mp ho
    refine ⟨p, hp, ?_⟩
    rw [← hname, hn.eq_of_id hm' hm (by rw [hsubject, hid])]
  · rintro ⟨p, hp, hname⟩
    obtain ⟨m', hm', hname', -, houtcome⟩ := ((exists_evidence_iff hn).mp ⟨_, hevidence⟩).outcome p hp
    obtain rfl : m' = m :=
      List.inj_on_of_nodup_map hn.declared.names hm' hm (hname'.trans hname)
    obtain ⟨k, hk⟩ : ∃ k, m'.outcomes.idxOf? p.2 = some k :=
      Option.ne_none_iff_exists'.mp fun hnone => List.idxOf?_eq_none_iff.mp hnone houtcome
    exact Axes.mem_ids_of_mem (List.mem_map_of_mem (f := (·.subject))
      ((hmem ⟨m'.handle, k⟩).mpr ⟨p, hp, m', hm', hname', rfl, hk⟩))

theorem canAsk_of_ok [Build] (hn : n.Compiled) (hevidence : n.evidence observed = .ok evidence)
    (h : n.unobservedQuery evidence names = .ok query) : n.CanAsk observed names := by
  obtain ⟨hquery, hfree⟩ := unobservedQuery_eq_ok h
  refine ⟨(exists_evidence_iff hn).mp ⟨_, hevidence⟩, (exists_query_iff hn).mp ⟨_, hquery⟩, ?_⟩
  intro p hp hname
  obtain ⟨v, hv, hnamed⟩ := exists_right_of_mem (isNamed_of_query hn hquery) hname
  exact hfree v hv ((mem_ids_subjects_iff hn hevidence hnamed).mpr ⟨p, hp, rfl⟩)

theorem refuses_of_unobservedQuery [Build] (hn : n.Compiled) (hevidence : n.evidence observed = .ok evidence)
    (h : n.unobservedQuery evidence names = .error e) : e.Refuses (n.CanAsk observed names) := by
  rw [unobservedQuery, except_bind_eq_error] at h
  rcases h with h | ⟨query, hquery, h⟩
  · exact (refuses_of_query hn h).imp (·.query)
  · split at h
    next name v hfind =>
      cases h
      have hmem := List.mem_of_find?_eq_some hfind
      have hobserved : v.id ∈ Axes.ids (evidence.map (·.subject)) :=
        Axes.mentions_iff.mp (by simpa using List.find?_some hfind)
      refine Error.refuses_of_family (fun hask => ?_) (by simp [Error.family])
      have hnamed := (List.forall₂_iff_zip.mp (isNamed_of_query hn hquery)).2 hmem
      obtain ⟨p, hp, rfl⟩ := (mem_ids_subjects_iff hn hevidence hnamed).mp hobserved
      exact hask.unobserved p hp (List.of_mem_zip hmem).1
    next => cases h

/-! ### Terms of the utility -/

theorem hasTerm_of_ok [Build] (hn : n.Compiled) {target : Target} (h : n.utilityTarget utility = .ok target) :
    n.HasTerm utility := by
  unfold utilityTarget at h
  cases utility with
  | some name =>
      simp only [except_bind_eq_ok, except_guard_eq_ok, ne_eq, not_not] at h
      obtain ⟨m, hnode, hkind, -⟩ := h
      obtain ⟨hm, hname⟩ := (find_eq_ok_iff hn.declared.names).mp hnode
      exact ⟨m, hm, hname, hkind⟩
  | none =>
      dsimp only at h
      split at h
      next hany => simpa [HasTerm] using hany
      next => cases h

/-- A term that is rejected is not one of the utility. -/
theorem refuses_of_utilityTarget [Build] (hn : n.Compiled) (h : n.utilityTarget utility = .error e) :
    e.Refuses (n.HasTerm utility) := by
  unfold utilityTarget at h
  cases utility with
  | some name =>
      simp only [except_bind_eq_error, except_guard_eq_error] at h
      rcases h with h | ⟨m, hnode, ⟨hkind, rfl⟩ | ⟨-, h⟩⟩
      · refine Error.refuses_of_family ?_ (.inl (find_eq_error h ▸ rfl))
        rintro ⟨m, hm, rfl, -⟩
        rw [node_eq_ok hn hm] at h
        cases h
      · refine Error.refuses_of_family ?_ (by simp [Error.family])
        rintro ⟨m', hm', rfl, hutility⟩
        obtain rfl : m' = m := Except.ok.inj ((node_eq_ok hn hm').symm.trans hnode)
        exact hkind hutility
      · cases h
  | none =>
      dsimp only at h
      split at h
      next => cases h
      next hany =>
        cases h
        refine Error.refuses_of_family ?_ (by simp [Error.family])
        rintro ⟨m, hm, hkind⟩
        exact hany (List.any_eq_true.mpr ⟨m, hm, by simpa using hkind⟩)

end Network

end Influence
