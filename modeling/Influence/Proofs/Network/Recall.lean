import Influence.Proofs.Network.Maximization

/-! # Optimality under perfect recall

A network has recall if each decision observes the one before it and all that that one observed.
Then nothing is left in the reduced pool but the decision and what it observes, so no table is
passed over and each policy takes only best outcomes (`Step.takesBest`).

Replacing the rule of one decision by its policy does not lower the expected utility if the later
decisions follow theirs already (`Compiled.expected_le_of_takesBest`).  Replacing the rules from the
last decision to the first shows that no rules do better than the policies
(`Resolution.expected_le`). -/

namespace Influence.Network

open scoped Exact

/-- The second of two decisions observes the first one and all that it observes. -/
def Recalls {α : Type} (n : Network α) (d e : Variable) : Prop :=
  d ∈ n.dependencies.parents e ∧ n.dependencies.parents d ⊆ n.dependencies.parents e

instance {α : Type} (n : Network α) : DecidableRel n.Recalls := fun d e =>
  inferInstanceAs (Decidable (d ∈ n.dependencies.parents e ∧
    ∀ v ∈ n.dependencies.parents d, v ∈ n.dependencies.parents e))

/-- Each decision recalls the one before it. -/
def HasRecall {α : Type} (n : Network α) : Prop :=
  ∃ ds : List Variable, ds.Perm n.dependencies.decisions ∧ ds.IsChain n.Recalls

variable {n n' : Network ℚ} {s : Setting ℚ} {ps : List (Policy ℚ)} {rs : List (Resolved ℚ)}
  {w₀ w w₁ : Workspace ℚ} {d e : Variable} {earlier later : List Variable} {p : Policy ℚ}
  {laterPs : List (Policy ℚ)} {rule : Factor ℚ} {z : Assignment} {t : Table ℚ}
  {before rules : List (Table ℚ)}

theorem Recalls.trans {c : Variable} (hcd : n.Recalls c d) (hde : n.Recalls d e) :
    n.Recalls c e :=
  ⟨hde.2 hcd.1, fun _ hv => hde.2 (hcd.2 hv)⟩

/-- A decision recalls all decisions before it in the order in which they are resolved. -/
theorem Compiled.recalls_of_mem (hn : n.Compiled) (hrecall : n.HasRecall) (h : n.setting = .ok s)
    (hsplit : s.decisionOrder = earlier ++ d :: later) (he : e ∈ earlier) : n.Recalls e d := by
  obtain ⟨ds, hds, hchain⟩ := hrecall
  obtain ⟨hperm, hnodup⟩ := hn.decisionOrder h
  have : Trans n.Recalls n.Recalls n.Recalls := ⟨Recalls.trans⟩
  have hpairs : ds.Pairwise fun a b => a = b ∨ n.Recalls a b ∨ n.Recalls b a :=
    hchain.pairwise.imp fun hab => .inr (.inl hab)
  have hmem : ∀ v ∈ s.decisionOrder, v ∈ ds := fun v hv => hds.mem_iff.mpr (hperm.subset hv)
  rcases hpairs.forall_of_forall_of_flip (fun _ _ => .inl rfl)
    (hpairs.imp fun hab => hab.imp Eq.symm Or.symm) (hmem e (by simp [hsplit, he]))
    (hmem d (by simp [hsplit])) with rfl | hed | hde
  · rw [hsplit, Axes.ids_append, List.nodup_append] at hnodup
    exact absurd rfl (hnodup.2.2 e.id (Axes.mem_ids_of_mem he) e.id (by simp))
  · exact hed
  · -- the later decision would have to come first
    obtain ⟨front, back, rfl⟩ := List.append_of_mem he
    have hsplit' : s.decisionOrder = front ++ e :: (back ++ d :: later) := by
      rw [hsplit]
      simp
    exact absurd (Axes.mem_ids_of_mem hde.1)
      (hn.later_notMem_parents h hsplit' (Axes.mem_ids_of_mem (by simp)))

/-! ### The policies take only best outcomes -/

/-- With recall nothing but a decision and what it observes is left when it gets its rule. -/
theorem Step.observed_reduced (hn : n.Compiled) (hrecall : n.HasRecall)
    (h : n.Resolution s ps rs w₀) (hsplit : s.decisionOrder = earlier ++ d :: later)
    (hstep : n.Step s d later p laterPs w₀ w w₁ rule) {id : VariableId}
    (hid : id ∈ (Tables.axes w₁.tables).ids) :
    id ∈ Axes.ids (n.dependencies.parents d) ∨ id = d.id := by
  rw [hstep.isRuleFor.reaches.tables_eq] at hid
  obtain ⟨hid, hhidden⟩ :=
    ((Tables.weight_eliminateHidden (hstep.fits hn h) s [] [] true).2.1 id).mp hid
  rw [(hstep.perm_hidden hn h hsplit).mem_iff, Compiled.mem_ids_unseen, not_or] at hhidden
  obtain ⟨m, hm, hkind, rfl⟩ := hstep.exists_node hn h hsplit hid
  cases hm' : m.kind with
  | chance => exact .inl (by_contra fun hfree => hhidden.1 ⟨m, hm, hm', rfl, hfree⟩)
  | utility => exact absurd hm' hkind
  | decision =>
      have hmem : m.handle ∈ s.decisionOrder :=
        (hn.decisionOrder h.setting).1.mem_iff.mpr (hn.mem_decisions.mpr ⟨m, hm, hm', rfl⟩)
      rw [hsplit, List.mem_append, List.mem_cons] at hmem
      rcases hmem with hearlier | heq | hlater
      · exact .inl (Axes.mem_ids_of_mem
          (hn.recalls_of_mem hrecall h.setting hsplit hearlier).1)
      · exact .inr (congrArg (·.id) heq)
      · exact absurd (Axes.mem_ids_of_mem hlater) hhidden.2

theorem isPassedOver_eq_false {parents : List Variable} (hnodup : t.axes.ids.Nodup)
    (h : ∀ id ∈ t.axes.ids, id ∈ Axes.ids parents ∨ id = d.id) :
    Tables.isPassedOver d parents t = false := by
  unfold Tables.isPassedOver
  by_cases hmentions : t.mentions d
  case neg => simp [hmentions]
  case pos =>
    by_cases hany : t.axes.any (Axes.mentions parents)
    · simp [Tables.bearsOn, hmentions, hany]
    · -- the decision is the only axis
      have hids : ∀ id ∈ t.axes.ids, id = d.id := fun id hid => (h id hid).resolve_left fun hp => by
        obtain ⟨v, hv, rfl⟩ := Axes.mem_ids.mp hid
        exact hany (List.any_eq_true.mpr ⟨v, hv, Axes.mentions_iff.mpr hp⟩)
      have hone : t.axes.ids = [d.id] := List.perm_singleton.mp <|
        (List.perm_ext_iff_of_nodup hnodup (List.nodup_singleton _)).mpr fun id => by
          rw [List.mem_singleton]
          exact ⟨hids id, fun heq => heq ▸ Table.mentions_iff.mp hmentions⟩
      have hlength : t.axes.length = 1 := by
        rw [← List.length_map (f := (·.id)), ← Axes.ids, hone]
        rfl
      simp [Tables.bearsOn, hmentions, hlength]

/-- **Policies take only best outcomes** in a network with recall. -/
theorem Step.takesBest (hn : n.Compiled) (hchance : n.IsStochastic) (hrecall : n.HasRecall)
    (h : n.Resolution s ps rs w₀) (hsplit : s.decisionOrder = earlier ++ d :: later)
    (hstep : n.Step s d later p laterPs w₀ w w₁ rule) (hz : z.Valid n.sizes) :
    TakesBest d (n.value d later (laterPs.map n.ruleTable)) (n.ruleTable p).valueAt z := by
  refine (hstep.takesBest_iff hn hchance h hsplit hz).mpr (.inl ?_)
  have hfits₁ : ∀ t ∈ w₁.tables, t.Fits n.sizes := by
    rw [hstep.isRuleFor.reaches.tables_eq]
    exact (Tables.weight_eliminateHidden (hstep.fits hn h) s [] [] true).1
  have hnone : w₁.tables.filter (Tables.isPassedOver d (n.dependencies.parents d)) = [] := by
    refine List.filter_eq_nil_iff.mpr fun t ht => ?_
    rw [isPassedOver_eq_false (hfits₁ t ht).wellFormed.nodup fun id hid =>
      hstep.observed_reduced hn hrecall h hsplit (Tables.mem_ids_axes.mpr ⟨t, ht, hid⟩)]
    exact Bool.false_ne_true
  rw [hnone]
  exact fun _ _ _ _ => rfl

/-! ### Replacing rules by policies -/

/-- Everything but a decision and what is summed out for it. -/
def seen (n : Network ℚ) (d : Variable) (later : List Variable) : Axes :=
  n.states.filter fun v => !Axes.mentions (d :: n.unseen d later) v

theorem Compiled.notMem_unseen (hn : n.Compiled) (h : n.setting = .ok s)
    (hsplit : s.decisionOrder = earlier ++ d :: later) {id : VariableId}
    (hid : id ∈ Axes.ids (n.dependencies.parents d) ∨ id = d.id) : id ∉ (n.unseen d later).ids := by
  intro hunseen
  rcases Compiled.mem_ids_unseen.mp hunseen with ⟨m, hm, hkind, rfl, hfree⟩ | hlater
  · obtain ⟨m', hm', hkind', rfl⟩ := hn.exists_decision h (v := d) (by simp [hsplit])
    rw [hn.eq_of_id hm hm' (hid.resolve_left hfree), hkind'] at hkind
    cases hkind
  · rcases hid with hid | rfl
    · exact hn.later_notMem_parents h hsplit hlater hid
    · have hnodup := (hn.decisionOrder h).2
      rw [hsplit, Axes.ids_append, List.nodup_append] at hnodup
      exact (Axes.nodup_ids_cons.mp hnodup.2.1).1 hlater

theorem Compiled.notMem_parents_self (hn : n.Compiled) (hd : d ∈ n.dependencies.decisions) :
    d.id ∉ Axes.ids (n.dependencies.parents d) := by
  intro hid
  obtain ⟨v, hv, heq⟩ := Axes.mem_ids.mp hid
  have := hn.rank_lt_decision hd hv
  rw [heq] at this
  exact lt_irrefl _ this

/-- The expected utility, with the sum over a decision and what it does not see inside. -/
theorem Compiled.expected_split (hn : n.Compiled) (h : n.setting = .ok s)
    (hsplit : s.decisionOrder = earlier ++ d :: later)
    (hbefore : ∀ r ∈ before, ∀ id ∈ r.axes.ids, id ∈ Axes.ids (n.dependencies.parents d))
    (ht : n.IsRule d t) :
    n.expected (before ++ t :: rules) = Axes.sumOver (n.seen d later) (fun x =>
      Tables.weight before x * ∑ k ∈ Finset.range d.arity,
        t.valueAt (x.set d k) * n.value d later rules (x.set d k)) fun _ => 0 := by
  obtain ⟨hperm, -⟩ := hn.decisionOrder h
  have hd : d ∈ n.dependencies.decisions := hperm.subset (by simp [hsplit])
  have hinner : Axes.Sized n.sizes (d :: n.unseen d later) :=
    Axes.sized_cons.mpr ⟨hn.sized_decisions d hd, hn.sized_unseen h hsplit⟩
  have hsized : (n.seen d later).Sized n.sizes :=
    hn.sized_states.subset List.filter_sublist.subset
  have hids : n.states.ids.Perm (n.seen d later ++ d :: n.unseen d later : Axes).ids := by
    refine Axes.perm_ids_filter_append hn.nodup_states ?_ fun id hid => ?_
    · exact Axes.nodup_ids_cons.mpr
        ⟨hn.notMem_unseen h hsplit (.inr rfl), hn.nodup_unseen h hsplit⟩
    · rw [Axes.ids_cons, List.mem_cons] at hid
      rcases hid with rfl | hid
      · exact Axes.mem_ids_of_mem (hn.decision_mem_states hd)
      · rcases Compiled.mem_ids_unseen.mp hid with ⟨m, hm, hkind, rfl, -⟩ | hlater
        · exact Axes.mem_ids_of_mem (mem_states.mpr ⟨m, hm, by simp [hkind], rfl⟩)
        · obtain ⟨v, hv, rfl⟩ := Axes.mem_ids.mp hlater
          exact Axes.mem_ids_of_mem
            (hn.decision_mem_states (hperm.subset (by simp [hsplit, hv])))
  have hignores : Ignores (fun x => Tables.weight before x * t.valueAt x) (n.unseen d later) := by
    refine Ignores.mul (Tables.ignores_weight fun r hr v hv hid => ?_)
      (Table.ignores_valueAt fun v hv hid => ?_)
    · exact hn.notMem_unseen h hsplit (.inl (hbefore r hr _ hid)) (Axes.mem_ids_of_mem hv)
    · exact hn.notMem_unseen h hsplit (ht.observed _ hid) (Axes.mem_ids_of_mem hv)
  have hself : Ignores (Tables.weight before) [d] := by
    refine Tables.ignores_weight fun r hr v hv hid => ?_
    rw [List.mem_singleton.mp hv] at hid
    exact hn.notMem_parents_self hd (hbefore r hr _ hid)
  have hterm : (fun x => n.chance x * Tables.weight (before ++ t :: rules) x * n.utility x) =
      fun x => Tables.weight before x * t.valueAt x *
        (n.chance x * Tables.weight rules x * n.utility x) := by
    funext x
    rw [Tables.weight_append, Tables.weight_cons]
    ring
  rw [expected, Axes.sumOver_perm_ids hn.sized_states (fun v hv => (List.mem_append.mp hv).elim
    (hsized v) (hinner v)) hids hn.nodup_states, hterm, Axes.sumOver_append]
  refine congrArg (Axes.sumOver _ · _) (funext fun x => ?_)
  rw [Axes.sumOver_cons, Finset.mul_sum]
  refine Finset.sum_congr rfl fun k _ => ?_
  rw [Axes.sumOver_mul_left hignores, hself.set, mul_assoc]
  rfl

/-- A rule that takes only best outcomes is no worse than any other one. -/
theorem Compiled.expected_le_of_takesBest (hn : n.Compiled) (hrecall : n.HasRecall)
    (h : n.setting = .ok s) (hsplit : s.decisionOrder = earlier ++ d :: later) {best : Table ℚ}
    (hbefore : List.Forall₂ n.IsRule earlier before) (ht : n.IsRule d t) (hbest : n.IsRule d best)
    (htakes : ∀ z : Assignment, z.Valid n.sizes →
      TakesBest d (n.value d later rules) best.valueAt z) :
    n.expected (before ++ t :: rules) ≤ n.expected (before ++ best :: rules) := by
  have hsize : d.arity = n.sizes d.id :=
    hn.sized_decisions d ((hn.decisionOrder h).1.subset (by simp [hsplit]))
  have hobserved : ∀ r ∈ before, ∀ id ∈ r.axes.ids,
      id ∈ Axes.ids (n.dependencies.parents d) := by
    intro r hr id hid
    obtain ⟨e, he, hrule⟩ := exists_left_of_mem hbefore hr
    have hrecalls := hn.recalls_of_mem hrecall h hsplit he
    rcases hrule.observed id hid with hid | rfl
    · exact List.map_subset _ hrecalls.2 hid
    · exact Axes.mem_ids_of_mem hrecalls.1
  rw [hn.expected_split h hsplit hobserved ht, hn.expected_split h hsplit hobserved hbest]
  refine Axes.sumOver_le (hn.sized_states.subset List.filter_sublist.subset) hn.valid_zero
    fun x hx _ => mul_le_mul_of_nonneg_left ?_ ?_
  · exact (htakes x hx).sum_le hbest.conditional ht.conditional hsize hx
  · refine Tables.weight_nonneg fun r hr => ?_
    obtain ⟨e, -, hrule⟩ := exists_left_of_mem hbefore hr
    exact hrule.conditional.nonneg x hx

/-- **No rules do better than the policies** in a network with recall. -/
theorem Resolution.expected_le (hn : n.Compiled) (hchance : n.IsStochastic)
    (hrecall : n.HasRecall) (h : n.Resolution s ps rs w₀) {others : List (Table ℚ)}
    (hothers : List.Forall₂ n.IsRule s.decisionOrder others) :
    n.expected others ≤ n.expected (ps.map n.ruleTable) := by
  have hsuffix : ∀ (later earlier : List Variable) (earlierPs laterPs : List (Policy ℚ))
      (before after : List (Table ℚ)), s.decisionOrder = earlier ++ later →
      ps = earlierPs ++ laterPs → earlierPs.length = earlier.length →
      List.Forall₂ n.IsRule earlier before → List.Forall₂ n.IsRule later after →
      n.expected (before ++ after) ≤ n.expected (before ++ laterPs.map n.ruleTable) := by
    intro later
    induction later with
    | nil =>
        intro earlier earlierPs laterPs before after hsplit hps hlength hbefore hafter
        cases hafter
        have hnone : laterPs = [] := by
          have htotal := (h.isRule hn).length_eq
          rw [List.length_map, hsplit, hps] at htotal
          simp only [List.length_append, List.length_nil] at htotal
          exact List.length_eq_zero_iff.mp (by omega)
        rw [hnone, List.map_nil]
    | cons d later ih =>
        intro earlier earlierPs laterPs before after hsplit hps hlength hbefore hafter
        obtain ⟨t, rest, ht, hrest, rfl⟩ := List.forall₂_cons_left_iff.mp hafter
        obtain ⟨earlierPs', p, laterPs', w, w₁, rule, hps', hlength', hstep⟩ :=
          h.exists_step hn hsplit
        obtain ⟨rfl, rfl⟩ := List.append_inj (hps.symm.trans hps') (hlength.trans hlength'.symm)
        calc n.expected (before ++ t :: rest)
            = n.expected ((before ++ [t]) ++ rest) := by rw [List.append_cons]
          _ ≤ n.expected ((before ++ [t]) ++ laterPs'.map n.ruleTable) :=
              ih (earlier ++ [d]) (earlierPs ++ [p]) laterPs' (before ++ [t]) rest
                (by simp [hsplit]) (by simp [hps]) (by simp [hlength])
                (List.rel_append hbefore (.cons ht .nil)) hrest
          _ = n.expected (before ++ t :: laterPs'.map n.ruleTable) := by rw [← List.append_cons]
          _ ≤ n.expected (before ++ (p :: laterPs').map n.ruleTable) :=
              hn.expected_le_of_takesBest hrecall h.setting hsplit hbefore ht hstep.isRule
                fun z hz => hstep.takesBest hn hchance hrecall h hsplit hz
  exact hsuffix s.decisionOrder [] [] ps [] others rfl rfl rfl .nil hothers

end Influence.Network
