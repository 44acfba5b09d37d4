import Influence.Proofs.Axes
import Influence.Dependencies

/-! # The order of the decisions

`Settled` is the invariant of `Dependencies.place`: the decisions that are placed or ready are
exactly those whose observed decisions have all been placed.

`decisionOrder_sound`: an order that is returned lists every decision once, each after the decisions
that it observes. -/

namespace Influence.Dependencies

variable {m : Dependencies} {ready placed : List Variable} {d : Variable}

/-- Among some variables every decision is placed. -/
theorem allPlaced_iff {vars : List Variable} :
    m.allPlaced placed vars ↔
      ∀ v ∈ vars, v.id ∈ Axes.ids m.decisions → v.id ∈ Axes.ids placed := by
  simp only [allPlaced, List.all_eq_true, Bool.or_eq_true, Bool.not_eq_true',
    Axes.mentions_eq_false_iff, Axes.mentions_iff]
  exact forall₂_congr fun v _ => by rw [← Decidable.imp_iff_not_or]

theorem eq_of_mem_entries (hdistinct : (Axes.ids m.decisions).Nodup)
    {e e' : Variable × List Variable} (he : e ∈ m.entries) (he' : e' ∈ m.entries)
    (hid : e.1.id = e'.1.id) : e = e' := by
  have hnodup : (m.entries.map (·.1.id)).Nodup := by
    simpa [Axes.ids, decisions, Function.comp_def] using hdistinct
  exact List.inj_on_of_nodup_map hnodup he he' hid

theorem parents_of_mem (hdistinct : (Axes.ids m.decisions).Nodup)
    {e : Variable × List Variable} (he : e ∈ m.entries) : m.parents e.1 = e.2 := by
  unfold parents
  cases hfind : m.entries.find? (·.1.id == e.1.id) with
  | none => exact absurd (List.find?_eq_none.mp hfind e he) (by simp)
  | some e' =>
      have hid : e'.1.id = e.1.id := by simpa using List.find?_some hfind
      rw [eq_of_mem_entries hdistinct (List.mem_of_find?_eq_some hfind) he hid]
      rfl

/-- In a list without repetition, what stands before an element comes first. -/
theorem idxOf_lt_of_eq_append {β : Type} [DecidableEq β] {l before after : List β} {a b : β}
    (hnodup : l.Nodup) (hsplit : l = before ++ b :: after) (ha : a ∈ before) :
    l.idxOf a < l.idxOf b := by
  subst hsplit
  have hb : b ∉ before := fun hb => (List.nodup_append.mp hnodup).2.2 b hb b (by simp) rfl
  rw [List.idxOf_append_of_mem ha, List.idxOf_append_of_notMem hb]
  exact Nat.lt_of_lt_of_le (List.idxOf_lt_length_iff.mpr ha) (Nat.le_add_right _ _)

/-- New decisions get their entries at the end. -/
theorem entries_foldl_insert {β : Type} {key : β → Variable} {value : β → List Variable}
    {bs : List β} (h : (Axes.ids (m.decisions ++ bs.map key)).Nodup) :
    (bs.foldl (fun m b => m.insert (key b) (value b)) m).entries =
      m.entries ++ bs.map fun b => (key b, value b) := by
  induction bs generalizing m with
  | nil => simp
  | cons b bs ih =>
      have hnew : m.insert (key b) (value b) = ⟨m.entries ++ [(key b, value b)]⟩ := by
        refine if_neg fun hany => ?_
        obtain ⟨e, he, hid⟩ := List.any_eq_true.mp hany
        rw [Axes.ids_append, List.nodup_append] at h
        exact h.2.2 e.1.id (Axes.mem_ids_of_mem (List.mem_map_of_mem he)) (key b).id (by simp)
          (by simpa using hid)
      rw [List.foldl_cons, hnew, ih]
      · simp
      · simpa [decisions] using h

/-- The state of a placement that has gone right so far. -/
structure Settled (m : Dependencies) (ready placed : List Variable) : Prop where
  nodup : (Axes.ids (placed ++ ready)).Nodup
  subset : placed ++ ready ⊆ m.decisions
  settled : ∀ e ∈ m.entries,
    e.1.id ∈ Axes.ids (placed ++ ready) ↔ m.allPlaced placed e.2
  respects : ∀ (k : ℕ) (hk : k < placed.length), m.allPlaced (placed.take k) (m.parents placed[k])

theorem mem_ids_filter_entries (hdistinct : (Axes.ids m.decisions).Nodup)
    {test : Variable × List Variable → Bool} {e : Variable × List Variable} (he : e ∈ m.entries) :
    e.1.id ∈ Axes.ids ((m.entries.filter test).map (·.1)) ↔ test e := by
  rw [Axes.mem_ids]
  constructor
  · rintro ⟨v, hv, hid⟩
    obtain ⟨e', he', rfl⟩ := List.mem_map.mp hv
    obtain ⟨he', htest⟩ := List.mem_filter.mp he'
    rwa [eq_of_mem_entries hdistinct he he' hid.symm]
  · exact fun htest => ⟨e.1, List.mem_map_of_mem (List.mem_filter.mpr ⟨he, htest⟩), rfl⟩

theorem filter_entries_sublist (m : Dependencies) (test : Variable × List Variable → Bool) :
    ((m.entries.filter test).map (·.1)).Sublist m.decisions :=
  List.filter_sublist.map _

theorem settled_initial (hdistinct : (Axes.ids m.decisions).Nodup) : Settled m m.initial [] where
  nodup := hdistinct.sublist ((filter_entries_sublist m _).map _)
  subset := (filter_entries_sublist m _).subset
  settled := fun _ he => mem_ids_filter_entries hdistinct he
  respects := fun _ hk => absurd hk (Nat.not_lt_zero _)

theorem settled_place (hdistinct : (Axes.ids m.decisions).Nodup) (h : Settled m (d :: ready) placed) :
    Settled m (ready ++ m.released (placed ++ [d]) d) (placed ++ [d]) := by
  have hreleased : ∀ e ∈ m.entries, e.1.id ∈ Axes.ids (m.released (placed ++ [d]) d) ↔
      Axes.mentions e.2 d ∧ m.allPlaced (placed ++ [d]) e.2 := fun e he => by
    rw [released, mem_ids_filter_entries hdistinct he, Bool.and_eq_true]
  have hperm : (placed ++ [d] ++ (ready ++ m.released (placed ++ [d]) d)).Perm
      ((placed ++ d :: ready) ++ m.released (placed ++ [d]) d) := by simp
  constructor
  case nodup =>
    refine (hperm.map _).nodup_iff.mpr ?_
    rw [List.map_append, List.nodup_append]
    refine ⟨h.nodup, hdistinct.sublist ((filter_entries_sublist m _).map _), ?_⟩
    rintro id hid _ hid' rfl
    obtain ⟨v, hv, rfl⟩ := Axes.mem_ids.mp hid'
    obtain ⟨e, he, rfl⟩ := List.mem_map.mp ((filter_entries_sublist m _).subset hv)
    obtain ⟨hmentions, -⟩ := (hreleased e he).mp (Axes.mem_ids_of_mem hv)
    -- the decision was not placed before `d`, because it observes `d`
    have hall := allPlaced_iff.mp ((h.settled e he).mp hid)
    obtain ⟨u, hu, hud⟩ := Axes.mem_ids.mp (Axes.mentions_iff.mp hmentions)
    have hdplaced : d.id ∈ Axes.ids placed := by
      rw [← hud]
      refine hall u hu ?_
      rw [hud]
      exact Axes.mem_ids_of_mem (h.subset (by simp))
    have hnodup := h.nodup
    rw [Axes.ids_append, List.nodup_append] at hnodup
    exact hnodup.2.2 d.id hdplaced d.id (by simp) rfl
  case subset =>
    intro v hv
    rcases List.mem_append.mp (hperm.mem_iff.mp hv) with hv | hv
    · exact h.subset hv
    · exact (filter_entries_sublist m _).subset hv
  case settled =>
    intro e he
    refine (hperm.map (·.id)).mem_iff.trans ?_
    rw [List.map_append, List.mem_append]
    refine (or_congr (h.settled e he) (hreleased e he)).trans ?_
    constructor
    · rintro (hall | ⟨-, hall⟩)
      · rw [allPlaced_iff] at hall ⊢
        intro v hv hid
        simpa using Or.inl (hall v hv hid)
      · exact hall
    · intro hall
      by_cases hmentions : Axes.mentions e.2 d
      · exact .inr ⟨hmentions, hall⟩
      · refine .inl (allPlaced_iff.mpr fun v hv hid => ?_)
        have hplaced := allPlaced_iff.mp hall v hv hid
        rw [Axes.ids_append, List.mem_append] at hplaced
        refine hplaced.resolve_right fun hvd => hmentions (Axes.mentions_iff.mpr ?_)
        have hvd : v.id = d.id := by simpa using hvd
        rw [← hvd]
        exact Axes.mem_ids_of_mem hv
  case respects =>
    intro k hk
    rcases Nat.lt_or_ge k placed.length with hlt | hge
    · rw [List.take_append_of_le_length hlt.le, List.getElem_append_left hlt]
      exact h.respects k hlt
    · have hkeq : k = placed.length := by
        rw [List.length_append, List.length_singleton] at hk
        omega
      subst hkeq
      rw [List.take_left', List.getElem_append_right (Nat.le_refl _)]
      · simp only [Nat.sub_self, List.getElem_cons_zero]
        obtain ⟨e, he, rfl⟩ := List.mem_map.mp (h.subset (show d ∈ placed ++ d :: ready by simp))
        rw [parents_of_mem hdistinct he]
        exact (h.settled e he).mp (by simp)
      · rfl

/-- What taking one decision from the queue keeps, a placement keeps.  It ends with an empty queue, or
it has placed as many decisions as it was asked to. -/
theorem exists_place {P : List Variable → List Variable → Prop}
    (hstep : ∀ d ready placed, P (d :: ready) placed →
      P (ready ++ m.released (placed ++ [d]) d) (placed ++ [d]))
    (n : ℕ) (h : P ready placed) :
    ∃ ready', P ready' (m.place n ready placed) ∧
      (ready' = [] ∨ (m.place n ready placed).length = placed.length + n) := by
  induction n generalizing ready placed with
  | zero => exact ⟨ready, by simpa [place] using h, .inr (by simp [place])⟩
  | succ n ih =>
      cases ready with
      | nil => exact ⟨[], by simpa [place] using h, .inl rfl⟩
      | cons d ready =>
          obtain ⟨ready', hplaced, hend⟩ := ih (hstep d ready placed h)
          refine ⟨ready', hplaced, hend.imp_right fun hlength => hlength.trans ?_⟩
          rw [List.length_append, List.length_singleton]
          omega

theorem place_settled (hdistinct : (Axes.ids m.decisions).Nodup) (n : ℕ)
    (h : Settled m ready placed) :
    ∃ ready', Settled m ready' (m.place n ready placed) ∧
      (ready' = [] ∨ (m.place n ready placed).length = placed.length + n) :=
  exists_place (fun _ _ _ => settled_place hdistinct) n h

/-- An order that is returned lists every decision once, each after the decisions that it
observes. -/
theorem decisionOrder_sound (hdistinct : (Axes.ids m.decisions).Nodup) {order : List Variable}
    (h : m.decisionOrder = .ok order) :
    order.Perm m.decisions ∧ ∀ before d after, order = before ++ d :: after →
      ∀ v ∈ m.parents d, v.id ∈ Axes.ids m.decisions → v.id ∈ Axes.ids before := by
  obtain ⟨ready, hsettled, -⟩ := place_settled hdistinct m.size (settled_initial hdistinct)
  unfold decisionOrder at h
  dsimp only at h
  split at h
  next hlength =>
    cases h
    have hnodup : (m.place m.size m.initial []).Nodup := by
      have := Axes.nodup_of_ids hsettled.nodup
      exact (List.nodup_append.mp this).1
    have hsub : List.Subperm _ m.decisions := hnodup.subperm fun d hd =>
      hsettled.subset (List.mem_append_left _ hd)
    refine ⟨hsub.perm_of_length_le (by simp [hlength]), ?_⟩
    intro before d after hsplit v hv hid
    have hrespects := hsettled.respects before.length (by rw [hsplit]; simp)
    simp only [hsplit, List.take_left', List.getElem_append_right (Nat.le_refl _), Nat.sub_self,
      List.getElem_cons_zero] at hrespects
    exact allPlaced_iff.mp hrespects v hv hid
  next => cases h

end Influence.Dependencies
