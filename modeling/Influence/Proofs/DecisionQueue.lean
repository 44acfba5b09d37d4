import Influence.Proofs.Dependencies

/-! # The queue of the decisions

`Dependencies.place` takes the decisions from a queue.  A decision joins the queue when the last of
the decisions that it observes has been placed, and those that join together stand in the order of
their entries.  So the order that results is sorted by the time of joining (`readyAt`) and then by
entries, which is what `Precedes` says.

* `decisionOrder_pairwise`: an order that is returned is sorted in this way.
* `exists_decisionOrder`: an order is returned if the decisions do not observe one another in a
  circle. -/

namespace Influence.Dependencies

variable {m : Dependencies} {order ready placed rest vars vars' : List Variable} {d e : Variable}

/-- The number of decisions in an order up to the last one among some variables. -/
def readyAt (m : Dependencies) (order vars : List Variable) : ℕ :=
  ((vars.filter (Axes.mentions m.decisions)).map
    fun v => (Axes.ids order).idxOf v.id + 1).foldr max 0

/-- The first decision joins the queue before the second: its parents were placed earlier, or they
were placed at the same time and its entry comes first. -/
def Precedes (m : Dependencies) (order : List Variable) (d e : Variable) : Prop :=
  m.readyAt order (m.parents d) < m.readyAt order (m.parents e) ∨
    m.readyAt order (m.parents d) = m.readyAt order (m.parents e) ∧
      (Axes.ids m.decisions).idxOf d.id < (Axes.ids m.decisions).idxOf e.id

theorem foldr_max_le_iff {l : List ℕ} {k : ℕ} : l.foldr max 0 ≤ k ↔ ∀ i ∈ l, i ≤ k := by
  induction l with
  | nil => simp
  | cons i l ih => rw [List.foldr_cons, max_le_iff, ih, List.forall_mem_cons]

theorem readyAt_le_iff {k : ℕ} : m.readyAt order vars ≤ k ↔
    ∀ v ∈ vars, v.id ∈ Axes.ids m.decisions → (Axes.ids order).idxOf v.id < k := by
  rw [readyAt, foldr_max_le_iff, List.forall_mem_map]
  simp only [List.mem_filter, Axes.mentions_iff, and_imp, Nat.succ_le_iff]

/-- Some variables are ready no later than others if each decision among them comes no later than
one among the others. -/
theorem readyAt_le_readyAt_iff : m.readyAt order vars ≤ m.readyAt order vars' ↔
    ∀ v ∈ vars, v.id ∈ Axes.ids m.decisions → ∃ u ∈ vars', u.id ∈ Axes.ids m.decisions ∧
      (Axes.ids order).idxOf v.id ≤ (Axes.ids order).idxOf u.id := by
  rw [readyAt_le_iff]
  refine forall₃_congr fun v _ _ => ?_
  rw [← Nat.not_le, readyAt_le_iff]
  simp only [not_forall, not_lt, exists_prop]

theorem readyAt_le_length (h : m.allPlaced placed vars) :
    m.readyAt placed vars ≤ placed.length := by
  refine readyAt_le_iff.mpr fun v hv hid => ?_
  rw [← Axes.length_ids]
  exact List.idxOf_lt_length_iff.mpr (allPlaced_iff.mp h v hv hid)

theorem readyAt_append (h : m.allPlaced placed vars) :
    m.readyAt (placed ++ rest) vars = m.readyAt placed vars := by
  unfold readyAt
  refine congrArg (List.foldr max 0) (List.map_congr_left fun v hv => ?_)
  obtain ⟨hv, hid⟩ := List.mem_filter.mp hv
  rw [Axes.ids_append, List.idxOf_append_of_mem (allPlaced_iff.mp h v hv (Axes.mentions_iff.mp hid))]

theorem idxOf_ids_getElem (hdistinct : (Axes.ids order).Nodup) {k : ℕ} (hk : k < order.length) :
    (Axes.ids order).idxOf order[k].id = k := by
  have hlt : k < (Axes.ids order).length := by rwa [Axes.length_ids]
  have hget : order[k].id = (Axes.ids order)[k] := by simp [Axes.ids]
  rw [hget, hdistinct.idxOf_getElem]

/-- In a sorted list the relation tells which of two members comes first. -/
theorem idxOf_ids_lt_iff {R : Variable → Variable → Prop} (hdistinct : (Axes.ids order).Nodup)
    (hsorted : order.Pairwise R) (hasymm : ∀ d e, R d e → ¬R e d) (hd : d ∈ order)
    (he : e ∈ order) : (Axes.ids order).idxOf d.id < (Axes.ids order).idxOf e.id ↔ R d e := by
  obtain ⟨i, hi, rfl⟩ := List.getElem_of_mem hd
  obtain ⟨j, hj, rfl⟩ := List.getElem_of_mem he
  rw [idxOf_ids_getElem hdistinct hi, idxOf_ids_getElem hdistinct hj]
  have hpairs := List.pairwise_iff_getElem.mp hsorted
  refine ⟨hpairs i j hi hj, fun hR => ?_⟩
  rcases Nat.lt_trichotomy i j with hij | rfl | hji
  · exact hij
  · exact absurd hR (hasymm _ _ hR)
  · exact absurd hR (hasymm _ _ (hpairs j i hj hi hji))

theorem pairwise_idxOf_of_sublist (hdistinct : (Axes.ids m.decisions).Nodup)
    (h : order.Sublist m.decisions) :
    order.Pairwise fun d e =>
      (Axes.ids m.decisions).idxOf d.id < (Axes.ids m.decisions).idxOf e.id := by
  refine List.Pairwise.sublist h (List.pairwise_iff_getElem.mpr fun i j hi hj hij => ?_)
  rwa [idxOf_ids_getElem hdistinct hi, idxOf_ids_getElem hdistinct hj]

/-! ### The queue -/

/-- The state of a placement in which the decisions stand in the order of joining. -/
structure Queued (m : Dependencies) (ready placed : List Variable) : Prop
    extends Settled m ready placed where
  ascending : (placed ++ ready).Pairwise (m.Precedes placed)

theorem Settled.allPlaced_parents (h : Settled m ready placed)
    (hdistinct : (Axes.ids m.decisions).Nodup) (hd : d ∈ placed ++ ready) :
    m.allPlaced placed (m.parents d) := by
  obtain ⟨e, he, rfl⟩ := List.mem_map.mp (h.subset hd)
  rw [parents_of_mem hdistinct he]
  exact (h.settled e he).mp (Axes.mem_ids_of_mem hd)

theorem mem_released (hdistinct : (Axes.ids m.decisions).Nodup) (he : e ∈ m.released placed d) :
    e ∈ m.decisions ∧ d.id ∈ Axes.ids (m.parents e) ∧ m.allPlaced placed (m.parents e) := by
  obtain ⟨p, hp, rfl⟩ := List.mem_map.mp he
  obtain ⟨hp, htest⟩ := List.mem_filter.mp hp
  rw [Bool.and_eq_true, Axes.mentions_iff] at htest
  rw [parents_of_mem hdistinct hp]
  exact ⟨List.mem_map_of_mem hp, htest⟩

theorem queued_initial (hdistinct : (Axes.ids m.decisions).Nodup) : Queued m m.initial [] where
  toSettled := settled_initial hdistinct
  ascending := by
    have hsettled := settled_initial hdistinct
    refine (pairwise_idxOf_of_sublist hdistinct (filter_entries_sublist m _)).imp_of_mem
      fun {d e} hd he hlt => .inr ⟨?_, hlt⟩
    have hzero : ∀ d ∈ m.initial, m.readyAt [] (m.parents d) = 0 := fun d hd =>
      Nat.le_zero.mp (readyAt_le_length (hsettled.allPlaced_parents hdistinct hd))
    rw [hzero d hd, hzero e he]

/-- The decisions that the last placed one releases join together, after all others. -/
theorem queued_place (hdistinct : (Axes.ids m.decisions).Nodup) (h : Queued m (d :: ready) placed) :
    Queued m (ready ++ m.released (placed ++ [d]) d) (placed ++ [d]) := by
  have hsettled := settled_place hdistinct h.toSettled
  refine ⟨hsettled, ?_⟩
  have hd : d.id ∉ Axes.ids placed := fun hid => by
    have hnodup := h.nodup
    rw [Axes.ids_append, List.nodup_append] at hnodup
    exact hnodup.2.2 d.id hid d.id (by simp) rfl
  have hearlier : ∀ e ∈ placed ++ d :: ready,
      m.readyAt (placed ++ [d]) (m.parents e) = m.readyAt placed (m.parents e) ∧
        m.readyAt placed (m.parents e) ≤ placed.length := fun e he =>
    have hall := h.allPlaced_parents hdistinct he
    ⟨readyAt_append hall, readyAt_le_length hall⟩
  have hreleased : ∀ e ∈ m.released (placed ++ [d]) d,
      m.readyAt (placed ++ [d]) (m.parents e) = placed.length + 1 := by
    intro e he
    obtain ⟨-, hmem, hall⟩ := mem_released hdistinct he
    refine Nat.le_antisymm ((readyAt_le_length hall).trans_eq (by simp)) ?_
    -- `d` is the last decision that has been placed, and `e` observes it
    obtain ⟨v, hv, hid⟩ := Axes.mem_ids.mp hmem
    have hlt := readyAt_le_iff.mp (le_refl (m.readyAt (placed ++ [d]) (m.parents e))) v hv
      (hid ▸ Axes.mem_ids_of_mem (h.subset (by simp)))
    rw [hid, Axes.ids_append, List.idxOf_append_of_notMem hd, Axes.length_ids] at hlt
    simpa using hlt
  have hsplit : placed ++ [d] ++ (ready ++ m.released (placed ++ [d]) d) =
      (placed ++ d :: ready) ++ m.released (placed ++ [d]) d := by simp
  rw [hsplit, List.pairwise_append]
  refine ⟨?_, ?_, fun e he e' he' => .inl ?_⟩
  · refine h.ascending.imp_of_mem fun {e e'} he he' hprecedes => ?_
    rwa [Precedes, (hearlier e he).1, (hearlier e' he').1]
  · refine (pairwise_idxOf_of_sublist hdistinct (filter_entries_sublist m _)).imp_of_mem
      fun {e e'} he he' hlt => .inr ⟨?_, hlt⟩
    rw [hreleased e he, hreleased e' he']
  · rw [(hearlier e he).1, hreleased e' he']
    exact Nat.lt_succ_of_le (hearlier e he).2

/-- An order that is returned is sorted by the time at which the decisions were ready. -/
theorem decisionOrder_pairwise (hdistinct : (Axes.ids m.decisions).Nodup)
    (h : m.decisionOrder = .ok order) : order.Pairwise (m.Precedes order) := by
  obtain ⟨ready, hqueued, -⟩ :=
    exists_place (fun _ _ _ => queued_place hdistinct) m.size (queued_initial hdistinct)
  unfold decisionOrder at h
  dsimp only at h
  split at h
  next =>
    cases h
    exact (List.pairwise_append.mp hqueued.ascending).1
  next => cases h

/-- Of two decisions the one that precedes the other has the smaller place. -/
theorem idxOf_lt_iff_precedes (hdistinct : (Axes.ids m.decisions).Nodup)
    (h : m.decisionOrder = .ok order) (hd : d ∈ order) (he : e ∈ order) :
    (Axes.ids order).idxOf d.id < (Axes.ids order).idxOf e.id ↔ m.Precedes order d e := by
  obtain ⟨hperm, -⟩ := decisionOrder_sound hdistinct h
  have hnodup : (Axes.ids order).Nodup := (hperm.map Variable.id).nodup_iff.mpr hdistinct
  refine idxOf_ids_lt_iff hnodup (decisionOrder_pairwise hdistinct h) (fun d e hde hed => ?_) hd he
  unfold Precedes at hde hed
  omega

/-- The decisions can be ordered if those that each observes have smaller ranks. -/
theorem exists_decisionOrder (hdistinct : (Axes.ids m.decisions).Nodup) (rank : VariableId → ℕ)
    (hrank : ∀ d ∈ m.decisions, ∀ v ∈ m.parents d, rank v.id < rank d.id) :
    ∃ order, m.decisionOrder = .ok order := by
  obtain ⟨ready, hsettled, hend⟩ := place_settled hdistinct m.size (settled_initial hdistinct)
  refine ⟨m.place m.size m.initial [], if_pos ?_⟩
  rcases hend with rfl | hlength
  · -- no decision of least rank can be missing
    have hall : ∀ (k : ℕ), ∀ e ∈ m.entries, rank e.1.id < k →
        e.1.id ∈ Axes.ids (m.place m.size m.initial []) := by
      intro k
      induction k with
      | zero => exact fun e _ hk => absurd hk (Nat.not_lt_zero _)
      | succ k ih =>
          intro e he hk
          have hmem := (hsettled.settled e he).mpr (allPlaced_iff.mpr fun v hv hid => ?_)
          · rwa [List.append_nil] at hmem
          · obtain ⟨d, hd, hid⟩ := Axes.mem_ids.mp hid
            obtain ⟨e', he', rfl⟩ := List.mem_map.mp hd
            rw [← parents_of_mem hdistinct he] at hv
            have hlt := hrank e.1 (List.mem_map_of_mem he) v hv
            rw [← hid] at hlt ⊢
            exact ih e' he' (by omega)
    have hnodup := hsettled.nodup
    rw [List.append_nil] at hnodup
    have hsub : Axes.ids m.decisions ⊆ Axes.ids (m.place m.size m.initial []) := by
      intro id hid
      obtain ⟨d, hd, rfl⟩ := Axes.mem_ids.mp hid
      obtain ⟨e, he, rfl⟩ := List.mem_map.mp hd
      exact hall _ e he (Nat.lt_succ_self _)
    have hsub' : Axes.ids (m.place m.size m.initial []) ⊆ Axes.ids m.decisions :=
      List.map_subset _ fun d hd => hsettled.subset (by simpa using hd)
    have hperm := (List.perm_ext_iff_of_nodup hnodup hdistinct).mpr fun id =>
      ⟨@hsub' id, @hsub id⟩
    have := hperm.length_eq
    rwa [Axes.length_ids, Axes.length_ids, length_decisions] at this
  · simpa using hlength

end Influence.Dependencies
