import Mathlib
import Influence.Precedence

/-! # The order respects precedence

`Settled` is the invariant of the search: the counters count the parents that are still to be
placed, and the nodes that are placed or ready are exactly those whose parents have all been placed.

`order_sound`: an order that is returned lists every node once, each after its parents.
`exists_order`: a graph without a cycle has an order, since a search with nothing ready has placed
every node that does not lie on a cycle or behind one. -/

namespace Influence.Precedence

variable {parents : List (List ℕ)} {p : Progress} {node : ℕ}

/-- The state of a search that has gone right so far. -/
structure Settled (parents : List (List ℕ)) (p : Progress) : Prop where
  length : p.pending.length = parents.length
  /-- A node waits for the parents that have not been placed. -/
  pending : ∀ i < parents.length,
    p.pending.getD i 0 = (parents.getD i []).countP fun q => decide (q ∉ p.placed)
  nodup : (p.placed ++ p.ready).Nodup
  lt : ∀ i ∈ p.placed ++ p.ready, i < parents.length
  /-- The nodes that wait for nothing are placed or ready. -/
  settled : ∀ i < parents.length,
    i ∈ p.placed ++ p.ready ↔ ∀ q ∈ parents.getD i [], q ∈ p.placed
  respects : Respects parents p.placed

theorem mem_positions {β : Type} {l : List β} {test : β × ℕ → Bool} {i : ℕ} :
    i ∈ (l.zipIdx.filter test).map (·.2) ↔ ∃ a, l[i]? = some a ∧ test (a, i) := by
  simp [List.mem_zipIdx_iff_getElem?]

theorem nodup_positions {β : Type} (l : List β) (test : β × ℕ → Bool) :
    ((l.zipIdx.filter test).map (·.2)).Nodup := by
  refine List.Nodup.sublist (List.filter_sublist.map _) ?_
  rw [List.zipIdx_map_snd]
  exact List.nodup_range'

theorem settled_start (parents : List (List ℕ)) : Settled parents (start parents) := by
  have hmem : ∀ i, i ∈ (start parents).ready ↔ i < parents.length ∧ parents.getD i [] = [] := by
    intro i
    refine mem_positions.trans ?_
    constructor
    · rintro ⟨l, hl, hempty⟩
      obtain ⟨hi, -⟩ := List.getElem?_eq_some_iff.mp hl
      exact ⟨hi, by simpa [List.getD_eq_getElem?_getD, hl] using hempty⟩
    · rintro ⟨hi, hempty⟩
      refine ⟨parents[i], List.getElem?_eq_getElem hi, ?_⟩
      rw [List.getD_eq_getElem _ _ hi] at hempty
      simp [hempty]
  constructor
  case length => simp [start]
  case pending =>
    intro i hi
    simp [start, List.getD_eq_getElem?_getD, hi]
  case nodup => exact nodup_positions parents _
  case lt => exact fun i hi => ((hmem i).mp hi).1
  case settled =>
    intro i hi
    refine (hmem i).trans ?_
    simp [hi, start, List.eq_nil_iff_forall_not_mem]
  case respects => exact fun i q _ hi => absurd hi (List.not_mem_nil)

theorem mem_unlocked {pending : List ℕ} (hlength : pending.length = parents.length) {i : ℕ} :
    i ∈ unlocked parents node pending ↔
      i < parents.length ∧ pending.getD i 0 = 0 ∧ node ∈ parents.getD i [] := by
  refine mem_positions.trans ?_
  constructor
  · rintro ⟨⟨l, n⟩, hl, htest⟩
    obtain ⟨hl, hn⟩ := List.getElem?_zip_eq_some.mp hl
    obtain ⟨hi, -⟩ := List.getElem?_eq_some_iff.mp hl
    simp only [Bool.and_eq_true, beq_iff_eq, List.contains_eq_mem, decide_eq_true_eq] at htest
    exact ⟨hi, by simpa [List.getD_eq_getElem?_getD, hl, hn] using htest⟩
  · rintro ⟨hi, hpending, hnode⟩
    have hi' : i < pending.length := hlength ▸ hi
    refine ⟨(parents[i], pending[i]), ?_, ?_⟩
    · exact List.getElem?_zip_eq_some.mpr ⟨List.getElem?_eq_getElem hi, List.getElem?_eq_getElem _⟩
    · rw [List.getD_eq_getElem _ _ (by omega)] at hpending
      rw [List.getD_eq_getElem _ _ hi] at hnode
      simp [hpending, hnode]

theorem countP_notMem_append {placed : List ℕ} (h : node ∉ placed) (l : List ℕ) :
    l.countP (fun q => decide (q ∉ placed ++ [node])) + l.count node =
      l.countP fun q => decide (q ∉ placed) := by
  induction l with
  | nil => rfl
  | cons q l ih =>
      rw [List.countP_cons, List.countP_cons, List.count_cons, ← ih]
      by_cases hq : q = node
      · subst hq
        simp [h]
        omega
      · simp [hq]
        omega

/-- Striking a node leaves the counters right. -/
theorem pending_strike (h : Settled parents p) (hnode : node ∉ p.placed) {i : ℕ}
    (hi : i < parents.length) :
    (strike parents node p.pending).getD i 0 =
      (parents.getD i []).countP fun q => decide (q ∉ p.placed ++ [node]) := by
  have hcount := countP_notMem_append hnode (parents.getD i [])
  rw [← h.pending i hi] at hcount
  have hlength := h.length
  have hstrike : (strike parents node p.pending).getD i 0 =
      p.pending.getD i 0 - (parents.getD i []).count node := by
    simp [strike, List.getD_eq_getElem?_getD, hi, hlength]
  omega

theorem advance_of_ready_cons {rest : List ℕ} (h : p.ready = node :: rest) :
    advance parents p = ⟨strike parents node p.pending,
      rest ++ unlocked parents node (strike parents node p.pending), p.placed ++ [node]⟩ := by
  simp [advance, h]

theorem settled_advance (h : Settled parents p) : Settled parents (advance parents p) := by
  cases hready : p.ready with
  | nil => rwa [advance_of_ready_nil hready]
  | cons node rest =>
      have hnodup := h.nodup
      have hlt := h.lt
      have hsettled := h.settled
      rw [hready] at hnodup hlt hsettled
      have hnode : node ∉ p.placed := fun hmem =>
        (List.nodup_append.mp hnodup).2.2 node hmem node (by simp) rfl
      have hlength : (strike parents node p.pending).length = parents.length := by
        simp [strike, h.length]
      have hzero : ∀ i < parents.length, (strike parents node p.pending).getD i 0 = 0 ↔
          ∀ q ∈ parents.getD i [], q ∈ p.placed ++ [node] := by
        intro i hi
        rw [pending_strike h hnode hi, List.countP_eq_zero]
        simp only [decide_eq_true_eq, not_not]
      have hunlocked : ∀ i, i ∈ unlocked parents node (strike parents node p.pending) ↔
          i < parents.length ∧ (∀ q ∈ parents.getD i [], q ∈ p.placed ++ [node]) ∧
            node ∈ parents.getD i [] := by
        intro i
        rw [mem_unlocked hlength]
        exact and_congr_right fun hi => and_congr_left fun _ => hzero i hi
      have hperm : ((p.placed ++ [node]) ++
          (rest ++ unlocked parents node (strike parents node p.pending))).Perm
          ((p.placed ++ node :: rest) ++
            unlocked parents node (strike parents node p.pending)) := by
        simp
      rw [advance_of_ready_cons hready]
      constructor
      case length => exact hlength
      case pending => exact fun i hi => pending_strike h hnode hi
      case nodup =>
        refine hperm.nodup_iff.mpr (List.nodup_append.mpr
          ⟨hnodup, nodup_positions _ _, fun i hi j hj => ?_⟩)
        rintro rfl
        obtain ⟨hi', -, hmem⟩ := (hunlocked i).mp hj
        exact hnode ((hsettled i hi').mp hi node hmem)
      case lt =>
        intro i hi
        rcases List.mem_append.mp (hperm.mem_iff.mp hi) with hi | hi
        · exact hlt i hi
        · exact ((hunlocked i).mp hi).1
      case settled =>
        intro i hi
        refine hperm.mem_iff.trans ?_
        rw [List.mem_append, hsettled i hi, hunlocked]
        constructor
        · rintro (hall | ⟨-, hall, -⟩)
          · exact fun q hq => List.mem_append_left _ (hall q hq)
          · exact hall
        · intro hall
          by_cases hmem : node ∈ parents.getD i []
          · exact .inr ⟨hi, hall, hmem⟩
          · refine .inl fun q hq => (List.mem_append.mp (hall q hq)).resolve_right fun hq' => ?_
            rw [List.mem_singleton.mp hq'] at hq
            exact hmem hq
      case respects =>
        intro i q hq hi
        have hplaced : q ∈ p.placed := by
          rcases List.mem_append.mp hi with hi | hi
          · exact List.idxOf_lt_length_iff.mp
              (Nat.lt_trans (h.respects i q hq hi) (List.idxOf_lt_length_iff.mpr hi))
          · rw [List.mem_singleton.mp hi] at hq
            exact (hsettled node (hlt node (by simp))).mp (by simp) q hq
        change (p.placed ++ [node]).idxOf q < (p.placed ++ [node]).idxOf i
        rw [List.idxOf_append_of_mem hplaced]
        rcases List.mem_append.mp hi with hi | hi
        · rw [List.idxOf_append_of_mem hi]
          exact h.respects i q hq hi
        · rw [List.mem_singleton.mp hi, List.idxOf_append_of_notMem hnode]
          exact Nat.lt_of_lt_of_le (List.idxOf_lt_length_iff.mpr hplaced) (Nat.le_add_right _ _)

theorem settled_advanceBy (n : ℕ) (h : Settled parents p) :
    Settled parents (advanceBy parents n p) := by
  induction n generalizing p with
  | zero => exact h
  | succ n ih => exact ih (settled_advance h)

/-- An order that is returned lists every node once, each after its parents. -/
theorem order_sound {nodes : List ℕ} (h : order parents = .ok nodes) :
    nodes.Perm (List.range parents.length) ∧ Respects parents nodes := by
  have hsettled := settled_advanceBy parents.length (settled_start parents)
  unfold order at h
  split at h
  next => cases h
  next =>
    dsimp only at h
    split at h
    next hlength =>
      cases h
      have hnodup := (List.nodup_append.mp hsettled.nodup).1
      have hsub : List.Subperm _ (List.range parents.length) := hnodup.subperm fun i hi =>
        List.mem_range.mpr (hsettled.lt i (List.mem_append_left _ hi))
      exact ⟨hsub.perm_of_length_le (by simp [hlength]), hsettled.respects⟩
    next => cases h

/-! ### Graphs that have an order -/

/-- Node `p` is listed among the parents of node `i`. -/
def IsParent (parents : List (List ℕ)) (p i : ℕ) : Prop := p ∈ parents.getD i []

theorem advanceBy_of_ready_nil (h : p.ready = []) (n : ℕ) : advanceBy parents n p = p := by
  induction n with
  | zero => rfl
  | succ n ih => rw [advanceBy_succ, advance_of_ready_nil h, ih]

/-- A search goes on as long as a node is ready. -/
theorem length_placed_advanceBy (n : ℕ) (p : Progress) :
    (advanceBy parents n p).placed.length = p.placed.length + n ∨
      (advanceBy parents n p).ready = [] := by
  induction n generalizing p with
  | zero => exact .inl rfl
  | succ n ih =>
      cases hready : p.ready with
      | nil =>
          rw [advanceBy_of_ready_nil hready]
          exact .inr hready
      | cons node rest =>
          have hlength : (advance parents p).placed.length = p.placed.length + 1 := by
            simp [advance_of_ready_cons hready]
          rw [advanceBy_succ]
          rcases ih (advance parents p) with h | h
          · left
            omega
          · exact .inr h

/-- A search with nothing ready has placed every node, unless some of them lie on a cycle. -/
theorem Settled.mem_placed (h : Settled parents p) (hready : p.ready = [])
    (hrange : ∀ i q, IsParent parents q i → q < parents.length)
    (hacyclic : ∀ i, ¬Relation.TransGen (IsParent parents) i i) {i : ℕ} (hi : i < parents.length) :
    i ∈ p.placed := by
  by_contra hmem
  let before (a b : Fin parents.length) : Prop := Relation.TransGen (IsParent parents) a b
  have htrans : IsTrans _ before := ⟨fun _ _ _ => Relation.TransGen.trans⟩
  have hirrefl : Std.Irrefl before := ⟨fun a => hacyclic a⟩
  have hwf : WellFounded before := Finite.wellFounded_of_trans_of_irrefl before
  obtain ⟨j, hj, hmin⟩ := hwf.has_min {j | j.1 ∉ p.placed} ⟨⟨i, hi⟩, hmem⟩
  -- the first node that is not placed waits for a parent that is not placed either
  have hwaits : ¬∀ q ∈ parents.getD j [], q ∈ p.placed := by
    rw [← h.settled j j.2, hready, List.append_nil]
    exact hj
  push Not at hwaits
  obtain ⟨q, hq, hplaced⟩ := hwaits
  exact hmin ⟨q, hrange j q hq⟩ hplaced (.single hq)

theorem outOfRange?_eq_none_iff :
    outOfRange? parents = none ↔ ∀ i q, IsParent parents q i → q < parents.length := by
  unfold outOfRange?
  simp only [List.find?_eq_none, decide_eq_true_eq, not_le]
  constructor
  · intro h i q hq
    rw [IsParent, List.getD_eq_getElem?_getD] at hq
    cases hi : parents[i]? with
    | none => simp [hi] at hq
    | some l => exact h q (List.mem_flatten.mpr ⟨l, List.mem_of_getElem? hi, by simpa [hi] using hq⟩)
  · intro h q hq
    obtain ⟨l, hl, hq⟩ := List.mem_flatten.mp hq
    obtain ⟨i, hi, rfl⟩ := List.getElem_of_mem hl
    exact h i q (by rwa [IsParent, List.getD_eq_getElem _ _ hi])

theorem exists_order (hrange : ∀ i q, IsParent parents q i → q < parents.length)
    (hacyclic : ∀ i, ¬Relation.TransGen (IsParent parents) i i) :
    ∃ nodes, order parents = .ok nodes := by
  have hnone := outOfRange?_eq_none_iff.mpr hrange
  have hsettled := settled_advanceBy parents.length (settled_start parents)
  refine ⟨(advanceBy parents parents.length (start parents)).placed, ?_⟩
  have hlength : (advanceBy parents parents.length (start parents)).placed.length =
      parents.length := by
    rcases length_placed_advanceBy parents.length (start parents) with h | hready
    · rw [h]
      exact Nat.zero_add _
    · have hnodup := (List.nodup_append.mp hsettled.nodup).1
      have hperm : List.Perm _ (List.range parents.length) :=
        (List.perm_ext_iff_of_nodup hnodup List.nodup_range).mpr fun i => by
          rw [List.mem_range]
          exact ⟨fun hi => hsettled.lt i (List.mem_append_left _ hi),
            hsettled.mem_placed hready hrange hacyclic⟩
      simpa using hperm.length_eq
  simp only [order, hnone, hlength, if_pos]

/-- A graph whose nodes can be listed with every parent before its children has no cycle. -/
theorem acyclic_of_idxOf_lt {β : Type} [DecidableEq β] {before : β → β → Prop} {nodes : List β}
    (h : ∀ a b, before a b → nodes.idxOf a < nodes.idxOf b) (a : β) :
    ¬Relation.TransGen before a a := by
  intro hcycle
  have hlt : Relation.TransGen (· < ·) (nodes.idxOf a) (nodes.idxOf a) := hcycle.lift nodes.idxOf h
  rw [Relation.transGen_eq_self] at hlt
  exact Nat.lt_irrefl _ hlt

end Influence.Precedence
