import Influence.Proofs.Cycles
import Influence.Proofs.Network.Ancestors

/-! # The graph of the decisions

`Dependencies.decisionOrder` places decisions, and `Precedence.order` the nodes of any graph.  On the
graph in which every decision lists the positions of the decisions among its parents, both take the
same steps (`Dependencies.place_decisionsAt`), so that they return the same order or fail for the same
cause (`Dependencies.decisionOrder_eq_order`). -/

namespace Influence.Dependencies

variable {m : Dependencies} {d e v : Variable} {vars : List Variable}

/-! ### Insertions -/

/-- The dependencies that some insertions lead to. -/
def ofInserts (inserts : List (Variable × List Variable)) : Dependencies :=
  inserts.foldl (fun m entry => m.insert entry.1 entry.2) {}

/-- A decision that is inserted again keeps its place. -/
theorem decisions_insert (m : Dependencies) (d : Variable) (vars : List Variable) :
    (m.insert d vars).decisions =
      if Axes.mentions m.decisions d then m.decisions else m.decisions ++ [d] := by
  have hmentions : Axes.mentions m.decisions d = m.entries.any (·.1.id == d.id) := by
    simp [Axes.mentions, decisions, List.any_map, Function.comp_def]
  unfold insert
  rw [hmentions]
  split
  · simp [decisions, Function.comp_def]
  · simp [decisions]

theorem nodup_insert (h : (Axes.ids m.decisions).Nodup) (d : Variable) (vars : List Variable) :
    (Axes.ids (m.insert d vars).decisions).Nodup := by
  rw [decisions_insert]
  split
  · exact h
  next hnew =>
    rw [Axes.mentions_iff] at hnew
    rw [Axes.ids_append, List.nodup_append]
    refine ⟨h, by simp, ?_⟩
    rintro id hid _ hid' rfl
    exact hnew (by simpa [List.mem_singleton.mp hid'] using hid)

/-- What a decision observes is what was inserted for it last. -/
theorem parents_insert (m : Dependencies) (d e : Variable) (vars : List Variable) :
    (m.insert d vars).parents e = if e.id = d.id then vars else m.parents e := by
  unfold insert parents
  split
  next hany =>
    have hfind : (m.entries.map fun p => (p.1, if p.1.id == d.id then vars else p.2)).find?
        (·.1.id == e.id) = (m.entries.find? (·.1.id == e.id)).map
          fun p => (p.1, if p.1.id == d.id then vars else p.2) := List.find?_map
    rw [hfind]
    cases hentry : m.entries.find? (·.1.id == e.id) with
    | none =>
        obtain ⟨entry, hmem, hid⟩ := List.any_eq_true.mp hany
        have hne : e.id ≠ d.id := fun hed =>
          List.find?_eq_none.mp hentry entry hmem (by simpa [hed] using hid)
        rw [if_neg hne]
        rfl
    | some entry =>
        have hid : entry.1.id = e.id := by simpa using List.find?_some hentry
        by_cases hed : e.id = d.id <;> simp [hid, hed]
  next hany =>
    have hnone : e.id = d.id → m.entries.find? (·.1.id == e.id) = none := fun hed =>
      List.find?_eq_none.mpr fun entry hmem hid =>
        hany (List.any_eq_true.mpr ⟨entry, hmem, by simpa [hed] using hid⟩)
    rw [List.find?_append]
    by_cases hed : e.id = d.id
    · rw [hnone hed]
      simp [hed]
    · have hde : ¬d.id = e.id := fun h => hed h.symm
      simp [hed, hde]

theorem nodup_ofInserts (inserts : List (Variable × List Variable)) :
    (Axes.ids (ofInserts inserts).decisions).Nodup := by
  suffices h : ∀ m : Dependencies, (Axes.ids m.decisions).Nodup →
      (Axes.ids (inserts.foldl (fun m entry => m.insert entry.1 entry.2) m).decisions).Nodup from
    h {} (by simp)
  induction inserts with
  | nil => exact fun _ h => h
  | cons entry inserts ih => exact fun m h => ih _ (nodup_insert h entry.1 entry.2)

/-! ### Positions -/

/-- For each decision the positions of the decisions among its parents. -/
def parentPositions (m : Dependencies) : List (List ℕ) :=
  m.entries.map fun (_, vars) => vars.filterMap (Axes.position? m.decisions)

/-- The decisions at some positions. -/
def decisionsAt (m : Dependencies) (positions : List ℕ) : List Variable :=
  positions.filterMap (m.decisions[·]?)

@[simp] theorem length_parentPositions (m : Dependencies) : m.parentPositions.length = m.size := by
  simp [parentPositions, size]

@[simp] theorem decisionsAt_append (m : Dependencies) (a b : List ℕ) :
    m.decisionsAt (a ++ b) = m.decisionsAt a ++ m.decisionsAt b := List.filterMap_append

theorem decisionsAt_cons {i : ℕ} {positions : List ℕ} (h : m.decisions[i]? = some d) :
    m.decisionsAt (i :: positions) = d :: m.decisionsAt positions := List.filterMap_cons_some h

theorem getElem?_decisions (m : Dependencies) (i : ℕ) :
    m.decisions[i]? = m.entries[i]?.map (·.1) := List.getElem?_map

theorem position?_decisions_eq_some_iff (hdistinct : (Axes.ids m.decisions).Nodup) {i : ℕ} :
    Axes.position? m.decisions v = some i ↔ ∃ d, m.decisions[i]? = some d ∧ d.id = v.id := by
  rw [Axes.position?, List.findIdx?_eq_some_iff_getElem]
  constructor
  · rintro ⟨hi, hid, -⟩
    exact ⟨_, List.getElem?_eq_getElem hi, by simpa using hid⟩
  · rintro ⟨d, hd, hid⟩
    obtain ⟨hi, rfl⟩ := List.getElem?_eq_some_iff.mp hd
    refine ⟨hi, by simpa using hid, fun j hji hj => ?_⟩
    have heq := Axes.eq_of_id_eq hdistinct (List.getElem_mem _) (List.getElem_mem hi)
      ((show (m.decisions[j]).id = v.id by simpa using hj).trans hid.symm)
    have := ((Axes.nodup_of_ids hdistinct).getElem_inj_iff).mp heq
    omega

/-- A variable is among some decisions if its position is. -/
theorem mem_ids_decisionsAt (hdistinct : (Axes.ids m.decisions).Nodup) {positions : List ℕ} :
    v.id ∈ Axes.ids (m.decisionsAt positions) ↔
      ∃ i ∈ positions, Axes.position? m.decisions v = some i := by
  simp only [Axes.mem_ids, decisionsAt, List.mem_filterMap,
    position?_decisions_eq_some_iff hdistinct]
  constructor
  · rintro ⟨d, ⟨i, hi, hd⟩, hid⟩
    exact ⟨i, hi, d, hd, hid⟩
  · rintro ⟨i, hi, d, hd, hid⟩
    exact ⟨d, ⟨i, hi, hd⟩, hid⟩

theorem mem_ids_decisions :
    v.id ∈ Axes.ids m.decisions ↔ ∃ i, Axes.position? m.decisions v = some i := by
  rw [← Axes.mentions_iff, Axes.mentions, Axes.position?, ← List.findIdx?_isSome,
    Option.isSome_iff_exists]

theorem allPlaced_decisionsAt (hdistinct : (Axes.ids m.decisions).Nodup) {placed : List ℕ} :
    m.allPlaced (m.decisionsAt placed) vars ↔
      ∀ i ∈ vars.filterMap (Axes.position? m.decisions), i ∈ placed := by
  rw [allPlaced_iff]
  simp only [List.mem_filterMap, mem_ids_decisionsAt hdistinct, mem_ids_decisions]
  constructor
  · rintro h i ⟨v, hv, hi⟩
    obtain ⟨j, hj, hposition⟩ := h v hv ⟨i, hi⟩
    rwa [Option.some.inj (hi.symm.trans hposition)]
  · rintro h v hv ⟨i, hi⟩
    exact ⟨i, h i ⟨v, hv, hi⟩, hi⟩

/-- Places that pass a test, found by a test on the parents that are listed for them. -/
theorem decisionsAt_filter {β : Type} (test : β → Bool) (test' : Variable × List Variable → Bool)
    {bs : List β} (h : List.Forall₂ (fun b e => test b = test' e) bs m.entries) :
    m.decisionsAt ((bs.zipIdx.filter fun p => test p.1).map (·.2)) =
      (m.entries.filter test').map (·.1) := by
  have hfrom : ∀ {bs : List β} {es : List (Variable × List Variable)},
      List.Forall₂ (fun b e => test b = test' e) bs es → ∀ before : List (Variable × List Variable),
      (((bs.zipIdx before.length).filter fun p => test p.1).map (·.2)).filterMap
        (fun i => ((before ++ es)[i]?).map (·.1)) = (es.filter test').map (·.1) := by
    intro bs es h
    induction h with
    | nil => simp
    | @cons b e bs es hbe _ ih =>
        intro before
        have hrest := ih (before ++ [e])
        rw [List.append_assoc, List.singleton_append, List.length_append, List.length_singleton] at hrest
        rw [List.zipIdx_cons, List.filter_cons, List.filter_cons, ← hbe]
        cases test b with
        | false => exact hrest
        | true => simpa using hrest
  have hall := hfrom h []
  simp only [List.nil_append, List.length_nil, ← getElem?_decisions] at hall
  exact hall

/-! ### The two searches -/

section

open Precedence (start advanceBy unlocked)

variable {q : Precedence.Progress} {node : ℕ}

theorem decisionsAt_start (hdistinct : (Axes.ids m.decisions).Nodup) :
    m.decisionsAt (start m.parentPositions).ready = m.initial := by
  refine decisionsAt_filter List.isEmpty (fun (_, vars) => m.allPlaced [] vars) ?_
  rw [parentPositions, List.forall₂_map_left_iff, List.forall₂_same]
  intro e _
  rw [Bool.eq_iff_iff, show ([] : List Variable) = m.decisionsAt [] from rfl,
    allPlaced_decisionsAt hdistinct, List.isEmpty_iff, List.eq_nil_iff_forall_not_mem]
  simp

/-- The decisions that are released are those whose counters have come down to zero. -/
theorem decisionsAt_unlocked (hdistinct : (Axes.ids m.decisions).Nodup)
    (h : Precedence.Settled m.parentPositions q) (hd : m.decisions[node]? = some d) :
    m.decisionsAt (unlocked m.parentPositions node q.pending) =
      m.released (m.decisionsAt q.placed) d := by
  refine decisionsAt_filter (fun ((list, count) : List ℕ × ℕ) => count == 0 && list.contains node)
    (fun (_, vars) => Axes.mentions vars d && m.allPlaced (m.decisionsAt q.placed) vars) ?_
  have hlength : (m.parentPositions.zip q.pending).length = m.entries.length := by
    rw [List.length_zip, h.length, Nat.min_self, length_parentPositions, size]
  refine List.forall₂_iff_get.mpr ⟨hlength, fun i hi hi' => ?_⟩
  -- a counter holds the number of listed decisions that are not placed
  have hpending := h.pending i (by rwa [length_parentPositions])
  have hi'' : i < q.pending.length := by rw [h.length, length_parentPositions]; exact hi'
  simp only [List.get_eq_getElem, List.getElem_zip, parentPositions, List.getElem_map]
  rw [List.getD_eq_getElem _ _ hi'', List.getD_eq_getElem _ _ (by simpa [size] using hi')] at hpending
  simp only [parentPositions, List.getElem_map] at hpending
  have hmentions : node ∈ m.entries[i].2.filterMap (Axes.position? m.decisions) ↔
      Axes.mentions m.entries[i].2 d := by
    simp only [List.mem_filterMap, position?_decisions_eq_some_iff hdistinct, hd, Option.some.injEq,
      exists_eq_left', Axes.mentions_iff, Axes.mem_ids]
    exact exists_congr fun v => and_congr_right fun _ => eq_comm
  rw [Bool.eq_iff_iff, Bool.and_eq_true, Bool.and_eq_true, beq_iff_eq, List.contains_iff_mem, hmentions,
    allPlaced_decisionsAt hdistinct, hpending, List.countP_eq_zero, and_comm]
  simp only [decide_eq_true_eq, not_not]

/-- **A step of the one search is a step of the other.** -/
theorem place_decisionsAt (hdistinct : (Axes.ids m.decisions).Nodup) (n : ℕ)
    (h : Precedence.Settled m.parentPositions q) :
    m.place n (m.decisionsAt q.ready) (m.decisionsAt q.placed) =
      m.decisionsAt (advanceBy m.parentPositions n q).placed := by
  induction n generalizing q with
  | zero => simp [place]
  | succ n ih =>
      cases hready : q.ready with
      | nil =>
          rw [Precedence.advanceBy_of_ready_nil hready]
          simp [decisionsAt, place]
      | cons node rest =>
          have hnode : node < m.decisions.length := by
            have hlt := h.lt node (by simp [hready])
            rwa [length_parentPositions, ← length_decisions] at hlt
          have hd := List.getElem?_eq_getElem hnode
          -- both take the first of the queue, and what it releases is settled after that step
          have hsettled := Precedence.settled_advance h
          have hnext := ih hsettled
          have hreleased := decisionsAt_unlocked hdistinct hsettled hd
          rw [Precedence.advance_of_ready_cons hready] at hnext hreleased
          dsimp only at hnext hreleased
          rw [decisionsAt_append, hreleased, decisionsAt_append, decisionsAt_cons hd] at hnext
          rw [decisionsAt_cons hd, place, Precedence.advanceBy_succ,
            Precedence.advance_of_ready_cons hready]
          exact hnext

end

/-! ### Observation -/

/-- The first decision is among the parents of the second. -/
def Observes (m : Dependencies) (a b : Variable) : Prop :=
  a ∈ m.decisions ∧ b ∈ m.decisions ∧ a.id ∈ Axes.ids (m.parents b)

theorem isParent_iff (hdistinct : (Axes.ids m.decisions).Nodup) {q i : ℕ} :
    Precedence.IsParent m.parentPositions q i ↔
      ∃ a b, m.decisions[q]? = some a ∧ m.decisions[i]? = some b ∧ m.Observes a b := by
  have hparents : ∀ b, m.decisions[i]? = some b →
      m.parentPositions.getD i [] = (m.parents b).filterMap (Axes.position? m.decisions) := by
    intro b hb
    obtain ⟨entry, hentry, rfl⟩ := Option.map_eq_some_iff.mp (getElem?_decisions m i ▸ hb)
    rw [parents_of_mem hdistinct (List.mem_of_getElem? hentry), List.getD_eq_getElem?_getD,
      parentPositions, List.getElem?_map, hentry]
    rfl
  have hmem : ∀ b, q ∈ (m.parents b).filterMap (Axes.position? m.decisions) ↔
      ∃ a, m.decisions[q]? = some a ∧ a.id ∈ Axes.ids (m.parents b) := by
    intro b
    simp only [List.mem_filterMap, position?_decisions_eq_some_iff hdistinct, Axes.mem_ids]
    constructor
    · rintro ⟨v, hv, a, ha, hid⟩
      exact ⟨a, ha, v, hv, hid.symm⟩
    · rintro ⟨a, ha, v, hv, hid⟩
      exact ⟨v, hv, a, ha, hid.symm⟩
  constructor
  · intro hq
    cases hb : m.decisions[i]? with
    | none =>
        have hi : m.parentPositions.length ≤ i := by
          rw [length_parentPositions, ← length_decisions]
          exact List.getElem?_eq_none_iff.mp hb
        rw [Precedence.IsParent, List.getD_eq_default _ _ hi] at hq
        exact absurd hq List.not_mem_nil
    | some b =>
        rw [Precedence.IsParent, hparents b hb, hmem] at hq
        obtain ⟨a, ha, hid⟩ := hq
        exact ⟨a, b, ha, rfl, List.mem_of_getElem? ha, List.mem_of_getElem? hb, hid⟩
  · rintro ⟨a, b, ha, hb, -, -, hid⟩
    rw [Precedence.IsParent, hparents b hb, hmem]
    exact ⟨a, ha, hid⟩

theorem lt_of_isParent (hdistinct : (Axes.ids m.decisions).Nodup) :
    ∀ i q, Precedence.IsParent m.parentPositions q i → q < m.parentPositions.length := by
  intro i q hq
  obtain ⟨a, b, ha, -⟩ := (isParent_iff hdistinct).mp hq
  rw [length_parentPositions, ← length_decisions]
  exact (List.getElem?_eq_some_iff.mp ha).1

/-- The graph of the positions has a cycle if and only if some decision observes itself in the end. -/
theorem hasCycle_iff (hdistinct : (Axes.ids m.decisions).Nodup) :
    Precedence.HasCycle m.parentPositions ↔ ∃ d, Relation.TransGen m.Observes d d := by
  constructor
  · rintro ⟨i, hcycle⟩
    have hchain : ∀ {j}, Relation.TransGen (Precedence.IsParent m.parentPositions) i j →
        ∃ a b, m.decisions[i]? = some a ∧ m.decisions[j]? = some b ∧
          Relation.TransGen m.Observes a b := by
      intro j hij
      induction hij with
      | single hparent =>
          obtain ⟨a, b, ha, hb, hab⟩ := (isParent_iff hdistinct).mp hparent
          exact ⟨a, b, ha, hb, .single hab⟩
      | tail _ hparent ih =>
          obtain ⟨a, b, ha, hb, hab⟩ := ih
          obtain ⟨b', c, hb', hc, hbc⟩ := (isParent_iff hdistinct).mp hparent
          obtain rfl : b = b' := Option.some.inj (hb.symm.trans hb')
          exact ⟨a, c, ha, hc, .tail hab hbc⟩
    obtain ⟨a, b, ha, hb, hab⟩ := hchain hcycle
    obtain rfl : a = b := Option.some.inj (ha.symm.trans hb)
    exact ⟨a, hab⟩
  · rintro ⟨d, hcycle⟩
    refine ⟨m.decisions.idxOf d, hcycle.lift m.decisions.idxOf fun a b hab => ?_⟩
    exact (isParent_iff hdistinct).mpr
      ⟨a, b, List.getElem?_idxOf hab.1, List.getElem?_idxOf hab.2.1, hab⟩

/-! ### The order -/

theorem length_decisionsAt {positions : List ℕ} (h : ∀ i ∈ positions, i < m.size) :
    (m.decisionsAt positions).length = positions.length := by
  induction positions with
  | nil => rfl
  | cons i positions ih =>
      have hi : i < m.decisions.length := by
        rw [length_decisions]
        exact h i List.mem_cons_self
      rw [decisionsAt_cons (List.getElem?_eq_getElem hi), List.length_cons, List.length_cons,
        ih fun j hj => h j (List.mem_cons_of_mem i hj)]

/-- The two searches have the same result. -/
theorem decisionOrder_eq_map_order (hdistinct : (Axes.ids m.decisions).Nodup) :
    m.decisionOrder = (Precedence.order m.parentPositions).map m.decisionsAt := by
  have hsettled := Precedence.settled_start m.parentPositions
  have hplace := place_decisionsAt hdistinct m.size hsettled
  rw [decisionsAt_start hdistinct] at hplace
  have hlt : ∀ i ∈ (Precedence.advanceBy m.parentPositions m.size
      (Precedence.start m.parentPositions)).placed, i < m.size := by
    intro i hi
    rw [← length_parentPositions]
    exact (Precedence.settled_advanceBy m.size hsettled).lt i (List.mem_append_left _ hi)
  have hlength := length_decisionsAt hlt
  unfold decisionOrder Precedence.order
  rw [Precedence.outOfRange?_eq_none_iff.mpr (lt_of_isParent hdistinct), length_parentPositions]
  dsimp only
  rw [show m.place m.size m.initial [] = _ from hplace, hlength]
  split <;> rfl

theorem idxOf_lt_of_observes (hdistinct : (Axes.ids m.decisions).Nodup) {order : List Variable}
    {a b : Variable} (h : m.decisionOrder = .ok order) (hab : m.Observes a b) :
    order.idxOf a < order.idxOf b := by
  obtain ⟨hperm, hafter⟩ := decisionOrder_sound hdistinct h
  obtain ⟨before, after, hsplit⟩ := List.append_of_mem (hperm.mem_iff.mpr hab.2.1)
  obtain ⟨v, hv, hid⟩ := Axes.mem_ids.mp hab.2.2
  have hbefore : a ∈ before := by
    have hmem := hafter before b after hsplit v hv (hid ▸ Axes.mem_ids_of_mem hab.1)
    obtain ⟨a', ha', hid'⟩ := Axes.mem_ids.mp hmem
    have hdecision : a' ∈ m.decisions := hperm.mem_iff.mp (by simp [hsplit, ha'])
    rwa [← Axes.eq_of_id_eq hdistinct hdecision hab.1 (hid'.trans hid)]
  exact idxOf_lt_of_eq_append (hperm.nodup_iff.mpr (Axes.nodup_of_ids hdistinct)) hsplit hbefore

theorem exists_decisionOrder_iff (hdistinct : (Axes.ids m.decisions).Nodup) :
    (∃ order, m.decisionOrder = .ok order) ↔ ¬∃ d, Relation.TransGen m.Observes d d := by
  rw [← hasCycle_iff hdistinct, ← Precedence.exists_order_iff (lt_of_isParent hdistinct),
    decisionOrder_eq_map_order hdistinct]
  cases Precedence.order m.parentPositions <;> simp [Except.map]

theorem decisionOrder_eq_error_iff (hdistinct : (Axes.ids m.decisions).Nodup) :
    m.decisionOrder = .error .cyclicGraph ↔ ∃ d, Relation.TransGen m.Observes d d := by
  rw [← hasCycle_iff hdistinct, ← Precedence.order_eq_error_cyclicGraph_iff (lt_of_isParent hdistinct),
    decisionOrder_eq_map_order hdistinct]
  cases Precedence.order m.parentPositions <;> simp [Except.map]

theorem exists_eq_ofInserts [Build] {α : Type} {n : Network α} (hn : n.Compiled) :
    ∃ inserts, n.dependencies = ofInserts inserts := by
  refine ⟨(n.orderedNodes.filter (·.kind = .decision)).map fun a => (a.handle, n.parentHandles a), ?_⟩
  rw [hn.dependencies, ofInserts, List.foldl_map]
  rfl

/-- **The two searches agree.**  For decisions that were inserted in any way, and again with other
parents, there is the order that the search on their positions finds, or the same error.  There is one
exactly if no decision observes itself in the end, and it lists every decision once and after the
decisions that it observes.  The decisions of a compiled network have an order. -/
theorem decisionOrder_eq_order :
    (∀ inserts : List (Variable × List Variable), ∀ m, m = ofInserts inserts →
      m.decisionOrder = (Precedence.order m.parentPositions).map m.decisionsAt ∧
      ((∃ order, m.decisionOrder = .ok order) ↔ ¬∃ d, Relation.TransGen m.Observes d d) ∧
      (m.decisionOrder = .error .cyclicGraph ↔ ∃ d, Relation.TransGen m.Observes d d) ∧
      (∀ order, m.decisionOrder = .ok order → order.Nodup ∧ order.Perm m.decisions ∧
        ∀ a b, m.Observes a b → order.idxOf a < order.idxOf b) ∧
      ∀ d vars, (m.insert d vars).decisions =
          (if Axes.mentions m.decisions d then m.decisions else m.decisions ++ [d]) ∧
        ∀ e, (m.insert d vars).parents e = if e.id = d.id then vars else m.parents e) ∧
    ∀ (α : Type) [Cell α] (definition : Definition α) (config : Config α) (n : Network α),
      Network.compile definition config = .ok n →
        (∃ inserts, n.dependencies = ofInserts inserts) ∧
        ∃ order, n.dependencies.decisionOrder = .ok order := by
  constructor
  · rintro inserts m rfl
    have hdistinct := nodup_ofInserts inserts
    refine ⟨decisionOrder_eq_map_order hdistinct, exists_decisionOrder_iff hdistinct,
      decisionOrder_eq_error_iff hdistinct, fun order horder => ?_,
      fun d vars => ⟨decisions_insert _ d vars, fun e => parents_insert _ d e vars⟩⟩
    obtain ⟨hperm, -⟩ := decisionOrder_sound hdistinct horder
    exact ⟨hperm.nodup_iff.mpr (Axes.nodup_of_ids hdistinct), hperm,
      fun _ _ => idxOf_lt_of_observes hdistinct horder⟩
  · intro α _ definition config n hcompile
    have hn := (Network.compiled_of_compile hcompile).1
    obtain ⟨s, hs⟩ := hn.exists_setting
    exact ⟨exists_eq_ofInserts hn, _, (Network.setting_eq_ok hs).1⟩

/-- The first decision is inserted again, and then observes the second, which is listed twice. -/
def reinserted : List (Variable × List Variable) :=
  let signal : Variable := ⟨0, 2, .chance⟩
  let late : Variable := ⟨1, 2, .decision⟩
  let early : Variable := ⟨2, 3, .decision⟩
  [(late, [signal]), (early, [signal]), (late, [early, signal, early])]

/-- The second decision of `reinserted` comes first, a decision that observes itself has no order, and
the decisions of a compiled network have one. -/
theorem decisionOrder_eq_order_reinserted :
    (∃ a b, (ofInserts reinserted).decisions = [b, a] ∧
      (ofInserts reinserted).decisionOrder = .ok [a, b] ∧ [a, b].idxOf a < [a, b].idxOf b ∧
      ((ofInserts reinserted).insert b []).decisions = [b, a]) ∧
    (∃ d : Variable, (ofInserts [(d, [d])]).decisionOrder = .error .cyclicGraph) ∧
    ∃ n, Network.compile Network.detour {} = .ok n ∧
      ∃ order, n.dependencies.decisionOrder = .ok order := by
  obtain ⟨hinserts, hcompiled⟩ := decisionOrder_eq_order
  obtain ⟨n, a, b, hcompile, -⟩ := Network.exists_detour
  refine ⟨⟨⟨2, 3, .decision⟩, ⟨1, 2, .decision⟩, ?_⟩, ⟨⟨0, 2, .decision⟩, ?_⟩,
    n, hcompile, (hcompiled _ _ _ n hcompile).2⟩
  · obtain ⟨-, -, -, hsound, hinsert⟩ := hinserts reinserted _ rfl
    have horder : (ofInserts reinserted).decisionOrder =
        .ok [⟨2, 3, .decision⟩, ⟨1, 2, .decision⟩] := rfl
    exact ⟨rfl, horder, (hsound _ horder).2.2 _ _ ⟨by decide, by decide, by decide⟩,
      (hinsert _ []).1⟩
  · obtain ⟨-, -, herror, -⟩ := hinserts [(⟨0, 2, .decision⟩, [⟨0, 2, .decision⟩])] _ rfl
    exact herror.mpr ⟨⟨0, 2, .decision⟩, .single ⟨by decide, by decide, by decide⟩⟩

end Influence.Dependencies
