import Influence.Proofs.Dependencies
import Influence.Proofs.Elimination.Shift

/-! # The order of a part of the decisions

Some of the decisions may observe no decision but one another (`Dependencies.RestrictsTo`).  The search
for an order takes them from its queue as if they were alone, because it is a queue: decisions that join
it later are taken later.  So they stand in the order that they have by themselves
(`Dependencies.RestrictsTo.decisionOrder`). -/

namespace Influence

open scoped Exact

variable {k : VariableId}

/-- Whether an own variable is mentioned can be seen from the own ones among some variables. -/
theorem Axes.mentions_filter {own axes : Axes} {v : Variable} (hv : v.id ∈ own.ids) :
    mentions (axes.filter own.mentions) v = axes.mentions v := by
  rw [Bool.eq_iff_iff, mentions_iff, mentions_iff, mem_ids, mem_ids]
  constructor
  · rintro ⟨w, hw, hid⟩
    exact ⟨w, List.mem_of_mem_filter hw, hid⟩
  · rintro ⟨w, hw, hid⟩
    exact ⟨w, List.mem_filter.mpr ⟨hw, mentions_iff.mpr (hid ▸ hv)⟩, hid⟩

namespace Dependencies

variable {m m₁ : Dependencies} {own : Axes} {d : Variable}
  {ready placed ready₁ placed₁ vars order : List Variable}

/-- The entries of the own decisions are those of `m₁`, with other identities, and observe only own
variables. -/
structure RestrictsTo (m m₁ : Dependencies) (own : Axes) (k : VariableId) : Prop where
  entries : m.entries.filter (fun e => own.mentions e.1) =
    m₁.entries.map fun e => (e.1.shift k, Axes.shift k e.2)
  subset : ∀ e ∈ m₁.entries, Axes.ids (Axes.shift k e.2) ⊆ own.ids

namespace RestrictsTo

variable (h : RestrictsTo m m₁ own k)

include h

/-- What is selected from the own entries. -/
theorem filter_map (test test₁ : Variable × List Variable → Bool)
    (htest : ∀ e ∈ m₁.entries, test (e.1.shift k, Axes.shift k e.2) = test₁ e) :
    ((m.entries.filter test).map (·.1)).filter own.mentions =
      Axes.shift k ((m₁.entries.filter test₁).map (·.1)) := by
  have hfilter : (m.entries.filter test).filter (fun e => own.mentions e.1) =
      (m₁.entries.filter test₁).map fun e => (e.1.shift k, Axes.shift k e.2) := by
    rw [List.filter_comm, h.entries, List.filter_map]
    exact congrArg _ (List.filter_congr htest)
  rw [List.filter_map, Axes.shift, List.map_map]
  refine (congrArg (List.map _) hfilter).trans ?_
  rw [List.map_map]
  rfl

theorem decisions : m.decisions.filter own.mentions = Axes.shift k m₁.decisions := by
  simpa [Dependencies.decisions] using h.filter_map (fun _ => true) (fun _ => true) fun _ _ => rfl

theorem allPlaced (hplaced : placed.filter own.mentions = Axes.shift k placed₁)
    (hvars : Axes.ids (Axes.shift k vars) ⊆ own.ids) :
    m.allPlaced placed (Axes.shift k vars) = m₁.allPlaced placed₁ vars := by
  have hmentions : ∀ {axes axes₁ : Axes}, axes.filter own.mentions = axes₁.shift k → ∀ v ∈ vars,
      axes.mentions (v.shift k) = axes₁.mentions v := fun haxes v hv => by
    rw [← Axes.mentions_filter (hvars (Axes.mem_ids_of_mem (List.mem_map_of_mem hv))), haxes,
      Axes.mentions_shift]
  rw [Dependencies.allPlaced, Axes.shift, List.all_map, Bool.eq_iff_iff, List.all_eq_true,
    Dependencies.allPlaced, List.all_eq_true]
  refine forall₂_congr fun v hv => ?_
  rw [Function.comp_apply, hmentions h.decisions v hv, hmentions hplaced v hv]

theorem initial : m.initial.filter own.mentions = Axes.shift k m₁.initial :=
  h.filter_map _ _ fun e he => h.allPlaced rfl (h.subset e he)

theorem released (hplaced : placed.filter own.mentions = Axes.shift k placed₁) :
    (m.released placed (d.shift k)).filter own.mentions = Axes.shift k (m₁.released placed₁ d) :=
  h.filter_map _ _ fun e he =>
    congrArg₂ (· && ·) (Axes.mentions_shift k e.2 d) (h.allPlaced hplaced (h.subset e he))

/-- Another decision releases no own decision. -/
theorem released_of_not_mentions (hd : ¬own.mentions d) :
    (m.released placed d).filter own.mentions = [] := by
  have hnone := h.filter_map (fun e => Axes.mentions e.2 d && m.allPlaced placed e.2) (fun _ => false)
    fun e he => by
      have hfree : ¬Axes.mentions (Axes.shift k e.2) d := fun hmem =>
        hd (Axes.mentions_iff.mpr (h.subset e he (Axes.mentions_iff.mp hmem)))
      rw [Bool.eq_false_iff.mpr hfree, Bool.false_and]
  rw [List.filter_eq_nil_iff.mpr fun _ _ => Bool.false_ne_true] at hnone
  exact hnone

/-- **The own decisions stand in the order that they have by themselves.** -/
theorem decisionOrder (hdistinct : (Axes.ids m.decisions).Nodup) (horder : m.decisionOrder = .ok order) :
    ∃ order₁, m₁.decisionOrder = .ok order₁ ∧ order.filter own.mentions = Axes.shift k order₁ := by
  -- the own part of the queue is what the search on the own decisions has reached
  let P (ready placed : List Variable) : Prop := ∃ ready₁ placed₁,
    (∀ n, m₁.place (placed₁.length + n) m₁.initial [] = m₁.place n ready₁ placed₁) ∧
      ready.filter own.mentions = Axes.shift k ready₁ ∧ placed.filter own.mentions = Axes.shift k placed₁
  have hstep : ∀ d ready placed, P (d :: ready) placed →
      P (ready ++ m.released (placed ++ [d]) d) (placed ++ [d]) := by
    rintro d ready placed ⟨ready₁, placed₁, hreached, hready, hplaced⟩
    by_cases hd : own.mentions d
    · rw [List.filter_cons_of_pos hd] at hready
      cases ready₁ with
      | nil => cases hready
      | cons d₁ ready₁ =>
          obtain ⟨rfl, hready'⟩ := List.cons.inj hready
          have hplaced' : (placed ++ [d₁.shift k]).filter own.mentions = Axes.shift k (placed₁ ++ [d₁]) := by
            rw [List.filter_append, hplaced, List.filter_cons_of_pos hd, Axes.shift_append]
            rfl
          refine ⟨ready₁ ++ m₁.released (placed₁ ++ [d₁]) d₁, placed₁ ++ [d₁], fun n => ?_, ?_, hplaced'⟩
          · rw [List.length_append, List.length_singleton, Nat.add_assoc, Nat.add_comm 1 n]
            exact hreached (n + 1)
          · rw [List.filter_append, h.released hplaced', Axes.shift_append]
            exact congrArg (· ++ _) hready'
    · rw [List.filter_cons_of_neg hd] at hready
      refine ⟨ready₁, placed₁, hreached, ?_, ?_⟩
      · rw [List.filter_append, h.released_of_not_mentions hd, List.append_nil, hready]
      · rw [List.filter_append, List.filter_cons_of_neg hd, hplaced]
        exact List.append_nil _
  have hstart : P m.initial [] :=
    ⟨m₁.initial, [], fun n => by rw [List.length_nil, Nat.zero_add], h.initial, rfl⟩
  obtain ⟨ready, ⟨ready₁, placed₁, hreached, -, hplaced⟩, -⟩ := exists_place hstep m.size hstart
  obtain ⟨hperm, -⟩ := decisionOrder_sound hdistinct horder
  have hfinal : m.place m.size m.initial [] = order := by
    unfold Dependencies.decisionOrder at horder
    dsimp only at horder
    split at horder
    · exact Except.ok.inj horder
    · cases horder
  rw [hfinal] at hplaced
  have hlength : placed₁.length = m₁.size := by
    rw [← Axes.length_shift k placed₁, ← hplaced, (hperm.filter _).length_eq, h.decisions, Axes.length_shift,
      length_decisions]
  have hall : m₁.place m₁.size m₁.initial [] = placed₁ := by
    rw [← hlength]
    simpa [place] using hreached 0
  refine ⟨placed₁, ?_, hplaced⟩
  unfold Dependencies.decisionOrder
  rw [hall]
  exact if_pos hlength

end RestrictsTo

end Dependencies

end Influence
