import Influence.Proofs.Elimination.Laws
import Influence.Proofs.Network.Structure

/-! # What a network means

A network stands for a joint distribution and a utility.  Read off its tables without any
elimination:

* `chance` is the product of the tables of the chance variables, and `utility` the weighted sum of
  the tables of the utilities.
* `IsRule` says what a rule of a decision is: for each state of what the decision observes a
  distribution over its outcomes.
* `expected` is the expected utility of rules for all decisions, and `value` the part of it that
  depends on the state of one decision and of what is not summed out.

The chance variables and the decisions have `laws`, and these add up to one
(`Compiled.sumOver_states`). -/

namespace Influence.Network

open scoped Exact

/-- The chance variables and the decisions. -/
def states {α : Type} (n : Network α) : Axes := n.handles.filter (·.kind ≠ .utility)

/-- The product of the tables of the chance variables. -/
def chance (n : Network ℚ) : Assignment → ℚ := Tables.weight (n.chances.map (·.2))

/-- The weighted sum of the tables of the utilities. -/
def utility (n : Network ℚ) (x : Assignment) : ℚ :=
  (n.utilities.map fun p => n.weightOf p.1 * p.2.valueAt x).sum

/-- The tables of the chance variables are distributions. -/
def IsStochastic (n : Network ℚ) : Prop := ∀ p ∈ n.chances, p.2.IsStochastic p.1.handle

instance (n : Network ℚ) : Decidable n.IsStochastic :=
  inferInstanceAs (Decidable (∀ p ∈ n.chances, p.2.IsStochastic p.1.handle))

/-- The rows of the tables of the chance variables add up to one. -/
def AddsUp (n : Network ℚ) : Prop := ∀ p ∈ n.chances, p.2.AddsUp p.1.handle

instance (n : Network ℚ) : Decidable n.AddsUp :=
  inferInstanceAs (Decidable (∀ p ∈ n.chances, p.2.AddsUp p.1.handle))

theorem IsStochastic.addsUp {n : Network ℚ} (h : n.IsStochastic) : n.AddsUp := fun p hp => (h p hp).2

/-- The table is a rule of a decision, which depends on nothing but what the decision observes. -/
structure IsRule (n : Network ℚ) (d : Variable) (t : Table ℚ) : Prop where
  fits : t.Fits n.sizes
  mem : d.id ∈ t.axes.ids
  observed : ∀ id ∈ t.axes.ids, id ∈ Axes.ids (n.dependencies.parents d) ∨ id = d.id
  conditional : Table.IsConditional n.sizes d t.valueAt

/-- The expected utility of some rules. -/
def expected (n : Network ℚ) (rules : List (Table ℚ)) : ℚ :=
  Axes.sumOver n.states (fun x => n.chance x * Tables.weight rules x * n.utility x) fun _ => 0

/-- The chance variables that a decision does not observe, and the decisions after it. -/
def unseen {α : Type} (n : Network α) (d : Variable) (later : List Variable) : Axes :=
  (n.states.filter fun v => v.kind = .chance && !Axes.mentions (n.dependencies.parents d) v) ++ later

/-- The utility in the state of a decision, weighted by probability, if the later decisions follow
some rules. -/
def value (n : Network ℚ) (d : Variable) (later : List Variable) (rules : List (Table ℚ)) :
    Assignment → ℚ :=
  Axes.sumOver (n.unseen d later) fun x => n.chance x * Tables.weight rules x * n.utility x

/-- The laws of the chance variables. -/
def laws (n : Network ℚ) : List Law := n.chances.map fun p => ⟨p.1.handle, p.2⟩

/-- The laws of some decisions. -/
def ruleLaws (ds : List Variable) (rules : List (Table ℚ)) : List Law :=
  (ds.zip rules).map fun p => ⟨p.1, p.2⟩

section

variable {α : Type} {n : Network α} {d v : Variable}

theorem mem_states : v ∈ n.states ↔ ∃ m ∈ n.nodes, m.kind ≠ .utility ∧ m.handle = v := by
  rw [states, List.mem_filter, mem_handles, decide_eq_true_eq]
  constructor
  · rintro ⟨⟨m, hm, rfl⟩, hkind⟩
    exact ⟨m, hm, hkind, rfl⟩
  · rintro ⟨m, hm, hkind, rfl⟩
    exact ⟨⟨m, hm, rfl⟩, hkind⟩

namespace Compiled

variable [Build] (hn : n.Compiled)

include hn

theorem nodup_states : n.states.ids.Nodup := Axes.nodup_ids_filter hn.nodup_handles _

theorem sized_states : n.states.Sized n.sizes := hn.sized_handles.subset List.filter_sublist.subset

/-- Every variable has a first outcome. -/
theorem valid_zero : Assignment.Valid n.sizes fun _ => 0 := by
  intro id
  by_cases hid : id ∈ n.handles.ids
  · obtain ⟨v, hv, rfl⟩ := Axes.mem_ids.mp hid
    obtain ⟨m, hm, rfl⟩ := mem_handles.mp hv
    rw [← hn.sizes_handle hm]
    exact hn.declared.arity_pos m hm
  · rw [sizes, Axes.sizes_of_notMem hid]
    exact Nat.one_pos

theorem sized_decisions : Axes.Sized n.sizes n.dependencies.decisions := by
  intro d hd
  obtain ⟨m, hm, -, rfl⟩ := hn.mem_decisions.mp hd
  exact hn.sizes_handle hm

theorem decision_mem_states (hd : d ∈ n.dependencies.decisions) : d ∈ n.states := by
  obtain ⟨m, hm, hkind, rfl⟩ := hn.mem_decisions.mp hd
  exact mem_states.mpr ⟨m, hm, by simp [hkind], rfl⟩

/-- No chance variable or decision has a utility as a parent. -/
theorem family_subset_states {m : Node} (hm : m ∈ n.nodes) (hkind : m.kind ≠ .utility) :
    n.parentHandles m ++ [m.handle] ⊆ n.states := by
  intro v hv
  rcases List.mem_append.mp hv with hv | hv
  · refine List.mem_filter.mpr ⟨hn.parentHandles_subset m hv, ?_⟩
    simpa using hn.kind_of_mem_parentHandles hv
  · rw [List.mem_singleton.mp hv]
    exact mem_states.mpr ⟨m, hm, hkind, rfl⟩

end Compiled

end

variable {n : Network ℚ} {d v : Variable} {ds : List Variable} {rules : List (Table ℚ)} {s : Setting ℚ}
  {t : Table ℚ} {x : Assignment}

theorem tables_laws (n : Network ℚ) : Law.tables n.laws = n.chances.map (·.2) := by
  rw [Law.tables, laws, List.map_map]
  rfl

theorem heads_ruleLaws (h : ds.length = rules.length) : Law.heads (ruleLaws ds rules) = ds := by
  rw [Law.heads, ruleLaws, List.map_map]
  exact List.map_fst_zip h.le

theorem tables_ruleLaws (h : ds.length = rules.length) : Law.tables (ruleLaws ds rules) = rules := by
  rw [Law.tables, ruleLaws, List.map_map]
  exact List.map_snd_zip h.ge

theorem heads_append (h : ds.length = rules.length) :
    Law.heads (n.laws ++ ruleLaws ds rules) = Law.heads n.laws ++ ds := by
  rw [Law.heads, List.map_append]
  exact congrArg _ (heads_ruleLaws h)

namespace Compiled

variable (hn : n.Compiled)

include hn

theorem ids_rule_subset (hd : d ∈ n.dependencies.decisions) (h : n.IsRule d t) :
    t.axes.ids ⊆ n.states.ids := by
  obtain ⟨m, hm, hkind, rfl⟩ := hn.mem_decisions.mp hd
  have hfamily := List.map_subset (·.id) (hn.family_subset_states hm (by simp [hkind]))
  intro id hid
  have hobserved := h.observed id hid
  rw [hn.parents_handle hm hkind] at hobserved
  exact hfamily (by simpa [Axes.ids] using hobserved)

theorem rank_lt_decision (hd : d ∈ n.dependencies.decisions)
    (hv : v ∈ n.dependencies.parents d) : n.rank v.id < n.rank d.id := by
  obtain ⟨m, hm, hkind, rfl⟩ := hn.mem_decisions.mp hd
  rw [hn.parents_handle hm hkind] at hv
  exact hn.rank_lt hm hv

/-! ### Laws -/

theorem mem_ids_heads_laws {id : VariableId} :
    id ∈ (Law.heads n.laws).ids ↔ ∃ m ∈ n.nodes, m.kind = .chance ∧ m.handle.id = id := by
  rw [Law.mem_ids_heads]
  constructor
  · rintro ⟨l, hl, rfl⟩
    obtain ⟨p, hp, rfl⟩ := List.mem_map.mp hl
    obtain ⟨hp, hkind⟩ := List.mem_filter.mp hp
    exact ⟨p.1, (hn.node_of_tabled hp).1, by simpa using hkind, rfl⟩
  · rintro ⟨m, hm, hkind, rfl⟩
    obtain ⟨t, ht⟩ := hn.exists_tabled hm (by simp [hkind])
    refine ⟨⟨m.handle, t⟩, List.mem_map.mpr ⟨(m, t), List.mem_filter.mpr ⟨ht, ?_⟩, rfl⟩, rfl⟩
    simpa using hkind

theorem nodup_heads_laws : (Law.heads n.laws).ids.Nodup := by
  have hids : (Law.heads n.laws).ids = n.chances.map (·.1.handle.id) := by
    rw [Law.heads, laws, Axes.ids, List.map_map, List.map_map]
    rfl
  rw [hids]
  exact hn.nodup_tabled.sublist (List.filter_sublist.map _)

/-- The table of a chance variable is a law if its rows add up to one. -/
theorem normal_laws (h : n.AddsUp) : ∀ l ∈ n.laws, l.Normal n.sizes n.rank := by
  intro l hl
  obtain ⟨p, hp, rfl⟩ := List.mem_map.mp hl
  have hp' := (List.mem_filter.mp hp).1
  obtain ⟨hm, -⟩ := hn.node_of_tabled hp'
  obtain ⟨haxes, -⟩ := hn.table_of_tabled hp'
  have hfits := hn.fits_of_tabled hp'
  constructor
  case fits => exact hfits
  case arity => exact hn.sizes_handle hm
  case mem => simp [haxes]
  case sum_one => exact fun x hx => hfits.sum_valueAt_set haxes (h p hp) hx
  case rank_lt =>
    intro id hid hne
    rw [haxes, Axes.ids_append, List.mem_append] at hid
    rcases hid with hid | hid
    · obtain ⟨v, hv, rfl⟩ := Axes.mem_ids.mp hid
      exact hn.rank_lt hm hv
    · exact absurd (by simpa using hid) hne

theorem sound_laws (h : n.IsStochastic) : ∀ l ∈ n.laws, l.Sound n.sizes n.rank := by
  intro l hl
  refine ⟨hn.normal_laws h.addsUp l hl, ?_⟩
  obtain ⟨p, hp, rfl⟩ := List.mem_map.mp hl
  exact fun x _ => Table.valueAt_nonneg (h p hp).1 x

theorem sound_rule (hd : d ∈ n.dependencies.decisions) (h : n.IsRule d t) :
    Law.Sound n.sizes n.rank ⟨d, t⟩ where
  fits := h.fits
  arity := hn.sized_decisions d hd
  mem := h.mem
  sum_one := h.conditional.sum_one
  nonneg := h.conditional.nonneg
  rank_lt := fun id hid hne => by
    obtain ⟨v, hv, rfl⟩ := Axes.mem_ids.mp ((h.observed id hid).resolve_right hne)
    exact hn.rank_lt_decision hd hv

theorem sound_ruleLaws (hds : ds ⊆ n.dependencies.decisions)
    (h : List.Forall₂ n.IsRule ds rules) : ∀ l ∈ ruleLaws ds rules, l.Sound n.sizes n.rank := by
  intro l hl
  obtain ⟨p, hp, rfl⟩ := List.mem_map.mp hl
  exact hn.sound_rule (hds (List.of_mem_zip hp).1) (List.forall₂_zip h hp)

/-- No variable has a law as a chance variable and as a decision. -/
theorem nodup_heads_append (hds : ds ⊆ n.dependencies.decisions) (hnodup : (Axes.ids ds).Nodup)
    (hlength : ds.length = rules.length) :
    (Law.heads (n.laws ++ ruleLaws ds rules)).ids.Nodup := by
  rw [heads_append hlength, Axes.ids_append, List.nodup_append]
  refine ⟨hn.nodup_heads_laws, hnodup, ?_⟩
  rintro id hid _ hid' rfl
  obtain ⟨m, hm, hkind, rfl⟩ := hn.mem_ids_heads_laws.mp hid
  obtain ⟨d, hd, hid⟩ := Axes.mem_ids.mp hid'
  obtain ⟨m', hm', hkind', rfl⟩ := hn.mem_decisions.mp (hds hd)
  rw [hn.eq_of_id hm' hm hid, hkind] at hkind'
  cases hkind'

/-- The variables with a law are the chance variables and the decisions. -/
theorem perm_ids_states (hds : ds.Perm n.dependencies.decisions)
    (hlength : ds.length = rules.length) :
    (Law.heads (n.laws ++ ruleLaws ds rules)).ids.Perm n.states.ids := by
  have hnodup : (Axes.ids ds).Nodup := (hds.map _).nodup_iff.mpr hn.nodup_decisions
  refine (List.perm_ext_iff_of_nodup (hn.nodup_heads_append hds.subset hnodup hlength)
    hn.nodup_states).mpr fun id => ?_
  rw [heads_append hlength, Axes.ids_append, List.mem_append, hn.mem_ids_heads_laws]
  constructor
  · rintro (⟨m, hm, hkind, rfl⟩ | hid)
    · exact Axes.mem_ids_of_mem (mem_states.mpr ⟨m, hm, by simp [hkind], rfl⟩)
    · obtain ⟨d, hd, rfl⟩ := Axes.mem_ids.mp hid
      exact Axes.mem_ids_of_mem (hn.decision_mem_states (hds.subset hd))
  · intro hid
    obtain ⟨v, hv, rfl⟩ := Axes.mem_ids.mp hid
    obtain ⟨m, hm, hkind, rfl⟩ := mem_states.mp hv
    cases hchance : m.kind with
    | chance => exact .inl ⟨m, hm, hchance, rfl⟩
    | decision =>
        have hmem : m.handle ∈ ds := hds.mem_iff.mpr (hn.mem_decisions.mpr ⟨m, hm, hchance, rfl⟩)
        exact .inr (Axes.mem_ids_of_mem hmem)
    | utility => exact absurd hchance hkind

/-- **Probabilities add up to one**, whatever rules the decisions follow. -/
theorem sumOver_states (hchance : n.IsStochastic) (hds : ds.Perm n.dependencies.decisions)
    (hrules : List.Forall₂ n.IsRule ds rules) (hx : x.Valid n.sizes) :
    Axes.sumOver n.states (fun y => n.chance y * Tables.weight rules y) x = 1 := by
  have hlength := hrules.length_eq
  have hnodup : (Axes.ids ds).Nodup := (hds.map _).nodup_iff.mpr hn.nodup_decisions
  have hnormal : ∀ l ∈ n.laws ++ ruleLaws ds rules, l.Normal n.sizes n.rank := by
    intro l hl
    rcases List.mem_append.mp hl with hl | hl
    · exact hn.normal_laws hchance.addsUp l hl
    · exact (hn.sound_ruleLaws hds.subset hrules l hl).toNormal
  have hheads := hn.nodup_heads_append hds.subset hnodup hlength
  have hweight : (fun y => n.chance y * Tables.weight rules y) =
      Tables.weight (Law.tables (n.laws ++ ruleLaws ds rules)) := by
    funext y
    rw [Law.tables, List.map_append, Tables.weight_append]
    change _ = Tables.weight (Law.tables n.laws) y * Tables.weight (Law.tables _) y
    rw [tables_laws, tables_ruleLaws hlength]
    rfl
  rw [hweight, ← Axes.sumOver_perm_ids (Law.sized_heads hnormal) hn.sized_states
    (hn.perm_ids_states hds hlength) hheads, Law.sumOver_heads hnormal hheads hx]

/-! ### Utilities -/

theorem weight?_eq_none (hweights : s.weights = n.weights) (hv : v.id ∈ n.states.ids) :
    s.weight? v = none := by
  rw [Setting.weight?, hweights, List.lookup_eq_none_iff]
  intro w hw
  obtain ⟨m, hm, hkind, hid⟩ := hn.weights w (List.mem_reverse.mp hw)
  obtain ⟨u, hu, huv⟩ := Axes.mem_ids.mp hv
  obtain ⟨m', hm', hkind', rfl⟩ := mem_states.mp hu
  rw [← hid, ← huv, bne_iff_ne]
  exact fun h => hkind' (hn.eq_of_id hm' hm h ▸ hkind)

/-- The weights of the axes of a utility table are that of the utility.  Other axes may be left
out. -/
theorem weightOf_axes (hweights : s.weights = n.weights) {p : Node × Table ℚ} (hp : p ∈ n.tabled)
    (keep : Variable → Bool) (hkeep : ∀ v, ¬keep v → v.id ∈ n.states.ids) :
    s.weightOf (p.2.axes.filter keep) = n.weightOf p.1 := by
  have hparents : (n.parentHandles p.1).filterMap s.weight? = [] := by
    refine List.filterMap_eq_nil_iff.mpr fun v hv => hn.weight?_eq_none hweights ?_
    exact Axes.mem_ids_of_mem (List.mem_filter.mpr
      ⟨hn.parentHandles_subset _ hv, by simpa using hn.kind_of_mem_parentHandles hv⟩)
  have hfilter : (p.2.axes.filter keep).filterMap s.weight? = p.2.axes.filterMap s.weight? := by
    rw [List.filterMap_filter]
    refine List.filterMap_congr fun v _ => ?_
    by_cases hv : keep v
    · rw [if_pos hv]
    · rw [if_neg hv, hn.weight?_eq_none hweights (hkeep v hv)]
  rw [Setting.weightOf, hfilter, (hn.table_of_tabled hp).1, List.filterMap_append, hparents,
    Fold.fold_product_rat, weightOf, ← hweights]
  cases h : s.weights.reverse.lookup p.1.handle.id <;> simp [Setting.weight?, h]

theorem utilityAt_tables (hweights : s.weights = n.weights) (x : Assignment) :
    Tables.utilityAt s n.registry n.tables x = n.utility x := by
  rw [Tables.utilityAt, hn.filter_isUtility, List.map_map, utility]
  refine congrArg _ (List.map_congr_left fun p hp => ?_)
  rw [Function.comp_apply, ← hn.weightOf_axes hweights (List.mem_of_mem_filter hp) (fun _ => true)
    (by simp), List.filter_true]

theorem utility_eq_zero (hnone : ∀ m ∈ n.nodes, m.kind ≠ .utility) (x : Assignment) :
    n.utility x = 0 := by
  have hempty : n.utilities = [] := by
    refine List.filter_eq_nil_iff.mpr fun p hp => ?_
    simpa using hnone p.1 (hn.node_of_tabled hp).1
  rw [utility, hempty]
  rfl

/-- Some table is one of a utility if there is a utility. -/
theorem exists_isUtility (h : ∃ m ∈ n.nodes, m.kind = .utility) :
    ∃ t ∈ n.tables, Tables.isUtility n.registry t := by
  obtain ⟨m, hm, hkind⟩ := h
  obtain ⟨t, ht⟩ := hn.exists_tabled hm (by simp [hkind])
  refine ⟨t, ?_, (hn.isUtility_iff ht).mpr hkind⟩
  rw [← hn.map_snd_tabled]
  exact List.mem_map_of_mem (f := (·.2)) ht

end Compiled

end Influence.Network
