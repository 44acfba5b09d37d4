import Influence.Proofs.Network.Compiled
import Influence.Network.Solve

/-! # The structure of a compiled network

What follows from `Network.Compiled` about handles, kinds, ranks and tables.

* The `rank` of a variable is its place in the order of the network, and parents have smaller ranks
  (`Compiled.rank_lt`).
* A table of the network mentions a utility exactly if it is the table of one
  (`Compiled.isUtility_iff`).
* The decisions and what they observe are those of the entries (`Compiled.mem_decisions`,
  `Compiled.parents_handle`). -/

namespace Influence.Network

variable {α : Type} {n : Network α} {m m' : Node} {v : Variable}

/-- The handles of the nodes. -/
def handles (n : Network α) : Axes := n.nodes.map (·.handle)

/-- The number of outcomes of each variable, and one for identities that are not used. -/
def sizes (n : Network α) : VariableId → ℕ := n.handles.sizes fun _ => 1

/-- The place of a variable in the order of the network. -/
def rank (n : Network α) (id : VariableId) : ℕ :=
  n.order.idxOf (n.nodes.findIdx (·.handle.id == id))

/-- The tables of a network, each after those of its parents. -/
def tables (n : Network α) : List (Table α) := n.factors.map (·.table)

/-- The nodes with a table, each with its table. -/
def tabled (n : Network α) : List (Node × Table α) :=
  (n.orderedNodes.filter (·.kind ≠ .decision)).zip n.tables

/-- The chance variables with their tables. -/
def chances (n : Network α) : List (Node × Table α) :=
  n.tabled.filter (·.1.kind = .chance)

/-- The utilities with their tables. -/
def utilities (n : Network α) : List (Node × Table α) :=
  n.tabled.filter (·.1.kind = .utility)

/-- The weight of a utility, which is one unless another is listed. -/
def weightOf (n : Network ℚ) (m : Node) : ℚ := (n.weights.reverse.lookup m.handle.id).getD 1

/-! ### Positions -/

theorem filterMap_getElem?_range {β : Type} (l : List β) :
    (List.range l.length).filterMap (l[·]?) = l := by
  induction l with
  | nil => rfl
  | cons b l ih =>
      rw [List.length_cons, List.range_succ_eq_map, List.filterMap_cons_some (by rfl),
        List.filterMap_map]
      exact congrArg (b :: ·) ih

/-- The position that a name is looked up at is that of its node. -/
theorem getElem?_indexOf (nodes : List Node) (name : String) :
    nodes[Node.indexOf nodes name]? = nodes.find? (·.name == name) :=
  List.find?_eq_getElem?_findIdx.symm

/-! ### Nodes -/

theorem mem_handles : v ∈ n.handles ↔ ∃ m ∈ n.nodes, m.handle = v := List.mem_map

theorem setting_eq_ok {s : Setting α} (h : n.setting = .ok s) :
    n.dependencies.decisionOrder = .ok s.decisionOrder ∧ s.dependencies = n.dependencies ∧
      s.weights = n.weights := by
  unfold setting Setting.ofDependencies at h
  cases horder : n.dependencies.decisionOrder with
  | error e =>
      rw [horder] at h
      cases h
  | ok order =>
      rw [horder] at h
      cases h
      exact ⟨rfl, rfl, rfl⟩

namespace Compiled

variable [Build] (hn : n.Compiled)

include hn

theorem perm_orderedNodes : n.orderedNodes.Perm n.nodes := by
  exact (hn.perm.filterMap _).trans (.of_eq (filterMap_getElem?_range _))

theorem mem_orderedNodes : m ∈ n.orderedNodes ↔ m ∈ n.nodes := hn.perm_orderedNodes.mem_iff

theorem nodup_handles : n.handles.ids.Nodup := hn.declared.distinct

theorem nodup_nodes : n.nodes.Nodup := .of_map _ (Axes.nodup_of_ids hn.nodup_handles)

theorem sized_handles : n.handles.Sized n.sizes := (Axes.agree_of_nodup hn.nodup_handles).sized _

theorem sizes_handle (hm : m ∈ n.nodes) : m.handle.arity = n.sizes m.handle.id :=
  hn.sized_handles m.handle (List.mem_map_of_mem hm)

theorem eq_of_id (hm : m ∈ n.nodes) (hm' : m' ∈ n.nodes) (hid : m.handle.id = m'.handle.id) :
    m = m' := hn.declared.eq_of_handle hm hm' hid

theorem kindOf_of_id (hm : m ∈ n.nodes) (hid : v.id = m.handle.id) :
    n.registry.kindOf v = m.kind := by
  have hmem : m.handle ∈ n.registry.handles := by
    rw [hn.declared.handles]
    exact List.mem_map_of_mem hm
  unfold Registry.kindOf Registry.find?
  rw [hid]
  cases hfind : n.registry.handles.find? (·.id == m.handle.id) with
  | none => exact absurd (List.find?_eq_none.mp hfind _ hmem) (by simp)
  | some v =>
      have hv := List.mem_of_find?_eq_some hfind
      rw [hn.declared.handles] at hv
      obtain ⟨m', hm', rfl⟩ := List.mem_map.mp hv
      rw [hn.eq_of_id hm' hm (by simpa using List.find?_some hfind)]
      rfl

theorem kindOf_handle (hm : m ∈ n.nodes) : n.registry.kindOf m.handle = m.kind :=
  hn.kindOf_of_id hm rfl

theorem parentHandles_subset (m : Node) : n.parentHandles m ⊆ n.handles := by
  intro v hv
  obtain ⟨m', hm', -, rfl⟩ := (mem_handlesOf hn.declared.names).mp hv
  exact List.mem_map_of_mem hm'

/-- Parents are not utilities. -/
theorem kind_of_mem_parentHandles (hv : v ∈ n.parentHandles m) : v.kind ≠ .utility := by
  obtain ⟨m', hm', hname, rfl⟩ := (mem_handlesOf hn.declared.names).mp hv
  obtain ⟨m'', hm'', hname', hkind⟩ := mem_givenOf hn.checked hname
  rwa [List.inj_on_of_nodup_map hn.declared.names hm' hm'' hname'.symm]

theorem rank_handle {i : ℕ} (hi : n.nodes[i]? = some m) :
    n.rank m.handle.id = n.order.idxOf i := by
  obtain ⟨hlt, rfl⟩ := List.getElem?_eq_some_iff.mp hi
  have hindex : n.nodes.findIdx (·.handle.id == n.nodes[i].handle.id) = i := by
    refine (List.findIdx_eq hlt).mpr ⟨beq_self_eq_true _, fun j hj => beq_eq_false_iff_ne.mpr ?_⟩
    intro hid
    have heq := hn.eq_of_id (List.getElem_mem _) (List.getElem_mem _) hid
    exact hj.ne (hn.nodup_nodes.getElem_inj_iff.mp heq)
  rw [rank, hindex]

/-- Parents come before the node. -/
theorem rank_lt (hm : m ∈ n.nodes) (hv : v ∈ n.parentHandles m) :
    n.rank v.id < n.rank m.handle.id := by
  obtain ⟨m', hm', hname, rfl⟩ := (mem_handlesOf hn.declared.names).mp hv
  obtain ⟨i, hi, rfl⟩ := List.getElem_of_mem hm
  have hparent : n.nodes[Node.indexOf n.nodes m'.name]? = some m' := by
    rw [getElem?_indexOf]
    exact (find?_name_eq_some_iff hn.declared.names).mpr ⟨hm', rfl⟩
  rw [hn.rank_handle hparent, hn.rank_handle (List.getElem?_eq_getElem hi)]
  refine hn.respects i _ ?_ (hn.perm.mem_iff.mpr (List.mem_range.mpr hi))
  rw [hn.parents, parentsOf, List.getD_eq_getElem _ _ (by simpa using hi), List.getElem_map]
  exact List.mem_map_of_mem hname

/-! ### Tables -/

theorem forall₂_tables :
    List.Forall₂ (fun m t => t.axes = n.parentHandles m ++ [m.handle] ∧ t.Shaped)
      (n.orderedNodes.filter (·.kind ≠ .decision)) n.tables :=
  List.forall₂_map_right_iff.mpr (hn.factors.imp fun _ _ h => ⟨h.axes, h.shaped⟩)

theorem shaped_tables : ∀ t ∈ n.tables, t.Shaped := by
  intro t ht
  obtain ⟨m, -, h⟩ := exists_left_of_mem hn.forall₂_tables ht
  exact h.2

theorem map_fst_tabled : n.tabled.map (·.1) = n.orderedNodes.filter (·.kind ≠ .decision) :=
  List.map_fst_zip hn.forall₂_tables.length_eq.le

theorem map_snd_tabled : n.tabled.map (·.2) = n.tables :=
  List.map_snd_zip hn.forall₂_tables.length_eq.ge

theorem node_of_tabled {p : Node × Table α} (hp : p ∈ n.tabled) :
    p.1 ∈ n.nodes ∧ p.1.kind ≠ .decision := by
  have hmem : p.1 ∈ n.orderedNodes.filter (·.kind ≠ .decision) := by
    rw [← hn.map_fst_tabled]
    exact List.mem_map_of_mem hp
  obtain ⟨hm, hkind⟩ := List.mem_filter.mp hmem
  exact ⟨hn.mem_orderedNodes.mp hm, by simpa using hkind⟩

theorem table_of_tabled {p : Node × Table α} (hp : p ∈ n.tabled) :
    p.2.axes = n.parentHandles p.1 ++ [p.1.handle] ∧ p.2.Shaped :=
  List.forall₂_zip hn.forall₂_tables hp

/-- Every variable but a decision has a table. -/
theorem exists_tabled (hm : m ∈ n.nodes) (hkind : m.kind ≠ .decision) : ∃ t, (m, t) ∈ n.tabled := by
  have hmem : m ∈ n.tabled.map (·.1) := by
    rw [hn.map_fst_tabled]
    exact List.mem_filter.mpr ⟨hn.mem_orderedNodes.mpr hm, by simpa using hkind⟩
  obtain ⟨p, hp, rfl⟩ := List.mem_map.mp hmem
  exact ⟨p.2, hp⟩

theorem nodup_tabled : (n.tabled.map (·.1.handle.id)).Nodup := by
  have hnodup : (n.orderedNodes.map (·.handle.id)).Nodup := by
    refine (hn.perm_orderedNodes.map _).nodup_iff.mpr ?_
    simpa [handles, Axes.ids, Function.comp_def] using hn.nodup_handles
  have hmap : n.tabled.map (·.1.handle.id) = (n.tabled.map (·.1)).map (·.handle.id) := by
    rw [List.map_map]
    rfl
  rw [hmap, hn.map_fst_tabled]
  exact hnodup.sublist (List.filter_sublist.map _)

theorem kindOf_parent (hv : v ∈ n.parentHandles m) : n.registry.kindOf v ≠ .utility := by
  obtain ⟨m', hm', rfl⟩ := mem_handles.mp (hn.parentHandles_subset m hv)
  rw [hn.kindOf_handle hm']
  exact hn.kind_of_mem_parentHandles hv

/-- The tables that mention a utility are those of the utilities. -/
theorem isUtility_iff {p : Node × Table α} (hp : p ∈ n.tabled) :
    Tables.isUtility n.registry p.2 ↔ p.1.kind = .utility := by
  rw [Tables.isUtility, (hn.table_of_tabled hp).1, List.any_eq_true]
  constructor
  · rintro ⟨v, hv, hkind⟩
    rw [beq_iff_eq] at hkind
    rcases List.mem_append.mp hv with hv | hv
    · exact absurd hkind (hn.kindOf_parent hv)
    · rwa [List.mem_singleton.mp hv, hn.kindOf_handle (hn.node_of_tabled hp).1] at hkind
  · intro hkind
    refine ⟨p.1.handle, by simp, ?_⟩
    rw [hn.kindOf_handle (hn.node_of_tabled hp).1, hkind]
    rfl

theorem filter_isUtility : n.tables.filter (Tables.isUtility n.registry) = n.utilities.map (·.2) := by
  rw [← hn.map_snd_tabled, List.filter_map]
  refine congrArg _ (List.filter_congr fun p hp => ?_)
  rw [Bool.eq_iff_iff, Function.comp_apply, hn.isUtility_iff hp, decide_eq_true_eq]

theorem filter_not_isUtility :
    n.tables.filter (!Tables.isUtility n.registry ·) = n.chances.map (·.2) := by
  rw [← hn.map_snd_tabled, List.filter_map]
  refine congrArg _ (List.filter_congr fun p hp => ?_)
  have hkind := (hn.node_of_tabled hp).2
  rw [Bool.eq_iff_iff, Function.comp_apply, Bool.not_eq_true', ← Bool.not_eq_true,
    hn.isUtility_iff hp, decide_eq_true_eq]
  cases h : p.1.kind <;> simp_all

/-- A network stays compiled while it hands out creation numbers and stores rules. -/
theorem update {r : Registry} (hhandles : r.handles = n.registry.handles)
    (hnext : n.registry.nextFactor ≤ r.nextFactor) (ps : List (Policy α)) :
    Compiled { n with registry := r, policies := ps } where
  declared := ⟨hhandles.trans hn.declared.handles, hn.declared.distinct, hn.declared.names,
    hn.declared.arity, hn.declared.arity_pos, hn.declared.arity_utility⟩
  checked := hn.checked
  complete := hn.complete
  parents := hn.parents
  perm := hn.perm
  respects := hn.respects
  factors := hn.factors.imp fun _ _ h => ⟨h.axes, h.shaped⟩
  ascending := hn.ascending
  numbered := fun f hf => Nat.lt_of_lt_of_le (hn.numbered f hf) hnext
  dependencies := hn.dependencies
  weights := hn.weights

/-- A run starts with the tables of the network. -/
theorem tables_start (r : Registry) : (Workspace.start r n.factors).tables = n.tables :=
  congrArg (List.map _) (Pool.ofList_of_pairwise hn.ascending)

/-! ### Decisions -/

theorem entries_dependencies : n.dependencies.entries =
    (n.orderedNodes.filter (·.kind = .decision)).map fun m => (m.handle, n.parentHandles m) := by
  rw [hn.dependencies, dependenciesOf, Dependencies.entries_foldl_insert]
  · rfl
  · refine List.Nodup.sublist (List.filter_sublist.map _ |>.map _) ?_
    exact ((hn.perm_orderedNodes.map _).map _).nodup_iff.mpr hn.nodup_handles

/-- The decisions are the nodes of that kind. -/
theorem mem_decisions :
    v ∈ n.dependencies.decisions ↔ ∃ m ∈ n.nodes, m.kind = .decision ∧ m.handle = v := by
  rw [Dependencies.decisions, hn.entries_dependencies, List.map_map]
  simp only [List.mem_map, List.mem_filter, hn.mem_orderedNodes, decide_eq_true_eq, and_assoc]
  rfl

theorem nodup_decisions : (Axes.ids n.dependencies.decisions).Nodup := by
  rw [Dependencies.decisions, hn.entries_dependencies, List.map_map]
  refine List.Nodup.sublist (List.filter_sublist.map _ |>.map _) ?_
  exact ((hn.perm_orderedNodes.map _).map _).nodup_iff.mpr hn.nodup_handles

/-- What a decision observes are its parents. -/
theorem parents_handle (hm : m ∈ n.nodes) (hkind : m.kind = .decision) :
    n.dependencies.parents m.handle = n.parentHandles m := by
  refine Dependencies.parents_of_mem hn.nodup_decisions (e := (m.handle, n.parentHandles m)) ?_
  rw [hn.entries_dependencies]
  exact List.mem_map_of_mem (f := fun m : Node => (m.handle, n.parentHandles m))
    (List.mem_filter.mpr ⟨hn.mem_orderedNodes.mpr hm, by simpa using hkind⟩)

end Compiled

/-! ### Tables that fit -/

namespace Compiled

open scoped Exact

variable (hn : n.Compiled)

include hn

theorem fits_of_tabled {p : Node × Table α} (hp : p ∈ n.tabled) : p.2.Fits n.sizes := by
  obtain ⟨haxes, hshaped⟩ := hn.table_of_tabled hp
  refine ⟨hshaped.wellFormed, fun v hv => ?_⟩
  rw [haxes] at hv
  rcases List.mem_append.mp hv with hv | hv
  · exact hn.sized_handles v (hn.parentHandles_subset _ hv)
  · rw [List.mem_singleton.mp hv]
    exact hn.sizes_handle (hn.node_of_tabled hp).1

theorem fits_tables : ∀ t ∈ n.tables, t.Fits n.sizes := by
  intro t ht
  rw [← hn.map_snd_tabled] at ht
  obtain ⟨p, hp, rfl⟩ := List.mem_map.mp ht
  exact hn.fits_of_tabled hp

end Compiled

/-! ### Too many joint outcomes for a word -/

/-- Sixteen letters. -/
def letters : List String :=
  ["a", "b", "c", "d", "e", "f", "g", "h", "i", "j", "k", "l", "m", "n", "o", "p"]

/-- Sixteen fair dice with sixteen sides.  Together they have `2 ^ 64` outcomes. -/
def dice : Definition ℚ where
  declarations := letters.map fun name => ⟨name, "chance", letters⟩
  entries := letters.map fun name => ⟨name, [], some (List.replicate 16 (1 / 16))⟩

/-- Whether to take a prize that does not depend on the dice, after seeing all of them. -/
def gamble : Definition ℚ where
  declarations := dice.declarations ++ [⟨"bet", "decision", ["no", "yes"]⟩, ⟨"prize", "utility", []⟩]
  entries := dice.entries ++ [⟨"bet", letters, none⟩, ⟨"prize", ["bet"], some [0, 1]⟩]

/-- Sixteen dice of which the last depends on all others, with a table that has no cells. -/
def blankDie : Definition ℚ where
  declarations := dice.declarations
  entries := dice.entries.dropLast ++ [⟨"p", letters.dropLast, some []⟩]

end Influence.Network
