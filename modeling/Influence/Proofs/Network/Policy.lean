import Influence.Proofs.Elimination.Choice
import Influence.Proofs.Network.Expectation

/-! # Policies

A policy gives the best rule of a decision in names.  `ruleTable` is the table that it stands for,
over what the decision observes and the decision.

`returns_policyOf`: a policy is made of a rule exactly if the rule depends on nothing else, and its
table has the values of the rule. -/

namespace Influence

open scoped Exact

variable {sizes : VariableId → ℕ} {x : Assignment}

namespace Network

/-! ### Decisions and their parents -/

section

variable {α : Type} {n : Network α} {m : Node}

namespace Compiled

variable [Build] (hn : n.Compiled)

include hn

theorem namesAt_parents {i : ℕ} (hi : n.nodes[i]? = some m) :
    n.parentNames i = givenOf n.entries m.name := by
  obtain ⟨hlt, rfl⟩ := List.getElem?_eq_some_iff.mp hi
  rw [parentNames, namesAt, hn.parents, parentsOf, List.getD_eq_getElem _ _ (by simpa using hlt),
    List.getElem_map, List.filterMap_map]
  refine (List.filterMap_congr fun name hname => ?_).trans List.filterMap_some
  obtain ⟨m', hm', rfl, -⟩ := mem_givenOf hn.checked hname
  rw [Function.comp_apply, getElem?_indexOf,
    (find?_name_eq_some_iff hn.declared.names).mpr ⟨hm', rfl⟩]
  rfl

theorem handlesAt_parents {i : ℕ} (hi : n.nodes[i]? = some m) :
    n.handlesAt (n.parents.getD i []) = n.parentHandles m := by
  obtain ⟨hlt, rfl⟩ := List.getElem?_eq_some_iff.mp hi
  rw [handlesAt, hn.parents, parentsOf, List.getD_eq_getElem _ _ (by simpa using hlt),
    List.getElem_map, List.filterMap_map]
  refine List.filterMap_congr fun name _ => ?_
  rw [Function.comp_apply, getElem?_indexOf]

theorem handlesOf_family (hm : m ∈ n.nodes) :
    handlesOf n.nodes (givenOf n.entries m.name ++ [m.name]) = n.parentHandles m ++ [m.handle] := by
  rw [handlesOf, List.filterMap_append]
  refine congrArg _ (List.filterMap_cons_some ?_)
  rw [(find?_name_eq_some_iff hn.declared.names).mpr ⟨hm, rfl⟩]
  rfl

/-- The parents and the variable of a node with a table or of a decision are distinct. -/
theorem nodup_family (hm : m ∈ n.nodes) : (Axes.ids (n.parentHandles m ++ [m.handle])).Nodup := by
  rw [Axes.ids_append, List.nodup_append]
  refine ⟨hn.declared.nodup_handlesOf (nodup_givenOf hn.checked _), by simp, ?_⟩
  rintro id hid _ hid' rfl
  obtain ⟨v, hv, hid⟩ := Axes.mem_ids.mp hid
  have := hn.rank_lt hm hv
  rw [hid, List.mem_singleton.mp hid'] at this
  exact lt_irrefl _ this

theorem family_subset (hm : m ∈ n.nodes) : n.parentHandles m ++ [m.handle] ⊆ n.handles := by
  intro v hv
  rcases List.mem_append.mp hv with hv | hv
  · exact hn.parentHandles_subset m hv
  · rw [List.mem_singleton.mp hv]
    exact mem_handles.mpr ⟨m, hm, rfl⟩

theorem arity_pos_handles {v : Variable} (hv : v ∈ n.handles) : 0 < v.arity := by
  obtain ⟨m, hm, rfl⟩ := mem_handles.mp hv
  exact hn.declared.arity_pos m hm

/-- A policy has the name of its decision and lists the names of what it observes. -/
theorem exists_returns_conform [Cell α] {r r' : Registry} {res : Resolved α} {p : Policy α}
    (hm : m ∈ n.nodes) (hdecision : res.decision = m.handle)
    (h : Returns (n.policyOf res) r p r') :
    ∃ table expected r₁ r₂,
      Returns (n.conform m.name (n.parentHandles m ++ [m.handle]) res.rule) r table r₁ ∧
      Returns (n.conform m.name (n.parentHandles m ++ [m.handle]) res.combined) r₁ expected r₂ ∧
      p = ⟨m.name, givenOf n.entries m.name, table.cells.toList, expected.cells.toList⟩ := by
  unfold policyOf at h
  rw [hdecision] at h
  cases hfind : n.nodes.findIdx? (·.handle.id == m.handle.id) with
  | none =>
      simp only [hfind, returns_throw] at h
  | some i =>
      obtain ⟨hlt, hid, -⟩ := List.findIdx?_eq_some_iff_getElem.mp hfind
      have hi : n.nodes[i]? = some m := by
        rw [List.getElem?_eq_getElem hlt]
        exact congrArg some (hn.eq_of_id (List.getElem_mem hlt) hm (beq_iff_eq.mp hid))
      simp only [hfind, hi, Option.map_some, Option.getD_some, hn.handlesAt_parents hi,
        hn.namesAt_parents hi, returns_bind, returns_pure] at h
      obtain ⟨table, r₁, htable, expected, r₂, hexpected, rfl, -⟩ := h
      exact ⟨table, expected, r₁, r₂, htable, hexpected, rfl⟩

end Compiled

end

/-! ### Policies as tables -/

variable {n : Network ℚ} {m : Node} {r r' : Registry}

/-- The table that a policy stands for. -/
def ruleTable (n : Network ℚ) (p : Policy ℚ) : Table ℚ :=
  ⟨handlesOf n.nodes (p.given ++ [p.name]), p.table.toArray⟩

/-- The policy stands for a rule of a decision, in the names of the decision and its parents. -/
structure IsPolicy (n : Network ℚ) (d : Variable) (p : Policy ℚ) : Prop where
  named : ∃ m ∈ n.nodes, m.kind = .decision ∧ m.handle = d ∧ p.name = m.name ∧
    p.given = givenOf n.entries m.name
  isRule : n.IsRule d (n.ruleTable p)

/-- A table is laid out over axes that contain its own, and keeps its values. -/
theorem returns_conform {f g : Factor ℚ} {name : String} {axes : Axes} (hf : f.table.Fits sizes)
    (hnodup : axes.ids.Nodup) (hpos : ∀ v ∈ axes, 0 < v.arity) (hsized : axes.Sized sizes)
    (h : Returns (n.conform name axes f) r g r') :
    f.axes.ids ⊆ axes.ids ∧ g.table.Fits sizes ∧ g.axes.ids = axes.ids ∧
      ∀ x : Assignment, x.Valid sizes → g.table.valueAt x = f.table.valueAt x := by
  unfold conform at h
  cases hextra : f.axes.find? fun v => !Axes.mentions axes v with
  | some v =>
      simp only [hextra, returns_bind, returns_throw] at h
      obtain ⟨_, _, h, -⟩ := h
      exact h.elim
  | none =>
      have hsub : f.axes.ids ⊆ axes.ids := by
        intro id hid
        obtain ⟨v, hv, rfl⟩ := Axes.mem_ids.mp hid
        have := List.find?_eq_none.mp hextra v hv
        exact Axes.mentions_iff.mp (by simpa using this)
      -- what is rearranged has the values of `f`, widened or not
      have hrearrange : ∀ (k : Factor ℚ) (r : Registry), k.table.Fits sizes →
          (∀ x : Assignment, x.Valid sizes → k.table.valueAt x = f.table.valueAt x) →
          Returns (k.rearrange axes) r g r' →
          f.axes.ids ⊆ axes.ids ∧ g.table.Fits sizes ∧ g.axes.ids = axes.ids ∧
            ∀ x : Assignment, x.Valid sizes → g.table.valueAt x = f.table.valueAt x := by
        intro k r hk hvalue h
        obtain ⟨horder, rfl, -⟩ := Factor.returns_rearrange.mp h
        have hperm := (Factor.isOrder_iff hk.wellFormed.nodup).mp horder
        exact ⟨hsub, hk.rearrange hperm hsized, Table.ids_rearrange _ _, fun x hx =>
          (hk.valueAt_rearrange hperm hsized hx).trans (hvalue x hx)⟩
      simp only [hextra] at h
      split at h
      · obtain ⟨_, _, hpure, h⟩ := returns_bind.mp h
        obtain ⟨rfl, rfl⟩ := returns_pure.mp hpure
        exact hrearrange f r hf (fun _ _ => rfl) h
      · obtain ⟨ones, _, hones, h⟩ := returns_bind.mp h
        obtain ⟨rfl, rfl⟩ := (Factor.returns_ones (Axes.nodup_ids_filter hnodup _)).mp hones
        obtain ⟨k, _, hproduct, h⟩ := returns_bind.mp h
        obtain ⟨rfl, rfl⟩ := Factor.of_returns_product hproduct
        have hsub' : (axes.filter fun v => !f.mentions v) ⊆ axes := List.filter_sublist.subset
        have hones := Table.fits_ones (α := ℚ) (Axes.nodup_ids_filter hnodup _)
          (fun v hv => hpos v (hsub' hv)) (hsized.subset hsub')
        have hfits : ∀ t ∈ [f.table, .ones (axes.filter fun v => !f.mentions v)], t.Fits sizes := by
          simpa using ⟨hf, hones⟩
        refine hrearrange _ _ (Table.fits_foldAll hfits) (fun x hx => ?_) h
        have hone : (Table.ones (axes.filter fun v => !f.mentions v) : Table ℚ).valueAt x = 1 :=
          Table.valueAt_ones (hx.inRange hones.sized)
        refine (Table.Fits.valueAt_product hfits hx).trans ?_
        rw [List.map_cons, List.map_singleton, List.prod_cons, List.prod_singleton, hone, mul_one]

namespace Compiled

variable (hn : n.Compiled)

include hn

/-- A policy is made of a rule that depends on nothing but what its decision observes. -/
theorem returns_policyOf {res : Resolved ℚ} {p : Policy ℚ} (hm : m ∈ n.nodes)
    (hdecision : res.decision = m.handle) (hfits : res.rule.table.Fits n.sizes)
    (h : Returns (n.policyOf res) r p r') :
    p.name = m.name ∧ p.given = givenOf n.entries m.name ∧
      res.rule.axes.ids ⊆ Axes.ids (n.parentHandles m ++ [m.handle]) ∧
      (n.ruleTable p).Fits n.sizes ∧
      ∀ x : Assignment, x.Valid n.sizes → (n.ruleTable p).valueAt x = res.rule.table.valueAt x := by
  obtain ⟨table, expected, _, _, htable, -, rfl⟩ := hn.exists_returns_conform hm hdecision h
  have hsized := hn.sized_handles.subset (hn.family_subset hm)
  obtain ⟨hsub, hfits', hids, hvalue⟩ := returns_conform hfits (hn.nodup_family hm)
    (fun v hv => hn.arity_pos_handles (hn.family_subset hm hv)) hsized htable
  have hrule : n.ruleTable ⟨m.name, givenOf n.entries m.name, table.cells.toList,
      expected.cells.toList⟩ = ⟨n.parentHandles m ++ [m.handle], table.table.cells⟩ := by
    rw [ruleTable, hn.handlesOf_family hm]
    rfl
  rw [hrule]
  exact ⟨rfl, rfl, hsub, hfits'.of_ids hsized hids.symm, fun x hx =>
    (Table.valueAt_of_ids hfits'.sized hsized hids.symm x).trans (hvalue x hx)⟩

end Compiled

end Network

end Influence
