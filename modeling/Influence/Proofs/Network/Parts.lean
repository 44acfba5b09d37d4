import Influence.Proofs.Restriction
import Influence.Proofs.Network.Acceptance
import Influence.Proofs.Network.DecisionGraph
import Influence.Proofs.Network.Expectation

/-! # Parts of a network

A network may consist of parts that have no parent in common.  Each part is a network by itself, with
other identities (`Network.IsPart`).  It has the same parents (`IsPart.parentHandles`), the same order of
the variables (`IsPart.orderedNodes`) and of the decisions (`IsPart.decisionOrder`), the same laws
(`IsPart.perm_laws`) and the same utility, to which those of the other parts are added
(`IsPart.utility_eq`). -/

namespace Influence

open scoped Exact

/-- The node whose handle has another identity. -/
def Node.shift (k : VariableId) (m : Node) : Node := { m with handle := m.handle.shift k }

@[simp] theorem Node.name_shift (k : VariableId) (m : Node) : (m.shift k).name = m.name := rfl

@[simp] theorem Node.kind_shift (k : VariableId) (m : Node) : (m.shift k).kind = m.kind := rfl

namespace Network

/-! ### The order of the variables -/

section

variable {α : Type} {n : Network α}

/-- What all variables depend on, in the form that is used for decisions. -/
def parentage (n : Network α) : Dependencies := ⟨n.nodes.map fun m => (m.handle, n.parentHandles m)⟩

theorem decisions_parentage (n : Network α) : n.parentage.decisions = n.handles := by
  rw [Dependencies.decisions, parentage, List.map_map]
  rfl

theorem Compiled.parentPositions_parentage (hn : n.Compiled) : n.parentage.parentPositions = n.parents := by
  have hposition : ∀ m ∈ n.nodes,
      Axes.position? n.handles m.handle = some (Node.indexOf n.nodes m.name) := by
    intro m hm
    rw [← decisions_parentage,
      Dependencies.position?_decisions_eq_some_iff (by rw [decisions_parentage]; exact hn.nodup_handles)]
    refine ⟨m.handle, ?_, rfl⟩
    rw [decisions_parentage, handles, List.getElem?_map, getElem?_indexOf_name hn.declared.names hm]
    rfl
  have hpositions : ∀ {names : List String}, (∀ name ∈ names, ∃ m ∈ n.nodes, m.name = name) →
      (handlesOf n.nodes names).filterMap (Axes.position? n.handles) = names.map (Node.indexOf n.nodes) := by
    intro names h
    induction names with
    | nil => rfl
    | cons name names ih =>
        obtain ⟨⟨m, hm, rfl⟩, hrest⟩ := List.forall_mem_cons.mp h
        have hfind := (find?_name_eq_some_iff hn.declared.names).mpr ⟨hm, rfl⟩
        rw [handlesOf, List.filterMap_cons_some (by rw [hfind]; rfl), ← handlesOf,
          List.filterMap_cons_some (hposition m hm), ih hrest, List.map_cons]
  rw [Dependencies.parentPositions, decisions_parentage, parentage, List.map_map, hn.parents, parentsOf]
  refine List.map_congr_left fun m _ => hpositions fun name hname => ?_
  obtain ⟨m', hm', hname', -⟩ := mem_givenOf hn.checked hname
  exact ⟨m', hm', hname'⟩

theorem Compiled.decisionOrder_parentage (hn : n.Compiled)
    (horder : Precedence.order n.parents = .ok n.order) :
    n.parentage.decisionOrder = .ok (n.orderedNodes.map (·.handle)) := by
  rw [Dependencies.decisionOrder_eq_map_order (by rw [decisions_parentage]; exact hn.nodup_handles),
    hn.parentPositions_parentage, horder, Except.map, Dependencies.decisionsAt, decisions_parentage,
    orderedNodes, List.map_filterMap, handles]
  exact congrArg _ (List.filterMap_congr fun i _ => List.getElem?_map)

theorem Compiled.eq_of_map_handle (hn : n.Compiled) {l l' : List Node} (hl : l ⊆ n.nodes)
    (hl' : l' ⊆ n.nodes) (h : l.map (·.handle) = l'.map (·.handle)) : l = l' := by
  induction l generalizing l' with
  | nil => exact (List.map_eq_nil_iff.mp h.symm).symm
  | cons m l ih =>
      obtain ⟨m', l', rfl, hm', hrest⟩ := List.map_eq_cons_iff.mp h.symm
      obtain ⟨hm, hl⟩ := List.cons_subset.mp hl
      obtain ⟨hm'', hl'⟩ := List.cons_subset.mp hl'
      rw [hn.eq_of_id hm hm'' (congrArg Variable.id hm'.symm), ih hl hl' hrest.symm]

end

/-! ### Parts -/

variable {n n₁ : Network ℚ} {k : VariableId} {m : Node} {x : Assignment}

/-- The handles of a network, with other identities. -/
def own (n : Network ℚ) (k : VariableId) : Axes := n.handles.shift k

/-- The networks agree on the variables of the first one, whose identities are larger by `k` in the second
one, and no other variable has a parent among these. -/
structure IsPart (n₁ n : Network ℚ) (k : VariableId) : Prop where
  nodes : n.nodes.filter (fun m => (n₁.own k).mentions m.handle) = n₁.nodes.map (Node.shift k)
  given : ∀ m ∈ n₁.nodes, givenOf n.entries m.name = givenOf n₁.entries m.name
  outside : ∀ m ∈ n.nodes, ¬(n₁.own k).mentions m.handle →
    ∀ id ∈ (n.parentHandles m).ids, id ∉ (n₁.own k).ids
  tabled : ∀ p ∈ n₁.tabled, (p.1.shift k, p.2.shift k) ∈ n.tabled
  weightOf : ∀ m ∈ n₁.nodes, n.weightOf (m.shift k) = n₁.weightOf m

/-- Names of the part have shifted handles in the larger network. -/
theorem handlesOf_shift {nodes nodes₁ : List Node} (hdistinct : (nodes.map (·.name)).Nodup)
    (hdistinct₁ : (nodes₁.map (·.name)).Nodup) (hnodes : ∀ m ∈ nodes₁, m.shift k ∈ nodes)
    {names : List String} (hnames : ∀ name ∈ names, ∃ m ∈ nodes₁, m.name = name) :
    handlesOf nodes names = (handlesOf nodes₁ names).shift k := by
  induction names with
  | nil => rfl
  | cons name names ih =>
      obtain ⟨⟨m, hm, rfl⟩, hrest⟩ := List.forall_mem_cons.mp hnames
      have hfind₁ := (find?_name_eq_some_iff hdistinct₁).mpr ⟨hm, rfl⟩
      have hfind : nodes.find? (·.name == m.name) = some (m.shift k) :=
        (find?_name_eq_some_iff hdistinct).mpr ⟨hnodes m hm, rfl⟩
      rw [handlesOf, List.filterMap_cons_some (by rw [hfind]; rfl), ← handlesOf, ih hrest,
        handlesOf.eq_def _ (m.name :: names), List.filterMap_cons_some (by rw [hfind₁]; rfl), ← handlesOf]
      rfl

theorem mentions_own_shift (n : Network ℚ) (k : VariableId) (v : Variable) :
    (n.own k).mentions (v.shift k) = n.handles.mentions v := Axes.mentions_shift k n.handles v

theorem mentions_own (hm : m ∈ n.nodes) : (n.own k).mentions (m.handle.shift k) := by
  rw [mentions_own_shift]
  exact Axes.mentions_iff.mpr (Axes.mem_ids_of_mem (mem_handles.mpr ⟨m, hm, rfl⟩))

namespace IsPart

variable (h : n₁.IsPart n k)

include h

theorem mem_nodes (hm : m ∈ n₁.nodes) : m.shift k ∈ n.nodes := by
  have hmem : m.shift k ∈ n.nodes.filter fun m => (n₁.own k).mentions m.handle := by
    rw [h.nodes]
    exact List.mem_map_of_mem hm
  exact List.mem_of_mem_filter hmem

theorem exists_node (hm : m ∈ n.nodes) (hown : (n₁.own k).mentions m.handle) :
    ∃ m₁ ∈ n₁.nodes, m₁.shift k = m := by
  have hmem : m ∈ n.nodes.filter fun m => (n₁.own k).mentions m.handle := List.mem_filter.mpr ⟨hm, hown⟩
  rw [h.nodes] at hmem
  exact List.mem_map.mp hmem

theorem parentHandles (hn : n.Compiled) (hn₁ : n₁.Compiled) (hm : m ∈ n₁.nodes) :
    n.parentHandles (m.shift k) = (n₁.parentHandles m).shift k := by
  rw [Network.parentHandles, Node.name_shift, h.given m hm]
  refine handlesOf_shift hn.declared.names hn₁.declared.names (fun m hm => h.mem_nodes hm)
    fun name hname => ?_
  obtain ⟨m', hm', hname', -⟩ := mem_givenOf hn₁.checked hname
  exact ⟨m', hm', hname'⟩

theorem sizes_add (hn : n.Compiled) (hn₁ : n₁.Compiled) {id : VariableId} (hid : id ∈ n₁.handles.ids) :
    n.sizes (id + k) = n₁.sizes id := by
  obtain ⟨v, hv, rfl⟩ := Axes.mem_ids.mp hid
  obtain ⟨m, hm, rfl⟩ := mem_handles.mp hv
  rw [← hn₁.sizes_handle hm]
  exact (hn.sizes_handle (h.mem_nodes hm)).symm

theorem fits_add (hn : n.Compiled) (hn₁ : n₁.Compiled) {t : Table ℚ} (ht : t.Fits n₁.sizes)
    (hsub : t.axes.ids ⊆ n₁.handles.ids) : t.Fits fun id => n.sizes (id + k) :=
  ⟨ht.wellFormed, fun v hv => by
    rw [h.sizes_add hn hn₁ (hsub (Axes.mem_ids_of_mem hv))]
    exact ht.sized v hv⟩

/-! ### Orders -/

/-- The entries of own nodes observe what they observe in the part. -/
theorem restrictsTo (hn : n.Compiled) (hn₁ : n₁.Compiled) {nodes nodes₁ : List Node}
    (hfilter : nodes.filter (fun m => (n₁.own k).mentions m.handle) = nodes₁.map (Node.shift k))
    (hnodes₁ : nodes₁ ⊆ n₁.nodes) :
    Dependencies.RestrictsTo ⟨nodes.map fun m => (m.handle, n.parentHandles m)⟩
      ⟨nodes₁.map fun m => (m.handle, n₁.parentHandles m)⟩ (n₁.own k) k where
  entries := by
    rw [List.filter_map, List.map_map]
    refine (congrArg (List.map _) hfilter).trans ?_
    rw [List.map_map]
    refine List.map_congr_left fun m hm => ?_
    rw [Function.comp_apply, Function.comp_apply, h.parentHandles hn hn₁ (hnodes₁ hm)]
    rfl
  subset := by
    intro e he id hid
    obtain ⟨m, -, rfl⟩ := List.mem_map.mp he
    refine Axes.mem_ids_shift.mpr ?_
    exact List.map_subset _ (hn₁.parentHandles_subset m) (Axes.mem_ids_shift.mp hid)

/-- The own variables stand in the order that they have by themselves. -/
theorem orderedNodes (hn : n.Compiled) (hn₁ : n₁.Compiled)
    (horder : Precedence.order n.parents = .ok n.order)
    (horder₁ : Precedence.order n₁.parents = .ok n₁.order) :
    n.orderedNodes.filter (fun m => (n₁.own k).mentions m.handle) =
      n₁.orderedNodes.map (Node.shift k) := by
  have hrestricts : n.parentage.RestrictsTo n₁.parentage (n₁.own k) k :=
    h.restrictsTo hn hn₁ h.nodes (List.Subset.refl _)
  obtain ⟨order₁, heq, hfilter⟩ := hrestricts.decisionOrder
    (by rw [decisions_parentage]; exact hn.nodup_handles) (hn.decisionOrder_parentage horder)
  rw [hn₁.decisionOrder_parentage horder₁] at heq
  obtain rfl := Except.ok.inj heq
  refine hn.eq_of_map_handle (fun m hm => hn.mem_orderedNodes.mp (List.mem_of_mem_filter hm)) ?_ ?_
  · intro m hm
    obtain ⟨m₁, hm₁, rfl⟩ := List.mem_map.mp hm
    exact h.mem_nodes (hn₁.mem_orderedNodes.mp hm₁)
  · rw [List.filter_map] at hfilter
    rw [List.map_map]
    refine hfilter.trans ?_
    rw [Axes.shift, List.map_map]
    rfl

/-- The own decisions stand in the order that they have by themselves. -/
theorem decisionOrder (hn : n.Compiled) (hn₁ : n₁.Compiled)
    (horder : Precedence.order n.parents = .ok n.order)
    (horder₁ : Precedence.order n₁.parents = .ok n₁.order) {s s₁ : Setting ℚ} (hs : n.setting = .ok s)
    (hs₁ : n₁.setting = .ok s₁) :
    s.decisionOrder.filter (n₁.own k).mentions = Axes.shift k s₁.decisionOrder := by
  have hnodes : ((n.orderedNodes.filter (·.kind = .decision)).filter
      fun m => (n₁.own k).mentions m.handle) =
        (n₁.orderedNodes.filter (·.kind = .decision)).map (Node.shift k) := by
    rw [List.filter_comm, h.orderedNodes hn hn₁ horder horder₁, List.filter_map]
    rfl
  have hrestricts := h.restrictsTo hn hn₁ hnodes fun m hm =>
    hn₁.mem_orderedNodes.mp (List.mem_of_mem_filter hm)
  rw [← hn.entries_dependencies, ← hn₁.entries_dependencies] at hrestricts
  obtain ⟨order₁, heq, hfilter⟩ := hrestricts.decisionOrder hn.nodup_decisions (setting_eq_ok hs).1
  rw [(setting_eq_ok hs₁).1] at heq
  rw [hfilter, Except.ok.inj heq]

/-! ### Tables -/

/-- The own variables have the tables that they have by themselves. -/
theorem perm_tabled (hn : n.Compiled) (hn₁ : n₁.Compiled) :
    (n.tabled.filter fun p => (n₁.own k).mentions p.1.handle).Perm
      (n₁.tabled.map fun p => (p.1.shift k, p.2.shift k)) := by
  have hnodup : n.tabled.Nodup := .of_map _ hn.nodup_tabled
  refine (List.perm_ext_iff_of_nodup (hnodup.filter _) ?_).mpr fun p => ⟨fun hp => ?_, fun hp => ?_⟩
  · refine List.Nodup.of_map (·.1.handle.id) ?_
    rw [List.map_map]
    have hids : (fun p : Node × Table ℚ => p.1.handle.id) ∘
        (fun p : Node × Table ℚ => (p.1.shift k, p.2.shift k)) =
        (· + k) ∘ fun p : Node × Table ℚ => p.1.handle.id := rfl
    rw [hids, ← List.map_map]
    exact hn₁.nodup_tabled.map fun _ _ => (UInt32.add_left_inj k).mp
  · obtain ⟨hp, hown⟩ := List.mem_filter.mp hp
    obtain ⟨m, hm, hshift⟩ := h.exists_node (hn.node_of_tabled hp).1 hown
    obtain ⟨t, ht⟩ := hn₁.exists_tabled hm (by
      rw [← Node.kind_shift k, hshift]
      exact (hn.node_of_tabled hp).2)
    refine List.mem_map.mpr ⟨(m, t), ht, ?_⟩
    exact List.inj_on_of_nodup_map hn.nodup_tabled (h.tabled _ ht) hp (by rw [← hshift])
  · obtain ⟨p₁, hp₁, rfl⟩ := List.mem_map.mp hp
    exact List.mem_filter.mpr ⟨h.tabled _ hp₁, mentions_own (hn₁.node_of_tabled hp₁).1⟩

theorem perm_tabled_kind (hn : n.Compiled) (hn₁ : n₁.Compiled) (kind : NodeKind) :
    ((n.tabled.filter (·.1.kind = kind)).filter fun p => (n₁.own k).mentions p.1.handle).Perm
      ((n₁.tabled.filter (·.1.kind = kind)).map fun p => (p.1.shift k, p.2.shift k)) := by
  have hperm := (h.perm_tabled hn hn₁).filter fun p => p.1.kind = kind
  rw [List.filter_map] at hperm
  rw [List.filter_comm]
  exact hperm

/-- The own variables have the laws that they have by themselves. -/
theorem perm_laws (hn : n.Compiled) (hn₁ : n₁.Compiled) :
    (n.laws.filter fun l => (n₁.own k).mentions l.head).Perm (n₁.laws.map (Law.shift k)) := by
  have hperm := (h.perm_tabled_kind hn hn₁ .chance).map fun p => (⟨p.1.handle, p.2⟩ : Law)
  rw [List.map_map] at hperm
  rw [laws, laws, List.filter_map, List.map_map]
  exact hperm

/-- The tables of other variables are about other variables. -/
theorem notMem_of_tabled (hn : n.Compiled) {p : Node × Table ℚ} (hp : p ∈ n.tabled)
    (hother : ¬(n₁.own k).mentions p.1.handle) : ∀ id ∈ p.2.axes.ids, id ∉ (n₁.own k).ids := by
  intro id hid
  rw [(hn.table_of_tabled hp).1, Axes.ids_append, List.mem_append] at hid
  rcases hid with hid | hid
  · exact h.outside p.1 (hn.node_of_tabled hp).1 hother id hid
  · rw [show id = p.1.handle.id by simpa using hid]
    exact fun hmem => hother (Axes.mentions_iff.mpr hmem)

/-- **The utilities of other variables are added to the own utility.** -/
theorem utility_eq (hn : n.Compiled) (hn₁ : n₁.Compiled) : ∃ G : Assignment → ℚ, Ignores G (n₁.own k) ∧
    ∀ x, n.utility x = n₁.utility (fun id => x (id + k)) + G x := by
  let others := n.utilities.filter fun p => !(n₁.own k).mentions p.1.handle
  refine ⟨fun x => (others.map fun p => n.weightOf p.1 * p.2.valueAt x).sum, fun x y hxy => ?_, fun x => ?_⟩
  · refine congrArg List.sum (List.map_congr_left fun p hp => ?_)
    obtain ⟨hp, hother⟩ := List.mem_filter.mp hp
    refine congrArg (n.weightOf p.1 * ·) (Table.ignores_valueAt (fun v hv hmem => ?_) x y hxy)
    exact h.notMem_of_tabled hn (List.mem_of_mem_filter hp) (by simpa using hother) v.id hmem
      (Axes.mem_ids_of_mem hv)
  · have hsplit := ((List.filter_append_perm (fun p => (n₁.own k).mentions p.1.handle) n.utilities).symm.map
      fun p => n.weightOf p.1 * p.2.valueAt x).sum_eq
    have hown := ((h.perm_tabled_kind hn hn₁ .utility).map fun p => n.weightOf p.1 * p.2.valueAt x).sum_eq
    rw [List.map_append, List.sum_append] at hsplit
    rw [utility, hsplit, utility]
    refine congrArg (· + _) (hown.trans ?_)
    rw [List.map_map]
    refine congrArg List.sum (List.map_congr_left fun p hp => ?_)
    rw [Function.comp_apply, h.weightOf _ (hn₁.node_of_tabled (List.mem_of_mem_filter hp)).1,
      Table.valueAt_shift]

end IsPart

end Network

end Influence
