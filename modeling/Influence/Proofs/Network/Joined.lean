import Influence.Proofs.Network.Composition
import Influence.Proofs.Network.Affine

/-! # Definitions side by side

Identities are issued in the order of the declarations (`Registry.Sequential`).  So if the declarations of
a definition stand together in a larger one (`Definition.IsBlock`), then their variables have identities
that are larger by the same number, and what is compiled from the block is a part of the larger network
(`Network.Compilation.isPart`). -/

namespace Influence

open scoped Exact

/-! ### Identities in order -/

namespace Registry

variable {r r' : Registry}

/-- The identities have been issued from zero on, and the next one is the next candidate. -/
structure Sequential (r : Registry) : Prop where
  ids : Axes.ids r.handles = (List.range r.size).map UInt32.ofNat
  next : r.size < UInt32.size → r.nextVariable = UInt32.ofNat r.size

theorem Sequential.notMem (h : r.Sequential) (hsize : r.size < UInt32.size) :
    UInt32.ofNat r.size ∉ Axes.ids r.handles := by
  rw [h.ids, List.mem_map]
  rintro ⟨i, hi, heq⟩
  rw [List.mem_range] at hi
  have heq := congrArg UInt32.toNat heq
  rw [UInt32.toNat_ofNat_of_lt' (by omega), UInt32.toNat_ofNat_of_lt' hsize] at heq
  omega

/-- The next variable gets the next identity. -/
theorem Sequential.add (h : r.Sequential) (hsize : r.size < UInt32.size) {kind : NodeKind} {arity : ℕ}
    {v : Variable} (hadd : Returns (Registry.add kind arity) r v r') : r'.Sequential := by
  have hfree : r.firstFree r.size r.nextVariable = UInt32.ofNat r.size := by
    rw [h.next hsize]
    cases hn : r.size with
    | zero => rfl
    | succ n =>
        rw [firstFree, if_neg]
        rw [issued_iff, ← hn]
        exact h.notMem hsize
  unfold Registry.add at hadd
  simp only [returns_bind, returns_get, returns_set, returns_addWithId] at hadd
  obtain ⟨_, _, ⟨rfl, rfl⟩, _, _, rfl, -, -, rfl, rfl⟩ := hadd
  have hsize' : ((({ r with nextVariable := r.firstFree r.size r.nextVariable } : Registry).issue
      ⟨r.firstFree r.size r.nextVariable, arity, kind⟩).size) = r.size + 1 := by
    simp [size]
  constructor
  case ids =>
    rw [hsize', List.range_succ, List.map_append, ← h.ids, issue_handles, Axes.ids_append, hfree]
    rfl
  case next =>
    rw [hsize']
    intro hlt
    have hnat : (UInt32.ofNat r.size + 1).toNat = r.size + 1 := by
      rw [UInt32.toNat_add, UInt32.toNat_ofNat_of_lt' hsize]
      exact Nat.mod_eq_of_lt hlt
    have hne : ¬UInt32.ofNat r.size + 1 = 0 := fun hzero => by
      rw [hzero] at hnat
      cases hnat
    have hless : UInt32.ofNat r.size < UInt32.ofNat r.size + 1 := by
      rw [UInt32.lt_iff_toNat_lt, hnat, UInt32.toNat_ofNat_of_lt' hsize]
      exact Nat.lt_succ_self _
    rw [issue]
    simp only [hfree, idAfter, if_neg hne, if_pos hless]
    exact (UInt32.ofNat_add r.size 1).symm

end Registry

/-! ### Blocks -/

namespace Definition

variable {α : Type} {d D : Definition α} {k : VariableId} {name parent : String} {kind : NodeKind}

/-- The declared names. -/
def names (d : Definition α) : List String := d.declarations.map (·.name)

/-- The declarations of the first definition stand together in the second one, after `k` others.  It has
the same entries there, and no other entry lists one of its names among the parents. -/
structure IsBlock (d D : Definition α) (k : VariableId) : Prop where
  declarations : ∃ before after, D.declarations = before ++ (d.declarations ++ after) ∧
    UInt32.ofNat before.length = k
  entries : D.entries.filter (fun e => e.target ∈ d.names) = d.entries
  closed : ∀ e ∈ D.entries, e.target ∉ d.names → ∀ name ∈ e.given, name ∉ d.names

theorem Declares.mem_names (h : d.Declares name kind) : name ∈ d.names := by
  obtain ⟨x, hx, rfl, -⟩ := h
  exact List.mem_map_of_mem hx

namespace IsBlock

variable (h : d.IsBlock D k)

include h

theorem mem_declarations {x : Declaration} (hx : x ∈ d.declarations) : x ∈ D.declarations := by
  obtain ⟨before, after, heq, -⟩ := h.declarations
  simp [heq, hx]

theorem mem_entries_iff {e : Entry α} (he : e.target ∈ d.names) : e ∈ D.entries ↔ e ∈ d.entries := by
  rw [← h.entries, List.mem_filter]
  simp [he]

theorem mem_declarations_iff (hnames : D.names.Nodup) {x : Declaration} (hx : x.name ∈ d.names) :
    x ∈ D.declarations ↔ x ∈ d.declarations := by
  refine ⟨fun hmem => ?_, h.mem_declarations⟩
  obtain ⟨y, hy, hname⟩ := List.mem_map.mp hx
  rwa [← List.inj_on_of_nodup_map hnames (h.mem_declarations hy) hmem hname]

theorem declares_iff (hnames : D.names.Nodup) (hname : name ∈ d.names) :
    D.Declares name kind ↔ d.Declares name kind := by
  refine exists_congr fun x => and_congr_left ?_
  rintro ⟨rfl, -⟩
  exact h.mem_declarations_iff hnames hname

theorem isParent_iff (hname : name ∈ d.names) : D.IsParent parent name ↔ d.IsParent parent name := by
  refine exists_congr fun e => and_congr_left ?_
  rintro ⟨rfl, -⟩
  exact h.mem_entries_iff hname

theorem outcomeCount_eq (hnames : D.names.Nodup) (hname : name ∈ d.names) :
    D.outcomeCount name = d.outcomeCount name := by
  obtain ⟨before, after, heq, -⟩ := h.declarations
  obtain ⟨x, hx, rfl⟩ := List.mem_map.mp hname
  have hbefore : before.find? (·.name == x.name) = none := by
    refine List.find?_eq_none.mpr fun y hy heq' => ?_
    rw [names, heq, List.map_append, List.map_append, List.nodup_append] at hnames
    exact hnames.2.2 y.name (List.mem_map_of_mem hy) x.name
      (List.mem_append_left _ (List.mem_map_of_mem hx)) (by simpa using heq')
  rw [outcomeCount, outcomeCount, heq, List.find?_append, hbefore, Option.none_or, List.find?_append]
  cases hfind : d.declarations.find? (·.name == x.name) with
  | none => exact absurd (List.find?_eq_none.mp hfind x hx) (by simp)
  | some y => rfl

theorem entryOf?_eq (hname : name ∈ d.names) :
    Network.entryOf? D.entries name = Network.entryOf? d.entries name := by
  rw [Network.entryOf?, Network.entryOf?, ← h.entries, List.find?_filter]
  refine congrArg (List.find? · D.entries) (funext fun e => ?_)
  by_cases htarget : e.target = name
  · simp [htarget, hname]
  · simp [htarget]

theorem givenOf_eq (hname : name ∈ d.names) :
    Network.givenOf D.entries name = Network.givenOf d.entries name := by
  rw [Network.givenOf, Network.givenOf, h.entryOf?_eq hname]

/-- What leads to an own name is an own name. -/
theorem transGen_isParent (hgiven : ∀ e ∈ d.entries, ∀ name ∈ e.given, name ∈ d.names)
    (hchain : Relation.TransGen D.IsParent parent name) (hname : name ∈ d.names) :
    Relation.TransGen d.IsParent parent name := by
  induction hchain with
  | single hedge => exact .single ((h.isParent_iff hname).mp hedge)
  | tail _ hedge ih =>
      have hedge := (h.isParent_iff hname).mp hedge
      obtain ⟨e, he, -, hmem⟩ := id hedge
      exact .tail (ih (hgiven e he _ hmem)) hedge

end IsBlock

end Definition

namespace Network

variable {α : Type} [Cell α] {nodes nodes' : List Node} {r r' : Registry} {xs : List Declaration}

omit [Cell α] in
theorem sequential_declareAll (hr : r.Sequential) (hsize : r.size + xs.length ≤ UInt32.size)
    (h : Returns (xs.foldlM declare nodes) r nodes' r') : r'.Sequential := by
  induction xs generalizing nodes r with
  | nil =>
      obtain ⟨-, rfl⟩ := returns_pure.mp h
      exact hr
  | cons x xs ih =>
      obtain ⟨nodes₁, r₁, hfirst, hrest⟩ := returns_foldlM_cons.mp h
      rw [List.length_cons] at hsize
      unfold declare at hfirst
      simp only [returns_bind, returns_except, returns_guard, returns_pure] at hfirst
      obtain ⟨_, _, ⟨-, rfl⟩, -, _, _, ⟨-, rfl⟩, v, _, hadd, -, rfl⟩ := hfirst
      obtain ⟨-, -, -, -, hhandles, -⟩ := Registry.returns_add hadd
      refine ih (hr.add (by omega) hadd) ?_ hrest
      simp only [Registry.size, hhandles, List.length_append, List.length_singleton] at hsize ⊢
      omega

/-- The identity of a variable is its place among the declarations. -/
theorem Compilation.id_of_getElem? {d : Definition α} {config : Config α} {n : Network α}
    (h : Compilation d config n r) {i : ℕ} {m : Node} (hi : n.nodes[i]? = some m) :
    m.handle.id = UInt32.ofNat i := by
  have hseq : r.Sequential :=
    sequential_declareAll (r := {}) ⟨rfl, fun _ => rfl⟩
      (by simpa [Registry.size] using h.length_declarations) h.declare
  have hids := hseq.ids
  rw [h.declared.handles, Axes.ids, List.map_map] at hids
  have hget := congrArg (·[i]?) hids
  simp only [List.getElem?_map, hi, Option.map_some, Function.comp_apply] at hget
  obtain ⟨j, hj, hid⟩ := Option.map_eq_some_iff.mp hget.symm
  rw [← hid, (List.getElem?_eq_some_iff.mp hj).2.symm, List.getElem_range]

/-! ### Compiled blocks -/

/-- Nodes for the same declaration differ in their identities only. -/
theorem Stands.eq_shift {x : Declaration} {m m' : Node} {k : VariableId} (hm : Stands x m)
    (hm' : Stands x m') (harity : m.handle.arity = m.outcomes.length)
    (harity' : m'.handle.arity = m'.outcomes.length) (hid : m'.handle.id = m.handle.id + k) :
    m' = m.shift k := by
  have hdeclaration : m'.declaration = m.declaration := hm'.declaration.trans hm.declaration.symm
  have hkind : m'.handle.kind = m.handle.kind := Option.some.inj (hm'.kind.symm.trans hm.kind)
  rw [Node.outcomes, hdeclaration, ← Node.outcomes, ← harity] at harity'
  obtain ⟨declaration, handle⟩ := m
  obtain ⟨declaration', handle'⟩ := m'
  simp only [Node.shift, Variable.shift, Node.mk.injEq]
  exact ⟨hdeclaration, congr (congr (congrArg Variable.mk hid) harity') hkind⟩

namespace Compilation

variable {d D : Definition ℚ} {c C : Config ℚ} {n₁ n : Network ℚ} {r₁ : Registry} {k : VariableId}
  {m : Node} {p : Node × Table ℚ}

theorem names_eq (h : Compilation D C n r) : n.names = D.names := map_name_of_stands h.stands

/-- Every table has been compiled from an entry. -/
theorem exists_returns_of_tabled (h : Compilation D C n r) (hp : p ∈ n.tabled) :
    ∃ f t t', Returns (compileTable C n.nodes D.entries p.1) t f t' ∧ f.table = p.2 := by
  rw [Network.tabled, Network.tables, List.zip_map_right] at hp
  obtain ⟨⟨m, f⟩, hmem, rfl⟩ := List.mem_map.mp hp
  obtain ⟨t, t', hf⟩ := List.forall₂_zip (forall₂_of_returns_mapM h.tables) hmem
  exact ⟨f, t, t', hf, rfl⟩

variable (h₁ : Compilation d c n₁ r₁) (h : Compilation D C n r) (hblock : d.IsBlock D k)

include h₁ h hblock

/-- The nodes of a block stand together. -/
theorem exists_nodes_eq : ∃ before after, n.nodes = before ++ (n₁.nodes.map (Node.shift k) ++ after) := by
  obtain ⟨before, after, heq, hk⟩ := hblock.declarations
  have hlength := h.stands.length_eq
  have hlength₁ := h₁.stands.length_eq
  simp only [heq, List.length_append] at hlength
  have hmiddle : (n.nodes.drop before.length).take n₁.nodes.length = n₁.nodes.map (Node.shift k) := by
    refine List.ext_getElem (by simp; omega) fun i hi hi' => ?_
    rw [List.length_map] at hi'
    rw [List.getElem_take, List.getElem_drop, List.getElem_map]
    have hlt : i < d.declarations.length := by omega
    have hlt' : before.length + i < D.declarations.length := by
      simp [heq]
      omega
    have hsame : D.declarations[before.length + i] = d.declarations[i] := by
      simp only [heq]
      rw [List.getElem_append_right (by omega), List.getElem_append_left (by omega)]
      simp
    have hstands := h.stands.get hlt' (by omega)
    have hstands₁ := h₁.stands.get hlt hi'
    simp only [List.get_eq_getElem] at hstands hstands₁
    rw [hsame] at hstands
    refine hstands₁.eq_shift hstands (h₁.declared.arity _ (List.getElem_mem _))
      (h.declared.arity _ (List.getElem_mem _)) ?_
    rw [h.id_of_getElem? (List.getElem?_eq_getElem _), h₁.id_of_getElem? (List.getElem?_eq_getElem _), ← hk,
      ← UInt32.ofNat_add, Nat.add_comm]
  refine ⟨n.nodes.take before.length, n.nodes.drop (before.length + n₁.nodes.length), ?_⟩
  rw [← hmiddle, ← List.drop_drop, List.take_append_drop, List.take_append_drop]

/-- A table that is compiled from an entry of the block. -/
theorem table_eq_shift (hnormalize : C.normalizeChance = c.normalizeChance) (hm : m ∈ n₁.nodes)
    (hnodes : ∀ m ∈ n₁.nodes, m.shift k ∈ n.nodes) {f g : Factor ℚ} {t t' u u' : Registry}
    (hf : Returns (compileTable c n₁.nodes d.entries m) t f t')
    (hg : Returns (compileTable C n.nodes D.entries (m.shift k)) u g u') :
    g.table = f.table.shift k := by
  have hname : m.name ∈ d.names := h₁.names_eq ▸ List.mem_map_of_mem hm
  obtain ⟨axes, cells, haxes, hcells, -, -, -, hf⟩ := returns_compileTable_iff.mp hf
  obtain ⟨axes', cells', haxes', hcells', -, -, -, hg⟩ := returns_compileTable_iff.mp hg
  rw [Node.name_shift, hblock.entryOf?_eq hname, hcells] at hcells'
  obtain rfl := Option.some.inj hcells'
  obtain rfl : axes' = axes.shift k := by
    rw [haxes, haxes', Node.name_shift, hblock.givenOf_eq hname, Axes.shift_append,
      handlesOf_shift h.declared.names h₁.declared.names hnodes fun name hname => ?_]
    · rfl
    · obtain ⟨m', hm', hname', -⟩ := mem_givenOf h₁.checked hname
      exact ⟨m', hm', hname'⟩
  rw [Node.kind_shift, hnormalize] at hg
  split at hf
  next hchance =>
    rw [if_pos hchance] at hg
    rw [hf.1, hg.1]
    exact Table.normalizeFor_shift k ⟨axes, cells.toArray⟩ m.handle
  next hchance =>
    rw [if_neg hchance] at hg
    rw [hf.1, hg.1]
    rfl

/-- **What is compiled from a block is a part of the network.** -/
theorem isPart (hnormalize : C.normalizeChance = c.normalizeChance)
    (hweight : ∀ name ∈ d.names, C.weight name = c.weight name) : n₁.IsPart n k := by
  obtain ⟨before, after, hsplit⟩ := h₁.exists_nodes_eq h hblock
  have hnodes : ∀ m ∈ n₁.nodes, m.shift k ∈ n.nodes := fun m hm => by
    rw [hsplit]
    exact List.mem_append_right _ (List.mem_append_left _ (List.mem_map_of_mem hm))
  have hname : ∀ m ∈ n₁.nodes, m.name ∈ d.names := fun m hm => h₁.names_eq ▸ List.mem_map_of_mem hm
  have hown : ∀ m ∈ n.nodes, (n₁.own k).mentions m.handle ↔ m ∈ n₁.nodes.map (Node.shift k) := by
    intro m hm
    constructor
    · intro hmentions
      obtain ⟨v, hv, hid⟩ := Axes.mem_ids.mp (Axes.mentions_iff.mp hmentions)
      obtain ⟨w, hw, rfl⟩ := List.mem_map.mp hv
      obtain ⟨m₁, hm₁, rfl⟩ := mem_handles.mp hw
      obtain rfl : m₁.shift k = m := h.compiled.eq_of_id (hnodes m₁ hm₁) hm hid
      exact List.mem_map_of_mem hm₁
    · intro hmem
      obtain ⟨m₁, hm₁, rfl⟩ := List.mem_map.mp hmem
      exact mentions_own hm₁
  constructor
  case nodes =>
    have hnodup := h.compiled.nodup_nodes
    have hmem := List.filter_congr fun m hm =>
      Bool.eq_iff_iff.mpr ((hown m hm).trans decide_eq_true_iff.symm)
    rw [hmem, hsplit, List.filter_append, List.filter_append]
    rw [hsplit, List.nodup_append, List.nodup_append] at hnodup
    obtain ⟨-, ⟨-, -, hafter⟩, hbefore⟩ := hnodup
    rw [List.filter_eq_nil_iff.mpr fun m hm hmiddle => ?_,
      List.filter_eq_self.mpr fun m hm => by simpa using hm,
      List.filter_eq_nil_iff.mpr fun m hm hmiddle => ?_, List.nil_append, List.append_nil]
    · exact hafter m (of_decide_eq_true hmiddle) m hm rfl
    · exact hbefore m hm m (List.mem_append_left _ (of_decide_eq_true hmiddle)) rfl
  case given =>
    intro m hm
    rw [h.entries, h₁.entries, hblock.givenOf_eq (hname m hm)]
  case outside =>
    intro m hm hother id hid hmem
    have hforeign : m.name ∉ d.names := by
      rw [← h₁.names_eq, names, List.mem_map]
      rintro ⟨m₁, hm₁, hname⟩
      obtain rfl := List.inj_on_of_nodup_map h.declared.names (hnodes m₁ hm₁) hm hname
      exact hother (mentions_own hm₁)
    obtain ⟨v, hv, rfl⟩ := Axes.mem_ids.mp hid
    obtain ⟨m', hm', hgiven, rfl⟩ := (mem_handlesOf h.declared.names).mp hv
    rw [h.entries, mem_givenOf_iff h.checked.targets] at hgiven
    obtain ⟨e, he, htarget, hgiven⟩ := hgiven
    obtain ⟨m₁, hm₁, rfl⟩ := List.mem_map.mp ((hown m' hm').mp (Axes.mentions_iff.mpr hmem))
    exact hblock.closed e he (htarget ▸ hforeign) _ hgiven (hname m₁ hm₁)
  case tabled =>
    intro p hp
    obtain ⟨hm, hkind⟩ := h₁.compiled.node_of_tabled hp
    obtain ⟨u, hu⟩ := h.compiled.exists_tabled (hnodes p.1 hm) hkind
    obtain ⟨f, _, _, hf, hfp⟩ := h₁.exists_returns_of_tabled hp
    obtain ⟨g, _, _, hg, rfl⟩ := h.exists_returns_of_tabled hu
    rwa [h₁.table_eq_shift h hblock hnormalize hm hnodes hf hg, hfp] at hu
  case weightOf =>
    intro m hm
    rw [h.weightOf_eq (hnodes m hm), h₁.weightOf_eq hm]
    exact hweight m.name (hname m hm)

end Compilation

end Network

end Influence
