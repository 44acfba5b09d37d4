import Influence.Proofs.Dependencies
import Influence.Proofs.Factor
import Influence.Proofs.Network.Declared
import Influence.Proofs.Precedence

/-! # Compiled networks

`Network.Compiled` collects what holds of every network that `Network.compile` returns
(`compiled_of_compile`), and what the questions to a network rely on. -/

namespace Influence.Network

variable {α : Type}

/-- The nodes, each after its parents. -/
def orderedNodes (n : Network α) : List Node := n.order.filterMap (n.nodes[·]?)

/-- The handles of the parents of a node. -/
def parentHandles (n : Network α) (m : Node) : Axes :=
  handlesOf n.nodes (givenOf n.entries m.name)

/-- The factor is one of a table of a node over its parents. -/
structure IsTableOf [Build] (n : Network α) (m : Node) (f : Factor α) : Prop where
  axes : f.axes = n.parentHandles m ++ [m.handle]
  shaped : f.table.Shaped

/-- What holds of a network that has been compiled. -/
structure Compiled [Build] (n : Network α) : Prop where
  declared : Declared n.nodes n.registry
  checked : Checked n.nodes n.entries
  complete : ∀ m ∈ n.nodes, m.kind ≠ .decision → ∃ e ∈ n.entries, e.target = m.name
  parents : n.parents = parentsOf n.nodes n.entries
  perm : n.order.Perm (List.range n.nodes.length)
  respects : Precedence.Respects n.parents n.order
  factors : List.Forall₂ n.IsTableOf (n.orderedNodes.filter (·.kind ≠ .decision)) n.factors
  ascending : n.factors.Pairwise (·.id < ·.id)
  numbered : ∀ f ∈ n.factors, f.id < n.registry.nextFactor
  dependencies : n.dependencies = dependenciesOf n.nodes n.entries n.orderedNodes
  weights : ∀ w ∈ n.weights, ∃ m ∈ n.nodes, m.kind = .utility ∧ m.handle.id = w.1

variable {nodes : List Node} {entries : List (Entry α)} {r₀ r r' : Registry}

theorem nodup_givenOf (hchecked : Checked nodes entries) (name : String) :
    (givenOf entries name).Nodup := by
  unfold givenOf entryOf?
  cases h : entries.find? (·.target == name) with
  | none => simp
  | some e => exact hchecked.distinct e (List.mem_of_find?_eq_some h)

theorem mem_givenOf (hchecked : Checked nodes entries) {name parent : String}
    (h : parent ∈ givenOf entries name) : ∃ m ∈ nodes, m.name = parent ∧ m.kind ≠ .utility := by
  unfold givenOf entryOf? at h
  cases hfind : entries.find? (·.target == name) with
  | none => simp [hfind] at h
  | some e =>
      rw [hfind] at h
      exact hchecked.given e (List.mem_of_find?_eq_some hfind) parent h

section

variable [Build]

/-- A table is accepted if its cells are numbers, one for each joint outcome of distinct axes. -/
theorem returns_compileTable_iff [Cell α] {config : Config α} {m : Node} {f : Factor α} :
    Returns (compileTable config nodes entries m) r f r' ↔
      ∃ axes table, axes = handlesOf nodes (givenOf entries m.name) ++ [m.handle] ∧
        (entryOf? entries m.name).bind (·.table) = some table ∧
        (∀ x ∈ table, Cell.nonFinite? x = none) ∧ axes.ids.Nodup ∧ table.length = axes.size ∧
        if m.kind = .chance ∧ config.normalizeChance then
          f = ⟨r.nextFactor + 2, Table.normalizeFor ⟨axes, table.toArray⟩ m.handle⟩ ∧ r' = r.after 3
        else f = ⟨r.nextFactor, ⟨axes, table.toArray⟩⟩ ∧ r' = r.after 1 := by
  unfold compileTable
  cases (entryOf? entries m.name).bind (·.table) with
  | none => simp only [returns_throw, reduceCtorEq, false_and, and_false, exists_false]
  | some table =>
      cases hfinite : table.findSome? Cell.nonFinite? with
      | some value =>
          obtain ⟨x, hx, hvalue⟩ := List.exists_of_findSome?_eq_some hfinite
          simp only [hfinite, returns_bind, returns_throw, false_and, exists_false, false_iff]
          rintro ⟨_, _, -, ⟨⟩, hall, -⟩
          rw [hall x hx] at hvalue
          cases hvalue
      | none =>
          simp only [hfinite, returns_bind, Factor.returns_create_some, List.size_toArray]
          have hmention : ∀ k, (Factor.mk k (Table.mk (handlesOf nodes (givenOf entries m.name) ++
              [m.handle]) table.toArray)).mentions m.handle := fun k =>
            Table.mentions_iff.mpr (by simp)
          constructor
          · rintro ⟨_, _, ⟨hnodup, hsize, rfl, rfl⟩, h⟩
            refine ⟨_, table, rfl, rfl, List.findSome?_eq_none_iff.mp hfinite, hnodup, hsize, ?_⟩
            split at h
            next hnormalize =>
              rw [if_pos hnormalize]
              exact (Factor.of_returns_normalizeFor h).2
            next hnormalize =>
              rw [if_neg hnormalize]
              obtain ⟨rfl, rfl⟩ := returns_pure.mp h
              exact ⟨rfl, rfl⟩
          · rintro ⟨_, _, rfl, ⟨⟩, -, hnodup, hsize, h⟩
            refine ⟨_, _, ⟨hnodup, hsize, rfl, rfl⟩, ?_⟩
            split at h
            next hnormalize =>
              rw [if_pos hnormalize]
              have hlast := Table.ids_without_append_of_last rfl rfl hnodup
              exact (Factor.returns_normalizeFor_of_last (by exact hnodup) (by exact hlast)).mpr
                ⟨hmention _, h⟩
            next hnormalize =>
              rw [if_neg hnormalize]
              exact returns_pure.mpr ⟨h.1.symm, h.2.symm⟩

theorem returns_compileTable [Cell α] {config : Config α} {m : Node} {f : Factor α}
    (hdeclared : Declared nodes r₀) (hm : m ∈ nodes)
    (h : Returns (compileTable config nodes entries m) r f r') :
    f.axes = handlesOf nodes (givenOf entries m.name) ++ [m.handle] ∧ f.table.Shaped ∧
      ∃ k, r' = r.after k ∧ r.nextFactor ≤ f.id ∧ f.id < r.nextFactor + k := by
  obtain ⟨axes, table, haxes, -, -, hnodup, hsize, h⟩ := returns_compileTable_iff.mp h
  have hpos : ∀ v ∈ axes, 0 < v.arity := by
    intro v hv
    rw [haxes] at hv
    rcases List.mem_append.mp hv with hv | hv
    · obtain ⟨m', hm', -, rfl⟩ := (mem_handlesOf hdeclared.names).mp hv
      exact hdeclared.arity_pos m' hm'
    · rw [List.mem_singleton.mp hv]
      exact hdeclared.arity_pos m hm
  have hshaped : (⟨axes, table.toArray⟩ : Table α).Shaped := ⟨hnodup, hpos, hsize⟩
  split at h
  · obtain ⟨rfl, rfl⟩ := h
    refine ⟨?_, hshaped.normalizeFor (Table.mentions_iff.mpr (by simp [haxes]))
      (hdeclared.arity_pos m hm), 3, rfl, ?_, ?_⟩
    · change (Table.moveLast _ m.handle).axes = _
      rw [Table.moveLast_of_last haxes hnodup, haxes]
    · exact Nat.le_add_right _ 2
    · exact Nat.lt_succ_self _
  · obtain ⟨rfl, rfl⟩ := h
    exact ⟨haxes, hshaped, 1, rfl, Nat.le_refl _, Nat.lt_succ_self _⟩

/-- The factors of the tables get ascending creation numbers. -/
theorem returns_compileTables [Cell α] {config : Config α} {ms : List Node} {fs : List (Factor α)}
    (hdeclared : Declared nodes r₀) (hms : ms ⊆ nodes)
    (h : Returns (ms.mapM (compileTable config nodes entries)) r fs r') :
    List.Forall₂ (fun m f => f.axes = handlesOf nodes (givenOf entries m.name) ++ [m.handle] ∧
        f.table.Shaped) ms fs ∧
      fs.Pairwise (·.id < ·.id) ∧ (∀ f ∈ fs, r.nextFactor ≤ f.id ∧ f.id < r'.nextFactor) ∧
      ∃ k, r' = r.after k := by
  induction ms generalizing r fs with
  | nil =>
      obtain ⟨rfl, rfl⟩ := returns_mapM_nil.mp h
      exact ⟨.nil, .nil, by simp, 0, rfl⟩
  | cons m ms ih =>
      obtain ⟨f, r₁, rest, hfirst, hrest, rfl⟩ := returns_mapM_cons.mp h
      obtain ⟨hm, hms⟩ := List.cons_subset.mp hms
      obtain ⟨haxes, hshaped, k, rfl, hlow, hhigh⟩ := returns_compileTable hdeclared hm hfirst
      obtain ⟨hall, hascending, hnumbers, n, rfl⟩ := ih hms hrest
      simp only [Registry.after_nextFactor] at hnumbers ⊢
      refine ⟨.cons ⟨haxes, hshaped⟩ hall, ?_, ?_, k + n, Registry.after_after r k n⟩
      · refine List.pairwise_cons.mpr ⟨fun g hg => ?_, hascending⟩
        exact Nat.lt_of_lt_of_le hhigh (hnumbers g hg).1
      · intro g hg
        rcases List.mem_cons.mp hg with rfl | hg
        · omega
        · have := hnumbers g hg
          omega

/-! ### The passes of the compiler -/

/-- The passes by which a definition is compiled to a network, the registry `r` being what the
declarations leave. -/
structure Compilation [Cell α] (d : Definition α) (config : Config α) (n : Network α)
    (r : Registry) : Prop where
  check : config.check = .ok ()
  declare : Returns (declareAll d.declarations) {} n.nodes r
  checkEntries : Network.checkEntries n.nodes [] d.entries = .ok ()
  checkComplete : Network.checkComplete n.nodes d.entries = .ok ()
  order : Precedence.order n.parents = .ok n.order
  tables : Returns ((n.orderedNodes.filter (·.kind ≠ .decision)).mapM
    (compileTable config n.nodes d.entries)) r n.factors n.registry
  resolve : List.Forall₂ (fun w w' => resolveWeight n.nodes w = .ok w') config.weights n.weights
  entries : n.entries = d.entries
  config : n.config = config
  parents : n.parents = parentsOf n.nodes d.entries
  dependencies : n.dependencies = dependenciesOf n.nodes d.entries n.orderedNodes
  policies : n.policies = []

/-- A definition compiles to what its passes return. -/
theorem compile_eq_ok_iff [Cell α] {d : Definition α} {config : Config α} {n : Network α} :
    compile d config = .ok n ↔ ∃ r, Compilation d config n r := by
  have hrun : compile d config = .ok n ↔ ∃ r, Returns (compileWith d config) {} n r := by
    constructor
    · exact fun h => ⟨((compileWith d config).run {}).2, Prod.ext h rfl⟩
    · rintro ⟨r, h⟩
      exact congrArg Prod.fst h
  rw [hrun]
  unfold compileWith
  simp only [returns_bind, returns_except, returns_get, returns_pure, returns_mapM_except]
  constructor
  · rintro ⟨_, _, _, ⟨hcheck, rfl⟩, nodes, r₁, hdeclare, _, _, ⟨hentries, rfl⟩, _, _,
      ⟨hcomplete, rfl⟩, order, _, ⟨horder, rfl⟩, factors, r₂, hfactors, weights, _,
      ⟨hweights, rfl⟩, _, _, ⟨rfl, rfl⟩, rfl, rfl⟩
    exact ⟨r₁, hcheck, hdeclare, hentries, hcomplete, horder, hfactors, hweights, rfl, rfl, rfl, rfl,
      rfl⟩
  · obtain ⟨nodes, _, _, registry, _, order, factors, _, weights, _⟩ := n
    rintro ⟨r₁, hcheck, hdeclare, hentries, hcomplete, horder, hfactors, hweights, hentries', hconfig,
      hparents, hdependencies, hpolicies⟩
    simp only [orderedNodes] at *
    subst hentries' hconfig hparents hdependencies hpolicies
    exact ⟨registry, _, _, ⟨hcheck, rfl⟩, nodes, r₁, hdeclare, _, _, ⟨hentries, rfl⟩, _, _,
      ⟨hcomplete, rfl⟩, order, _, ⟨horder, rfl⟩, factors, registry, hfactors, weights, _,
      ⟨hweights, rfl⟩, _, _, ⟨rfl, rfl⟩, rfl, rfl⟩

theorem compiled_of_compile [Cell α] {d : Definition α} {config : Config α} {n : Network α}
    (h : compile d config = .ok n) : n.Compiled ∧ n.policies = [] := by
  obtain ⟨r, h⟩ := compile_eq_ok_iff.mp h
  obtain ⟨hdeclared, -⟩ := declared_declareAll h.declare
  obtain ⟨hperm, hrespects⟩ := Precedence.order_sound h.order
  obtain ⟨hall, hascending, hnumbers, k, hregistry⟩ := returns_compileTables hdeclared
    (fun m hm => by
      obtain ⟨i, -, hi⟩ := List.mem_filterMap.mp (List.mem_of_mem_filter hm)
      exact List.mem_of_getElem? hi) h.tables
  refine ⟨?_, h.policies⟩
  constructor
  case declared =>
    rw [hregistry]
    exact ⟨hdeclared.handles, hdeclared.distinct, hdeclared.names, hdeclared.arity,
      hdeclared.arity_pos, hdeclared.arity_utility⟩
  case checked =>
    rw [h.entries]
    exact (checkEntries_eq_ok_iff hdeclared.names).mp h.checkEntries
  case complete =>
    rw [h.entries]
    exact checkComplete_eq_ok_iff.mp h.checkComplete
  case parents => rw [h.parents, h.entries]
  case perm => rwa [h.parents, length_parentsOf] at hperm
  case respects => exact hrespects
  case factors =>
    rw [← h.entries] at hall
    exact hall.imp fun m f h => ⟨h.1, h.2⟩
  case ascending => exact hascending
  case numbered => exact fun f hf => (hnumbers f hf).2
  case dependencies => rw [h.dependencies, h.entries]
  case weights =>
    intro w hw
    obtain ⟨weight, -, hresolve⟩ := exists_left_of_mem h.resolve hw
    simp only [resolveWeight, except_bind_eq_ok, except_guard_eq_ok, ne_eq, not_not] at hresolve
    obtain ⟨m, hfind, hkind, hw⟩ := hresolve
    obtain ⟨hm, -⟩ := (find_eq_ok_iff hdeclared.names).mp hfind
    refine ⟨m, hm, hkind, ?_⟩
    rw [← Except.ok.inj hw]

end

/-! ### Compiling once more -/

/-- Outcomes that have been filled in stay as they are. -/
theorem filledOutcomes_filled {d : Declaration} {kind : NodeKind} {outcomes : List String}
    (h : filledOutcomes d kind = .ok outcomes) :
    filledOutcomes { d with outcomes } kind = .ok outcomes := by
  obtain ⟨name, text, given⟩ := d
  have hchecked : ∀ kind, kind ≠ .utility →
      filledOutcomes ⟨name, text, given⟩ kind = .ok outcomes → given = outcomes := by
    intro kind hkind h
    cases kind with
    | utility => exact absurd rfl hkind
    | chance | decision =>
        cases given with
        | nil => cases h
        | cons x xs =>
            simp only [filledOutcomes] at h
            split at h
            · cases h
            · exact Except.ok.inj h
  by_cases hkind : kind = .utility
  · subst hkind
    match given, h with
    | [], h =>
        cases h
        rfl
    | [x], h =>
        cases h
        rfl
  · obtain rfl := hchecked kind hkind h
    exact h

theorem returns_declare_again {nodes nodes' : List Node} {d : Declaration}
    (h : Returns (declare nodes d) r nodes' r') :
    ∃ m, nodes' = nodes ++ [m] ∧ Returns (declare nodes m.declaration) r nodes' r' := by
  unfold declare at h ⊢
  simp only [returns_bind, returns_except, returns_guard, returns_pure] at h ⊢
  obtain ⟨kind, _, ⟨hkind, rfl⟩, hname, outcomes, _, ⟨houtcomes, rfl⟩, v, _, hadd, rfl, rfl⟩ := h
  exact ⟨_, rfl, kind, _, ⟨hkind, rfl⟩, hname, outcomes, _, ⟨filledOutcomes_filled houtcomes, rfl⟩,
    v, _, hadd, rfl, rfl⟩

theorem returns_declareAll_again {ds : List Declaration} {nodes nodes' : List Node}
    (h : Returns (ds.foldlM declare nodes) r nodes' r') :
    ∃ ms, nodes' = nodes ++ ms ∧
      Returns ((ms.map (·.declaration)).foldlM declare nodes) r nodes' r' := by
  induction ds generalizing nodes r with
  | nil =>
      obtain ⟨rfl, rfl⟩ := returns_pure.mp h
      exact ⟨[], (List.append_nil _).symm, returns_pure.mpr ⟨rfl, rfl⟩⟩
  | cons d ds ih =>
      obtain ⟨nodes₁, r₁, hfirst, hrest⟩ := returns_foldlM_cons.mp h
      obtain ⟨m, rfl, hagain⟩ := returns_declare_again hfirst
      obtain ⟨ms, rfl, hrest'⟩ := ih hrest
      refine ⟨m :: ms, by simp, ?_⟩
      rw [List.map_cons]
      exact returns_foldlM_cons.mpr ⟨_, r₁, hagain, hrest'⟩

/-- **The definition of a compiled network compiles to the same network.** -/
theorem compile_definition [Build] [Cell α] {definition : Definition α} {config : Config α} {n : Network α}
    (h : compile definition config = .ok n) : compile n.definition n.config = .ok n := by
  obtain ⟨r, h⟩ := compile_eq_ok_iff.mp h
  obtain ⟨ms, hms, hdeclare⟩ := returns_declareAll_again h.declare
  rw [List.nil_append] at hms
  have hentries : n.definition.entries = definition.entries := h.entries
  refine compile_eq_ok_iff.mpr ⟨r, ?_⟩
  constructor
  case check => exact h.config ▸ h.check
  case declare =>
    rw [← hms] at hdeclare
    exact hdeclare
  case checkEntries => exact hentries ▸ h.checkEntries
  case checkComplete => exact hentries ▸ h.checkComplete
  case order => exact h.order
  case tables =>
    rw [hentries, h.config]
    exact h.tables
  case resolve => exact h.config ▸ h.resolve
  case entries => rfl
  case config => rfl
  case parents => exact hentries ▸ h.parents
  case dependencies => exact hentries ▸ h.dependencies
  case policies => exact h.policies

end Influence.Network
