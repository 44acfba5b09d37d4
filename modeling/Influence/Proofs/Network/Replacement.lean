import Influence.Proofs.Network.Acceptance
import Influence.Proofs.Network.History
import Influence.Proofs.Network.Rules
import Influence.Proofs.Network.Shapes

/-! # Replaced tables

A call that replaces a table compiles the definition anew.  It succeeds exactly if the variable can have
a table and the table has a finite cell for each joint outcome (`Network.AdmitsTable`), since everything else
has been checked before.  The joint outcomes are counted by a word, so that it can be too small
(`Network.exists_replaceTable_fewCells`).  What it leaves differs from the network before in that table alone
(`Network.Replaces`), and two tables can be replaced in either order
(`Network.replaceTable_replaces`). -/

namespace Influence

variable {α : Type}

/-! ### Definitions with another table -/

namespace Definition

variable {d : Definition α} {name other : String} {table table' : List α}

/-- The entry in a definition with another table. -/
def withTableAt (name : String) (table : List α) (e : Entry α) : Entry α :=
  if e.target == name then { e with table := some table } else e

theorem entries_withTable (d : Definition α) (name : String) (table : List α) :
    (d.withTable name table).entries = d.entries.map (withTableAt name table) := rfl

@[simp] theorem withTableAt_target (name : String) (table : List α) (e : Entry α) :
    (withTableAt name table e).target = e.target := by
  unfold withTableAt
  split <;> rfl

@[simp] theorem withTableAt_given (name : String) (table : List α) (e : Entry α) :
    (withTableAt name table e).given = e.given := by
  unfold withTableAt
  split <;> rfl

theorem withTableAt_table (name : String) (table : List α) (e : Entry α) :
    (withTableAt name table e).table = if e.target = name then some table else e.table := by
  unfold withTableAt
  by_cases h : e.target = name <;> simp [h]

theorem withTable_comm (h : name ≠ other) (d : Definition α) (table table' : List α) :
    (d.withTable name table).withTable other table' =
      (d.withTable other table').withTable name table := by
  have hentry : ∀ e : Entry α, withTableAt other table' (withTableAt name table e) =
      withTableAt name table (withTableAt other table' e) := by
    intro e
    by_cases hname : e.target = name
    · simp [withTableAt, hname, h]
    · simp only [withTableAt, hname, beq_iff_eq, if_false]
      split <;> simp
  have hentries : ((d.withTable name table).withTable other table').entries =
      ((d.withTable other table').withTable name table).entries := by
    simp only [entries_withTable, List.map_map]
    exact List.map_congr_left fun e _ => hentry e
  exact congrArg (Definition.mk d.declarations) hentries

theorem sameShape_withTable (h : ∀ e ∈ d.entries, e.target = name → e.table ≠ none) :
    List.Forall₂ Entry.SameShape d.entries (d.withTable name table).entries := by
  rw [entries_withTable, List.forall₂_map_right_iff, List.forall₂_same]
  intro e he
  refine ⟨withTableAt_target _ _ e, withTableAt_given _ _ e, ?_⟩
  rw [withTableAt_table]
  split
  next htarget => simp [h e he htarget]
  next => rfl

/-- A definition stays well-formed with another table of the right size. -/
theorem WellFormed.withTable [Build] [Cell α] {config : Config α} (h : d.WellFormed config)
    (hdecision : ¬d.Declares name .decision) (hfinite : ∀ cell ∈ table, Cell.nonFinite? cell = none)
    (hcount : ∀ e ∈ d.entries, e.target = name →
      table.length = Build.word ((e.given ++ [name]).map d.outcomeCount).prod) :
    (d.withTable name table).WellFormed config := by
  have hmem : ∀ e' ∈ (d.withTable name table).entries, ∃ e ∈ d.entries, withTableAt name table e = e' :=
    fun e' he' => List.mem_map.mp he'
  constructor
  case weights_finite => exact h.weights_finite
  case weights_distinct => exact h.weights_distinct
  case weights_utility => exact h.weights_utility
  case declarations => exact h.declarations
  case names => exact h.names
  case targets_declared =>
    intro e' he'
    obtain ⟨e, he, rfl⟩ := hmem e' he'
    rw [withTableAt_target]
    exact h.targets_declared e he
  case targets_distinct =>
    rw [entries_withTable, List.map_map]
    simpa [Function.comp_def] using h.targets_distinct
  case given_declared =>
    intro e' he'
    obtain ⟨e, he, rfl⟩ := hmem e' he'
    rw [withTableAt_given]
    exact h.given_declared e he
  case given_distinct =>
    intro e' he'
    obtain ⟨e, he, rfl⟩ := hmem e' he'
    rw [withTableAt_given]
    exact h.given_distinct e he
  case tables =>
    intro e' he'
    obtain ⟨e, he, rfl⟩ := hmem e' he'
    rw [withTableAt_target, withTableAt_table]
    split
    next htarget =>
      rw [htarget]
      exact iff_of_false (Option.some_ne_none table) hdecision
    next => exact h.tables e he
  case complete =>
    intro x hx hkind
    obtain ⟨e, he, htarget⟩ := h.complete x hx hkind
    exact ⟨_, List.mem_map_of_mem he, (withTableAt_target name table e).trans htarget⟩
  case acyclic =>
    have hparent : (d.withTable name table).IsParent ≤ d.IsParent := by
      rintro parent child ⟨e', he', htarget, hgiven⟩
      obtain ⟨e, he, rfl⟩ := hmem e' he'
      rw [withTableAt_target] at htarget
      rw [withTableAt_given] at hgiven
      exact ⟨e, he, htarget, hgiven⟩
    exact fun name hcycle => h.acyclic name (Relation.TransGen.mono hparent name name hcycle)
  case cells_finite =>
    intro e' he' cells hcells
    obtain ⟨e, he, rfl⟩ := hmem e' he'
    rw [withTableAt_table] at hcells
    split at hcells
    next =>
      obtain rfl := Option.some.inj hcells
      exact hfinite
    next => exact h.cells_finite e he cells hcells
  case cells_count =>
    intro e' he' cells hcells
    obtain ⟨e, he, rfl⟩ := hmem e' he'
    rw [withTableAt_target, withTableAt_given]
    rw [withTableAt_table] at hcells
    split at hcells
    next htarget =>
      obtain rfl := Option.some.inj hcells
      rw [htarget]
      exact hcount e he htarget
    next => exact h.cells_count e he cells hcells

end Definition

namespace Network

section

variable [Build] [Cell α] {d d' : Definition α} {config : Config α} {n n' m : Network α} {r r' : Registry}
  {name : String} {table : List α} {a : Node}

/-! ### Two definitions of the same shape -/

theorem nodes_of_shapes (h : Compilation d config n r) (h' : Compilation d' config n' r')
    (hdeclarations : d'.declarations = d.declarations) : n'.nodes = n.nodes ∧ r' = r := by
  have hdeclare := h'.declare
  rw [hdeclarations] at hdeclare
  exact hdeclare.unique h.declare

/-- What is compiled from the declarations and the shapes of the entries. -/
theorem Compilation.congr (h : Compilation d config n r) (h' : Compilation d' config n' r')
    (hdeclarations : d'.declarations = d.declarations)
    (hshapes : List.Forall₂ Entry.SameShape d.entries d'.entries) :
    n'.nodes = n.nodes ∧ n'.registry.handles = n.registry.handles ∧ n'.parents = n.parents ∧
      n'.order = n.order ∧ n'.dependencies = n.dependencies ∧ n'.weights = n.weights := by
  obtain ⟨hnodes, rfl⟩ := nodes_of_shapes h h' hdeclarations
  have hparents : n'.parents = n.parents := by
    rw [h'.parents, h.parents, hnodes, parentsOf, parentsOf, givenOf_congr hshapes]
  have horder : n'.order = n.order := by
    have horder := h'.order
    rw [hparents, h.order] at horder
    exact (Except.ok.inj horder).symm
  refine ⟨hnodes, ?_, hparents, horder, ?_, ?_⟩
  · rw [h'.compiled.declared.handles, h.compiled.declared.handles, hnodes]
  · rw [h'.dependencies, h.dependencies, orderedNodes, orderedNodes, horder, hnodes, dependenciesOf,
      dependenciesOf, givenOf_congr hshapes]
  · have hunique : Relator.RightUnique fun (w : String × α) (w' : VariableId × α) =>
        resolveWeight n.nodes w = .ok w' := fun _ _ _ hw hw' => Except.ok.inj (hw.symm.trans hw')
    have hresolve := h'.resolve
    rw [hnodes] at hresolve
    exact hunique.forall₂ hresolve h.resolve

/-- A factor compiled from the same entry is the same table. -/
theorem table_eq_of_returns_compileTable {nodes : List Node} {t t' u u' : Registry} {f g : Factor α}
    (hgiven : givenOf d'.entries = givenOf d.entries)
    (hentry : entryOf? d'.entries a.name = entryOf? d.entries a.name)
    (hf : Returns (compileTable config nodes d.entries a) t f t')
    (hg : Returns (compileTable config nodes d'.entries a) u g u') : g.table = f.table := by
  obtain ⟨_, cells, rfl, hcells, -, -, -, hf⟩ := returns_compileTable_iff.mp hf
  obtain ⟨_, cells', rfl, hcells', -, -, -, hg⟩ := returns_compileTable_iff.mp hg
  rw [hentry, hcells] at hcells'
  obtain rfl := Option.some.inj hcells'
  rw [hgiven] at hg
  split at hf
  next hnormalize =>
    rw [if_pos hnormalize] at hg
    rw [hf.1, hg.1]
  next hnormalize =>
    rw [if_neg hnormalize] at hg
    rw [hf.1, hg.1]

/-- What two factors at one position have in common. -/
theorem Compilation.factors_congr (h : Compilation d config n r) (h' : Compilation d' config n' r')
    (hdeclarations : d'.declarations = d.declarations)
    (hshapes : List.Forall₂ Entry.SameShape d.entries d'.entries) :
    List.Forall₂ (fun f g => g.axes = f.axes ∧ ∃ a ∈ n.nodes, n.IsTableOf a f ∧
      (entryOf? d'.entries a.name = entryOf? d.entries a.name → g.cells = f.cells) ∧
      n'.HoldsTable d' config a.name g) n.factors n'.factors := by
  obtain ⟨hnodes, -, -, horder, -⟩ := h.congr h' hdeclarations hshapes
  have hgiven := givenOf_congr hshapes
  have hordered : n'.orderedNodes = n.orderedNodes := by rw [orderedNodes, orderedNodes, hnodes, horder]
  have htables := forall₂_of_returns_mapM h.tables
  have htables' := forall₂_of_returns_mapM h'.tables
  rw [hordered, hnodes] at htables'
  refine forall₂_of_common htables htables' ?_
  rintro a ha f g ⟨t, t', hf⟩ ⟨u, u', hg⟩
  have hmem : a ∈ n.nodes := h.compiled.mem_orderedNodes.mp (List.mem_of_mem_filter ha)
  obtain ⟨haxes, hwellFormed, -⟩ := returns_compileTable h.declared hmem hf
  obtain ⟨haxes', -⟩ := returns_compileTable h.declared hmem hg
  rw [hgiven, ← haxes] at haxes'
  rw [← hnodes] at hg
  obtain ⟨e, he, htarget, table, htable, -, -, hnamed, hcells⟩ := h'.exists_table (hnodes ▸ hmem) hg
  refine ⟨haxes', a, hmem, ⟨by rw [haxes, parentHandles, h.entries], hwellFormed⟩, fun hentry => ?_,
    e, he, htarget, table, htable, hnamed, hcells⟩
  rw [hnodes] at hg
  exact congrArg Table.cells (table_eq_of_returns_compileTable hgiven hentry hf hg)

/-! ### The call -/

/-- The table can be that of a variable: it is a chance variable or a utility, and the table has a finite
cell for each joint outcome of its parents and itself, as far as a word can count them. -/
def AdmitsTable (n : Network α) (name : String) (table : List α) : Prop :=
  ∃ a ∈ n.nodes, a.name = name ∧ (a.kind = .chance ∨ a.kind = .utility) ∧
    table.length = Build.word ((n.parentHandles a ++ [a.handle]).map (·.arity)).prod ∧
    ∀ cell ∈ table, Cell.nonFinite? cell = none

instance (n : Network α) (name : String) (table : List α) : Decidable (n.AdmitsTable name table) :=
  inferInstanceAs (Decidable (∃ a ∈ n.nodes, _))

/-- The second network is the first one with another table for one name, and without stored rules. -/
structure Replaces (name : String) (table : List α) (n n' : Network α) : Prop where
  declarations : n'.definition.declarations = n.definition.declarations
  entries : List.Forall₂ (fun e e' => e'.target = e.target ∧ e'.given = e.given ∧
    e'.table = if e.target = name then some table else e.table) n.definition.entries n'.definition.entries
  options : n'.config = n.config
  nodes : n'.nodes = n.nodes
  handles : n'.registry.handles = n.registry.handles
  parents : n'.parents = n.parents
  order : n'.order = n.order
  dependencies : n'.dependencies = n.dependencies
  weights : n'.weights = n.weights
  policies : n'.policies = []
  /-- Position by position the factors are over the same axes, and those of other names hold the same
  cells. -/
  factors : List.Forall₂ (fun f g => g.axes = f.axes ∧ ∃ a ∈ n.nodes, n.IsTableOf a f ∧
    (a.name ≠ name → g.cells = f.cells) ∧
    n'.HoldsTable (n.definition.withTable name table) n.config a.name g) n.factors n'.factors

theorem returns_replaceTable_iff {u : Unit} :
    Returns (NetworkM.replaceTable name table) m u n ↔
      (∃ e, entryOf? m.entries name = some e ∧ e.table ≠ none) ∧
        compile (m.definition.withTable name table) m.config = .ok n := by
  unfold NetworkM.replaceTable
  rw [returns_bind]
  constructor
  · rintro ⟨_, _, hget, h⟩
    obtain ⟨rfl, rfl⟩ := returns_get.mp hget
    cases hentry : entryOf? m.entries name with
    | none =>
        simp only [hentry] at h
        split at h <;> exact (returns_throw.mp h).elim
    | some e =>
        simp only [hentry, returns_guard, returns_bind, returns_except, returns_set] at h
        obtain ⟨htable, n', _, ⟨hcompile, rfl⟩, rfl⟩ := h
        exact ⟨⟨e, rfl, by simpa using htable⟩, hcompile⟩
  · rintro ⟨⟨e, hentry, htable⟩, hcompile⟩
    refine ⟨m, m, returns_get.mpr ⟨rfl, rfl⟩, ?_⟩
    simp only [hentry, returns_guard, returns_bind, returns_except, returns_set]
    exact ⟨by simpa using htable, n, m, ⟨hcompile, rfl⟩, rfl⟩

/-- In names, a variable that can have a table is one for which a definition declares no decision. -/
theorem Compilation.admitsTable_iff (h : Compilation d config n r) :
    n.AdmitsTable name table ↔ ∃ e ∈ d.entries, e.target = name ∧ ¬d.Declares name .decision ∧
      table.length = Build.word ((e.given ++ [name]).map d.outcomeCount).prod ∧
      ∀ cell ∈ table, Cell.nonFinite? cell = none := by
  have hnames := h.declared.names
  have hsize : ∀ a ∈ n.nodes, ∀ e ∈ d.entries, e.target = a.name →
      ((n.parentHandles a ++ [a.handle]).map (·.arity)).prod =
        ((e.given ++ [a.name]).map d.outcomeCount).prod := by
    intro a ha e he htarget
    have hgiven : givenOf d.entries a.name = e.given := by
      rw [givenOf, (entryOf?_eq_some_iff h.checked.targets).mpr ⟨he, htarget⟩]
      rfl
    rw [← prod_arities, parentHandles, h.entries, hgiven, ← handlesOf_append_singleton hnames ha,
      count_handlesOf h.stands h.declared (h.checked.exists_node he ha)]
  constructor
  · rintro ⟨a, ha, rfl, hkind, hlength, hfinite⟩
    have hkind' : a.kind ≠ .decision := by rcases hkind with hkind | hkind <;> simp [hkind]
    obtain ⟨e, he, htarget⟩ := h.compiled.complete a ha hkind'
    rw [h.entries] at he
    rw [hsize a ha e he htarget] at hlength
    exact ⟨e, he, htarget, by rwa [declares_name_iff h.stands hnames ha], hlength, hfinite⟩
  · rintro ⟨e, he, rfl, hdecision, hlength, hfinite⟩
    obtain ⟨a, ha, htarget, -⟩ := h.checked.declared e he
    rw [← htarget] at hdecision hlength
    rw [declares_name_iff h.stands hnames ha] at hdecision
    rw [← hsize a ha e he htarget.symm] at hlength
    refine ⟨a, ha, htarget, ?_, hlength, hfinite⟩
    cases hkind : a.kind with
    | chance => exact .inl rfl
    | decision => exact absurd hkind hdecision
    | utility => exact .inr rfl

omit [Build] [Cell α] in
theorem entryOf?_withTable {other : String} (h : other ≠ name) :
    entryOf? (d.withTable name table).entries other = entryOf? d.entries other := by
  have hmap : entryOf? (d.withTable name table).entries other =
      (entryOf? d.entries other).map (Definition.withTableAt name table) := by
    rw [Definition.entries_withTable, entryOf?, List.find?_map]
    simp only [Function.comp_def, Definition.withTableAt_target]
    rfl
  rw [hmap]
  cases hentry : entryOf? d.entries other with
  | none => rfl
  | some e =>
      have htarget : e.target = other := by simpa using List.find?_some hentry
      simp [Definition.withTableAt, htarget, h]

variable {f : Network α}

/-- A table that can be that of a variable replaces its table, and no other does. -/
theorem Fresh.exists_returns_replaceTable_iff (hf : f.Fresh) (k : ℕ) (ps : List (Policy α)) :
    (∃ m, Returns (NetworkM.replaceTable name table) (f.advanced k ps) ⟨⟩ m) ↔
      f.AdmitsTable name table := by
  obtain ⟨r, h⟩ := compile_eq_ok_iff.mp hf.again
  have hwellFormed := h.wellFormed
  simp only [returns_replaceTable_iff, h.admitsTable_iff]
  constructor
  · rintro ⟨m, ⟨e, hentry, -⟩, hcompile⟩
    obtain ⟨r', h'⟩ := compile_eq_ok_iff.mp hcompile
    obtain ⟨he, htarget⟩ := (entryOf?_eq_some_iff h.checked.targets).mp hentry
    have hmem : Definition.withTableAt name table e ∈ (f.definition.withTable name table).entries :=
      List.mem_map_of_mem he
    have htable : (Definition.withTableAt name table e).table = some table := by
      rw [Definition.withTableAt_table, if_pos htarget]
    refine ⟨e, he, htarget, fun hdecision => ?_, ?_, h'.wellFormed.cells_finite _ hmem _ htable⟩
    · have hnone := (h'.wellFormed.tables _ hmem).mpr
      rw [Definition.withTableAt_target, htarget, htable] at hnone
      cases hnone hdecision
    · have hcount := h'.wellFormed.cells_count _ hmem _ htable
      rwa [Definition.withTableAt_target, Definition.withTableAt_given, htarget] at hcount
  · rintro ⟨e, he, htarget, hdecision, hlength, hfinite⟩
    have hdefinition : (f.definition.withTable name table).WellFormed f.config := by
      refine hwellFormed.withTable hdecision hfinite fun e' he' htarget' => ?_
      rw [List.inj_on_of_nodup_map hwellFormed.targets_distinct he' he (htarget'.trans htarget.symm)]
      exact hlength
    obtain ⟨m, hm⟩ := exists_compile hdefinition h.length_declarations
    refine ⟨m, ⟨e, (entryOf?_eq_some_iff h.checked.targets).mpr ⟨he, htarget⟩, fun hnone => ?_⟩, hm⟩
    exact hdecision (htarget ▸ (hwellFormed.tables e he).mp hnone)

/-- What replaces a table changes nothing else. -/
theorem Fresh.replaces (hf : f.Fresh) {k : ℕ} {ps : List (Policy α)}
    (hreturns : Returns (NetworkM.replaceTable name table) (f.advanced k ps) ⟨⟩ m) :
    Replaces name table (f.advanced k ps) m := by
  obtain ⟨⟨e, hentry, htable⟩, hcompile⟩ := returns_replaceTable_iff.mp hreturns
  obtain ⟨r, h⟩ := compile_eq_ok_iff.mp hf.again
  obtain ⟨r', h'⟩ := compile_eq_ok_iff.mp hcompile
  have hshapes : List.Forall₂ Entry.SameShape f.definition.entries
      (f.definition.withTable name table).entries := by
    refine Definition.sameShape_withTable fun e' he' htarget' => ?_
    obtain ⟨he, htarget⟩ := (entryOf?_eq_some_iff h.checked.targets).mp hentry
    rwa [List.inj_on_of_nodup_map h.checked.targets he' he (htarget'.trans htarget.symm)]
  obtain ⟨hnodes, hhandles, hparents, horder, hdependencies, hweights⟩ := h.congr h' rfl hshapes
  constructor
  case declarations => exact congrArg (List.map _) hnodes
  case entries =>
    rw [definition_entries m, h'.entries, Definition.entries_withTable, List.forall₂_map_right_iff,
      List.forall₂_same]
    exact fun e _ => ⟨Definition.withTableAt_target _ _ e, Definition.withTableAt_given _ _ e,
      Definition.withTableAt_table _ _ e⟩
  case options => exact h'.config
  case nodes => exact hnodes
  case handles => exact hhandles
  case parents => exact hparents
  case order => exact horder
  case dependencies => exact hdependencies
  case weights => exact hweights
  case policies => exact h'.policies
  case factors =>
    refine (h.factors_congr h' rfl hshapes).imp ?_
    rintro f g ⟨haxes, a, ha, htableOf, hcells, hholds⟩
    exact ⟨haxes, a, ha, ⟨htableOf.axes, htableOf.shaped⟩,
      fun hne => hcells (entryOf?_withTable hne), hholds⟩

theorem Replaces.definition (h : Replaces name table n n') :
    n'.definition = n.definition.withTable name table := by
  have hentries : List.Forall₂ (fun e e' => Definition.withTableAt name table e = e')
      n.definition.entries n'.definition.entries := by
    refine h.entries.imp ?_
    rintro e ⟨target, given, cells⟩ ⟨rfl, rfl, rfl⟩
    rw [← Definition.withTableAt_table, ← Definition.withTableAt_target name table e,
      ← Definition.withTableAt_given name table e]
  have hmap : n'.definition.entries = (n.definition.withTable name table).entries :=
    (List.forall₂_eq_eq_eq ▸ List.forall₂_map_left_iff.mpr hentries :
      n.definition.entries.map (Definition.withTableAt name table) = n'.definition.entries).symm
  exact congrArg₂ Definition.mk h.declarations hmap

theorem Replaces.givenOf (h : Replaces name table n n') :
    Network.givenOf n'.entries = Network.givenOf n.entries :=
  givenOf_congr_of_rel h.entries (fun _ _ he => he.1) fun _ _ he => he.2.1

theorem Replaces.admitsTable_iff (h : Replaces name table n n') {other : String} {table' : List α} :
    n'.AdmitsTable other table' ↔ n.AdmitsTable other table' := by
  simp only [AdmitsTable, parentHandles, h.nodes, h.givenOf]

theorem IsReachable.of_returns_replaceTable (h : m.IsReachable)
    (hreturns : Returns (NetworkM.replaceTable name table) m ⟨⟩ n) : n.IsReachable := by
  obtain ⟨definition, config, start, calls, hcompile, rfl⟩ := h
  refine ⟨definition, config, start, calls ++ [.replaceTable name table], hcompile, ?_⟩
  have hcall : Returns (Call.replaceTable name table).run (start.afterCalls calls) .done n :=
    returns_bind.mpr ⟨⟨⟩, n, hreturns, returns_pure.mpr ⟨rfl, rfl⟩⟩
  rw [afterCalls, List.foldl_append]
  exact (congrArg Prod.snd hcall).symm

/-- **A table is replaced exactly if the variable can have it, and nothing else changes.**  The tables of
two variables can be replaced in either order, with the same network as the result. -/
theorem replaceTable_replaces (h : m.IsReachable) :
    (∀ name table, (∃ m', Returns (NetworkM.replaceTable name table) m ⟨⟩ m') ↔
      m.AdmitsTable name table) ∧
    (∀ name table m', Returns (NetworkM.replaceTable name table) m ⟨⟩ m' →
      Replaces name table m m') ∧
    ∀ name other table table' m₁ m₂, name ≠ other →
      Returns (NetworkM.replaceTable name table) m ⟨⟩ m₁ →
      Returns (NetworkM.replaceTable other table') m₁ ⟨⟩ m₂ →
      ∃ m₁', Returns (NetworkM.replaceTable other table') m ⟨⟩ m₁' ∧
        Returns (NetworkM.replaceTable name table) m₁' ⟨⟩ m₂ := by
  have hsucceeds : ∀ {m : Network α}, m.IsReachable → ∀ name table,
      (∃ m', Returns (NetworkM.replaceTable name table) m ⟨⟩ m') ↔ m.AdmitsTable name table := by
    rintro _ ⟨definition, config, n, calls, hcompile, rfl⟩ name table
    obtain ⟨f, hf, k, ps, -, hversion⟩ :=
      (fresh_of_compile hcompile).exists_isVersion_afterCalls calls
    rw [hversion]
    exact hf.exists_returns_replaceTable_iff k ps
  have hreplaces : ∀ {m : Network α}, m.IsReachable → ∀ name table m',
      Returns (NetworkM.replaceTable name table) m ⟨⟩ m' → Replaces name table m m' := by
    rintro _ ⟨definition, config, n, calls, hcompile, rfl⟩ name table m' hreturns
    obtain ⟨f, hf, k, ps, -, hversion⟩ :=
      (fresh_of_compile hcompile).exists_isVersion_afterCalls calls
    rw [hversion] at hreturns ⊢
    exact hf.replaces hreturns
  refine ⟨hsucceeds h, hreplaces h, fun name other table table' m₁ m₂ hne hfirst hsecond => ?_⟩
  have hname := (hsucceeds h name table).mp ⟨m₁, hfirst⟩
  have hm₁ := h.of_returns_replaceTable hfirst
  have hother := (hreplaces h _ _ _ hfirst).admitsTable_iff.mp
    ((hsucceeds hm₁ other table').mp ⟨m₂, hsecond⟩)
  obtain ⟨m₁', hfirst'⟩ := (hsucceeds h other table').mpr hother
  have hm₁' := h.of_returns_replaceTable hfirst'
  obtain ⟨m₂', hsecond'⟩ := (hsucceeds hm₁' name table).mpr
    ((hreplaces h _ _ _ hfirst').admitsTable_iff.mpr hname)
  have hcompile := (returns_replaceTable_iff.mp hsecond).2
  have hcompile' := (returns_replaceTable_iff.mp hsecond').2
  rw [(hreplaces h _ _ _ hfirst).definition, (hreplaces h _ _ _ hfirst).options,
    Definition.withTable_comm hne] at hcompile
  rw [(hreplaces h _ _ _ hfirst').definition, (hreplaces h _ _ _ hfirst').options, hcompile]
    at hcompile'
  obtain rfl := Except.ok.inj hcompile'
  exact ⟨m₁', hfirst', hsecond'⟩

end

/-- After a session there are rules for the decisions of the wildcatter.  One cell is too few for the
oil, and a decision has no table; the tables of the oil and of the profit can be replaced in either
order. -/
theorem replaceTable_replaces_session : ∃ m m₁ m₂ : Network ℚ, m.IsReachable ∧ m.policies ≠ [] ∧
    (∀ m', ¬Returns (NetworkM.replaceTable "oil" [1]) m ⟨⟩ m') ∧
    (∀ m', ¬Returns (NetworkM.replaceTable "drill" [1, 0, 1, 0, 1, 0, 1, 0]) m ⟨⟩ m') ∧
    Returns (NetworkM.replaceTable "oil" [1 / 2, 1 / 2]) m ⟨⟩ m₁ ∧
    Replaces "oil" [1 / 2, 1 / 2] m m₁ ∧
    Returns (NetworkM.replaceTable "profit" [0, -70, 0, 200]) m₁ ⟨⟩ m₂ ∧
    ∃ m₁', Returns (NetworkM.replaceTable "profit" [0, -70, 0, 200]) m ⟨⟩ m₁' ∧
      Returns (NetworkM.replaceTable "oil" [1 / 2, 1 / 2]) m₁' ⟨⟩ m₂ := by
  obtain ⟨n, hcompile, hpolicies, honeCell, hdecision, hoil, hprofit⟩ :=
    exists_ok_of_toOption (x := compile wildcat {})
    (P := fun n => (n.afterCalls session).policies ≠ [] ∧
      ¬(n.afterCalls session).AdmitsTable "oil" [1] ∧
      ¬(n.afterCalls session).AdmitsTable "drill" [1, 0, 1, 0, 1, 0, 1, 0] ∧
      (n.afterCalls session).AdmitsTable "oil" [1 / 2, 1 / 2] ∧
      (n.afterCalls session).AdmitsTable "profit" [0, -70, 0, 200])
    (by decide +kernel)
  have hm : (n.afterCalls session).IsReachable := ⟨wildcat, {}, n, session, hcompile, rfl⟩
  obtain ⟨hsucceeds, hreplaces, hswap⟩ := replaceTable_replaces hm
  obtain ⟨m₁, hfirst⟩ := (hsucceeds _ _).mpr hoil
  have hoil' := hreplaces _ _ _ hfirst
  obtain ⟨hsucceeds₁, -⟩ := replaceTable_replaces (hm.of_returns_replaceTable hfirst)
  obtain ⟨m₂, hsecond⟩ := (hsucceeds₁ _ _).mpr (hoil'.admitsTable_iff.mpr hprofit)
  exact ⟨_, m₁, m₂, hm, hpolicies, fun m' h => honeCell ((hsucceeds _ _).mp ⟨m', h⟩),
    fun m' h => hdecision ((hsucceeds _ _).mp ⟨m', h⟩), hfirst, hoil', hsecond,
    hswap _ _ _ _ m₁ m₂ (by decide) hfirst hsecond⟩

/-- The last of sixteen dice can have a table without cells, though it has a joint outcome. -/
theorem exists_replaceTable_fewCells : ∃ m m' : Network ℚ, m.IsReachable ∧
    Returns (NetworkM.replaceTable "p" []) m ⟨⟩ m' ∧ ∃ a ∈ m.nodes, a.name = "p" ∧
      ((m.parentHandles a ++ [a.handle]).map (·.arity)).prod = 2 ^ 64 := by
  obtain ⟨n, hcompile, hadmits, hprod⟩ := exists_ok_of_toOption (x := compile blankDie {})
    (P := fun n => n.AdmitsTable "p" [] ∧ ∃ a ∈ n.nodes, a.name = "p" ∧
      ((n.parentHandles a ++ [a.handle]).map (·.arity)).prod = 2 ^ 64)
    (by decide +kernel)
  have hfresh := fresh_of_compile hcompile
  obtain ⟨m, hm⟩ := (hfresh.exists_returns_replaceTable_iff 0 []).mpr hadmits
  have hn : n.advanced 0 [] = n := by
    rw [← hfresh.policies]
    rfl
  rw [hn] at hm
  exact ⟨n, m, ⟨blankDie, {}, n, [], hcompile, rfl⟩, hm, hprod⟩

end Network

end Influence
