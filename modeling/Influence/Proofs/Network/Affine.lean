import Influence.Proofs.Network.Acceptance
import Influence.Proofs.Network.Rescaling
import Influence.Proofs.Network.Room
import Influence.Proofs.Network.Shapes
import Influence.Proofs.Network.Utility

/-! # Affine changes of the utility

A constant may be added to the table of each utility (`Definition.shift`), and all weights may be
multiplied by the same positive number (`Config.scale`): the definition still compiles, its decisions can
be resolved exactly if they could be before, and the policies are the same
(`Network.solvePolicies_shift_scale`).

The chance tables must add up to one, row by row, since a constant is multiplied by what they add up to.
Their cells may be negative.  And there must be room for the tables that resolve the decisions: if the
number of joint outcomes wraps around, then a constant may decide (`Network.exists_solvePolicies_shift_ne`). -/

namespace Influence

section

open scoped Exact

theorem Table.Fits.valueAt_map_add {sizes : VariableId → ℕ} {axes : Axes} {cells : List ℚ}
    (ht : (⟨axes, cells.toArray⟩ : Table ℚ).Fits sizes) (c : ℚ) {x : Assignment}
    (hx : x.Valid sizes) :
    (⟨axes, (cells.map (· + c)).toArray⟩ : Table ℚ).valueAt x =
      (⟨axes, cells.toArray⟩ : Table ℚ).valueAt x + c := by
  have hcell := ht.getElem?_cells ht.sized rfl hx
  rw [Table.valueAt, Table.read_eq_getD_toList, List.getD_eq_getElem?_getD]
  simp only [List.getElem?_map, hcell]
  rfl

/-! ### Changed definitions -/

namespace Definition

/-- The entry with a number added to each cell of its table if it is for a utility. -/
def shiftEntry (b : String → ℚ) (d : Definition ℚ) (e : Entry ℚ) : Entry ℚ :=
  if d.Declares e.target .utility then { e with table := e.table.map (·.map (· + b e.target)) } else e

/-- Adds a number of its own to each cell of the table of each utility. -/
def shift (b : String → ℚ) (d : Definition ℚ) : Definition ℚ :=
  { d with entries := d.entries.map (d.shiftEntry b) }

/-- The names of the utilities. -/
def utilityNames {α : Type} (d : Definition α) : List String :=
  (d.declarations.filter (·.kind? = some .utility)).map (·.name)

variable {d : Definition ℚ} {b : String → ℚ} {e : Entry ℚ}

@[simp] theorem shiftEntry_target : (d.shiftEntry b e).target = e.target := by
  unfold shiftEntry
  split <;> rfl

@[simp] theorem shiftEntry_given : (d.shiftEntry b e).given = e.given := by
  unfold shiftEntry
  split <;> rfl

@[simp] theorem shiftEntry_table_eq_none : (d.shiftEntry b e).table = none ↔ e.table = none := by
  unfold shiftEntry
  split
  · exact Option.map_eq_none_iff
  · rfl

theorem shapes_shift (b : String → ℚ) (d : Definition ℚ) :
    List.Forall₂ Entry.SameShape d.entries (d.shift b).entries := by
  rw [shift, List.forall₂_map_right_iff, List.forall₂_same]
  exact fun e _ => ⟨shiftEntry_target, shiftEntry_given, shiftEntry_table_eq_none⟩

theorem mem_utilityNames {α : Type} {d : Definition α} {name : String} :
    name ∈ d.utilityNames ↔ d.Declares name .utility := by
  simp only [utilityNames, Declares, List.mem_map, List.mem_filter, decide_eq_true_eq, and_assoc]
  exact exists_congr fun x => and_congr_right fun _ => and_comm

end Definition

namespace Config

variable {a : ℚ} {names : List String} {config : Config ℚ} {name : String}

/-- The weight listed for a utility, or else one. -/
def weight (config : Config ℚ) (name : String) : ℚ := (config.weights.reverse.lookup name).getD 1

/-- Multiplies the weights of some utilities. -/
def scale (a : ℚ) (names : List String) (config : Config ℚ) : Config ℚ :=
  { config with weights := names.map fun name => (name, a * config.weight name) }

theorem weight_scale (h : name ∈ names) :
    (config.scale a names).weight name = a * config.weight name := by
  rw [weight, scale]
  dsimp only
  rw [← List.map_reverse, List.lookup_graph _ (List.mem_reverse.mpr h)]
  rfl

theorem check_scale (h : names.Nodup) : (config.scale a names).check = .ok () := by
  refine Config.checkWeights_eq_ok_iff.mpr ⟨fun _ _ => rfl, ?_, by simp⟩
  simpa [scale, Function.comp_def] using h

end Config

namespace Network

variable {d : Definition ℚ} {config : Config ℚ} {n : Network ℚ} {r r₁ r₂ : Registry} {a : ℚ}
  {b : String → ℚ} {name : String} {v : Node} {f : Factor ℚ}

theorem entryOf?_shift (b : String → ℚ) (d : Definition ℚ) (name : String) :
    entryOf? (d.shift b).entries name = (entryOf? d.entries name).map (d.shiftEntry b) := by
  rw [entryOf?, Definition.shift, List.find?_map]
  simp [entryOf?]

theorem givenOf_shift (b : String → ℚ) (d : Definition ℚ) :
    givenOf (d.shift b).entries = givenOf d.entries := givenOf_congr (d.shapes_shift b)

namespace Compilation

variable (h : Compilation d config n r)

include h

/-- The weight of a utility is the one that the options list. -/
theorem weightOf_eq (hv : v ∈ n.nodes) : n.weightOf v = config.weight v.name := by
  have hlookup : ∀ {ws : List (String × ℚ)} {ws' : List (VariableId × ℚ)},
      List.Forall₂ (fun w w' => resolveWeight n.nodes w = .ok w') ws ws' →
      ws'.lookup v.handle.id = ws.lookup v.name := by
    intro ws ws' hws
    induction hws with
    | nil => rfl
    | @cons w w' ws ws' hw _ ih =>
        simp only [resolveWeight, except_bind_eq_ok, except_guard_eq_ok,
          find_eq_ok_iff h.declared.names] at hw
        obtain ⟨m, ⟨hm, hname⟩, -, hw⟩ := hw
        obtain rfl := Except.ok.inj hw
        have hsame : (v.handle.id == m.handle.id) = (v.name == w.1) := by
          rw [Bool.eq_iff_iff, beq_iff_eq, beq_iff_eq, ← hname]
          constructor
          · exact fun hid => congrArg Node.name (h.compiled.eq_of_id hv hm hid)
          · exact fun hid => by rw [List.inj_on_of_nodup_map h.declared.names hv hm hid]
        rw [List.lookup_cons, List.lookup_cons, hsame, ih]
  rw [Network.weightOf, Config.weight, hlookup (List.rel_reverse h.resolve)]

theorem nodup_utilityNames : d.utilityNames.Nodup := by
  refine List.Nodup.sublist (List.filter_sublist.map _) ?_
  rw [← map_name_of_stands h.stands]
  exact h.declared.names

/-- The table of a node compiles, with the number added if the node is a utility. -/
theorem exists_returns_compileTable (hv : v ∈ n.nodes)
    (hf : Returns (compileTable config n.nodes d.entries v) r₁ f r₂) (names : List String) :
    ∃ g, Returns (compileTable (config.scale a names) n.nodes (d.shift b).entries v) r₁ g r₂ ∧
      Adds n.sizes b (v, f.table) (v, g.table) := by
  obtain ⟨haxes, hshaped, -⟩ := returns_compileTable h.declared hv hf
  have hfits : f.table.Fits n.sizes := by
    refine ⟨hshaped.wellFormed, h.compiled.sized_handles.subset ?_⟩
    change f.axes ⊆ n.handles
    rw [haxes, ← h.entries]
    exact h.compiled.family_subset hv
  obtain ⟨axes, table, rfl, htable, -, hnodup, hlength, hcells⟩ := returns_compileTable_iff.mp hf
  obtain ⟨e, hentry, htable⟩ := Option.bind_eq_some_iff.mp htable
  obtain ⟨he, htarget⟩ := (entryOf?_eq_some_iff h.checked.targets).mp hentry
  have hdeclares : d.Declares e.target .utility ↔ v.kind = .utility := by
    rw [htarget, declares_name_iff h.stands h.declared.names hv]
  by_cases hkind : v.kind = .utility
  case pos =>
    rw [if_neg (by simp [hkind])] at hcells
    obtain ⟨rfl, rfl⟩ := hcells
    refine ⟨⟨r₁.nextFactor, ⟨handlesOf n.nodes (givenOf d.entries v.name) ++ [v.handle],
      (table.map (· + b v.name)).toArray⟩⟩, ?_, ⟨rfl, fun hother => absurd hkind hother,
        fun _ x hx => hfits.valueAt_map_add _ hx⟩⟩
    refine returns_compileTable_iff.mpr
      ⟨_, table.map (· + b v.name), rfl, ?_, fun _ _ => rfl, ?_⟩
    · rw [entryOf?_shift, hentry, Option.map_some, Option.bind_some, Definition.shiftEntry,
        if_pos (hdeclares.mpr hkind), htable, htarget]
      rfl
    · rw [givenOf_shift, List.length_map, if_neg (by simp [hkind])]
      exact ⟨hnodup, hlength, rfl, rfl⟩
  case neg =>
    refine ⟨f, ?_, ⟨rfl, fun _ => rfl, fun hutility => absurd hutility hkind⟩⟩
    refine returns_compileTable_iff.mpr ⟨_, table, rfl, ?_, fun _ _ => rfl, ?_⟩
    · rw [entryOf?_shift, hentry, Option.map_some, Option.bind_some, Definition.shiftEntry,
        if_neg (hdeclares.not.mpr hkind), htable]
    · rw [givenOf_shift]
      exact ⟨hnodup, hlength, hcells⟩

theorem exists_returns_compileTables {vs : List Node} {fs : List (Factor ℚ)} (hvs : vs ⊆ n.nodes)
    (hfs : Returns (vs.mapM (compileTable config n.nodes d.entries)) r₁ fs r₂) (names : List String) :
    ∃ gs, Returns (vs.mapM (compileTable (config.scale a names) n.nodes (d.shift b).entries)) r₁ gs r₂ ∧
      List.Forall₂ (Adds n.sizes b) (vs.zip (fs.map (·.table))) (vs.zip (gs.map (·.table))) := by
  induction vs generalizing r₁ fs with
  | nil =>
      obtain ⟨rfl, rfl⟩ := returns_mapM_nil.mp hfs
      exact ⟨[], returns_mapM_nil.mpr ⟨rfl, rfl⟩, .nil⟩
  | cons v vs ih =>
      obtain ⟨hv, hvs⟩ := List.cons_subset.mp hvs
      obtain ⟨f, r', fs, hf, hrest, rfl⟩ := returns_mapM_cons.mp hfs
      obtain ⟨g, hg, hadds⟩ := h.exists_returns_compileTable hv hf names
      obtain ⟨gs, hgs, hall⟩ := ih hvs hrest
      exact ⟨g :: gs, returns_mapM_cons.mpr ⟨g, r', gs, hg, hgs, rfl⟩, .cons hadds hall⟩

/-- **The changed definition compiles to a network with rescaled utilities.** -/
theorem exists_rescales (a : ℚ) (b : String → ℚ) :
    ∃ m, compile (d.shift b) (config.scale a d.utilityNames) = .ok m ∧ Rescales a b n m := by
  obtain ⟨gs, hgs, htabled⟩ := h.exists_returns_compileTables (a := a) (b := b)
    (fun v hv => h.compiled.mem_orderedNodes.mp (List.mem_of_mem_filter hv)) h.tables d.utilityNames
  obtain ⟨ws, hws⟩ : ∃ ws, List.Forall₂ (fun w w' => resolveWeight n.nodes w = .ok w')
      (config.scale a d.utilityNames).weights ws := by
    refine exists_forall₂ fun w hw => (resolveWeight_iff h.stands h.declared.names).mpr ?_
    obtain ⟨name, hname, rfl⟩ := List.mem_map.mp hw
    exact Definition.mem_utilityNames.mp hname
  let m : Network ℚ := { n with
    entries := (d.shift b).entries
    config := config.scale a d.utilityNames
    factors := gs
    weights := ws }
  have hm : Compilation (d.shift b) (config.scale a d.utilityNames) m r := by
    constructor
    case check => exact Config.check_scale h.nodup_utilityNames
    case declare => exact h.declare
    case checkEntries =>
      rw [checkEntries_congr (d.shapes_shift b) rfl]
      exact h.checkEntries
    case checkComplete =>
      rw [checkComplete_congr (d.shapes_shift b)]
      exact h.checkComplete
    case order => exact h.order
    case tables => exact hgs
    case resolve => exact hws
    case entries => rfl
    case config => rfl
    case parents =>
      change n.parents = _
      rw [h.parents, parentsOf, parentsOf, givenOf_shift]
    case dependencies =>
      change n.dependencies = _
      rw [h.dependencies, dependenciesOf, dependenciesOf, givenOf_shift]
      rfl
    case policies => exact h.policies
  refine ⟨m, compile_eq_ok_iff.mpr ⟨r, hm⟩, ⟨rfl, fun name => ?_, rfl⟩, htabled,
    fun v hv hkind => ?_⟩
  · change givenOf (d.shift b).entries name = _
    rw [givenOf_shift, h.entries]
  · rw [hm.weightOf_eq hv, h.weightOf_eq hv, Config.weight_scale]
    rw [Definition.mem_utilityNames, declares_name_iff h.stands h.declared.names hv]
    exact hkind

end Compilation

/-- Networks with the same variables and parents need the same room for their tables. -/
theorem SameDiagram.isSmall (h : n.SameDiagram m) (hn : n.Compiled) (hm : m.Compiled)
    (hsmall : n.IsSmall) : m.IsSmall := by
  rw [hm.isSmall_iff, h.nodes]
  intro v hv hkind
  rw [h.parentHandles]
  exact hn.isSmall_iff.mp hsmall v hv hkind

/-- Decisions that can be resolved stay so, with the same policies. -/
theorem solvePolicies_shift_scale_unlimited {definition : Definition ℚ} {config : Config ℚ}
    (h : compile definition config = .ok n) (hadds : n.AddsUp) (ha : 0 < a) (b : String → ℚ) :
    ∃ m, compile (definition.shift b) (config.scale a definition.utilityNames) = .ok m ∧
      (n.IsSmall → m.IsSmall) ∧
      ((∃ ps n', Returns NetworkM.solvePolicies n ps n') ↔
        ∃ qs m', Returns NetworkM.solvePolicies m qs m') ∧
      ∀ ps n' qs m', Returns NetworkM.solvePolicies n ps n' → Returns NetworkM.solvePolicies m qs m' →
        List.Forall₂ Policy.ChoosesAs ps qs := by
  obtain ⟨hn, hps⟩ := compiled_of_compile h
  obtain ⟨r, hcompilation⟩ := compile_eq_ok_iff.mp h
  obtain ⟨m, hcompile, hrescales⟩ := hcompilation.exists_rescales a b
  obtain ⟨hm, hps'⟩ := compiled_of_compile hcompile
  have hadds' : m.AddsUp := by
    rw [AddsUp, hrescales.chances_eq]
    exact hadds
  refine ⟨m, hcompile, hrescales.diagram.isSmall hn hm, ⟨?_, ?_⟩, ?_⟩
  · rintro ⟨ps, n', hreturns⟩
    obtain ⟨qs, m', hreturns', -⟩ :=
      hrescales.exists_returns ha hn hm hps hps' hadds ⟨n', hreturns⟩
    exact ⟨qs, m', hreturns'⟩
  · rintro ⟨qs, m', hreturns⟩
    obtain ⟨ps, n', hreturns', -⟩ := (hrescales.symm ha.ne').exists_returns (inv_pos.mpr ha) hm hn
      hps' hps hadds' ⟨m', hreturns⟩
    exact ⟨ps, n', hreturns'⟩
  · intro ps n' qs m' hreturns hreturns'
    obtain ⟨qs', m'', hreturns'', hrules⟩ :=
      hrescales.exists_returns ha hn hm hps hps' hadds ⟨n', hreturns⟩
    obtain ⟨rfl, -⟩ := hreturns'.unique hreturns''
    exact hrules

end Network

end

/-! ### Policies -/

namespace Network

variable {n m : Network ℚ} {definition : Definition ℚ} {config : Config ℚ} {a : ℚ}

/-- **Positive affine changes of the utility do not change the policies**, provided that there is room
for the tables that resolve the decisions before and after the change. -/
theorem solvePolicies_shift_scale (h : compile definition config = .ok n) (hadds : n.AddsUp)
    (hroom : n.HasRoomFor .solvePolicies) (ha : 0 < a) (b : String → ℚ) :
    ∃ m, compile (definition.shift b) (config.scale a definition.utilityNames) = .ok m ∧
      (m.HasRoomFor .solvePolicies →
        ((∃ ps n', Returns NetworkM.solvePolicies n ps n') ↔
          ∃ qs m', Returns NetworkM.solvePolicies m qs m') ∧
        ∀ ps n' qs m', Returns NetworkM.solvePolicies n ps n' →
          Returns NetworkM.solvePolicies m qs m' → List.Forall₂ Policy.ChoosesAs ps qs) := by
  have hcompile := compile_eq_ok_of_isSmall h hroom.tables Exact.build
  obtain ⟨m, hchanged, hsmall, hiff, hchooses⟩ := solvePolicies_shift_scale_unlimited hcompile hadds ha b
  have hchanged' := @compile_eq_ok_of_isSmall _ _ _ _ _ Exact.build hchanged (hsmall hroom.tables) .release
  refine ⟨m, hchanged', fun hroom' => ?_⟩
  have hsame := fun ps n' => @returns_solvePolicies_iff_of_hasRoom _ n n' ps _ _ _ _ h hroom.tables
    hroom.rules .release Exact.build
  have hsame' := fun qs m' => @returns_solvePolicies_iff_of_hasRoom _ m m' qs _ _ _ _ hchanged'
    hroom'.tables hroom'.rules .release Exact.build
  refine ⟨?_, fun ps n' qs m' hreturns hreturns' =>
    hchooses ps n' qs m' ((hsame ps n').mp hreturns) ((hsame' qs m').mp hreturns')⟩
  exact (exists₂_congr hsame).trans (hiff.trans (exists₂_congr hsame').symm)

/-- The wildcatter gets a subsidy, pays more for a sounding, and counts in another currency. -/
theorem solvePolicies_shift_scale_wildcat : ∃ n m ps n' qs m',
    compile wildcat {} = .ok n ∧ n.AddsUp ∧ n.HasRoomFor .solvePolicies ∧ (0 : ℚ) < 3 / 2 ∧
    compile (wildcat.shift fun name => if name = "fee" then -2 else 50)
      (Config.scale (3 / 2) wildcat.utilityNames {}) = .ok m ∧ m.HasRoomFor .solvePolicies ∧
    Returns NetworkM.solvePolicies n ps n' ∧ Returns NetworkM.solvePolicies m qs m' ∧
    List.Forall₂ Policy.ChoosesAs ps qs := by
  obtain ⟨n, hcompile, hadds, hroom, hpolicies, hrooms⟩ := exists_ok_of_toOption
    (x := compile wildcat {})
    (P := fun n => n.AddsUp ∧ n.HasRoomFor .solvePolicies ∧
      (∃ ps ∈ (runFrom NetworkM.solvePolicies n).1.toOption, True) ∧
      ∃ m ∈ (compile (wildcat.shift fun name => if name = "fee" then -2 else 50)
        (Config.scale (3 / 2) wildcat.utilityNames {})).toOption, m.HasRoomFor .solvePolicies)
    (by decide +kernel)
  obtain ⟨ps, n', hpolicies, -⟩ := exists_returns_of_toOption hpolicies
  obtain ⟨m, hchanged, hroom'⟩ := exists_ok_of_toOption hrooms
  have hpos : (0 : ℚ) < 3 / 2 := by norm_num
  obtain ⟨m', hchanged', hsame⟩ := solvePolicies_shift_scale hcompile hadds hroom hpos
    fun name => if name = "fee" then -2 else 50
  obtain rfl := Except.ok.inj (hchanged.symm.trans hchanged')
  obtain ⟨hiff, hchooses⟩ := hsame hroom'
  obtain ⟨qs, m', hpolicies'⟩ := hiff.mp ⟨ps, n', hpolicies⟩
  exact ⟨n, m, ps, n', qs, m', hcompile, hadds, hroom, hpos, hchanged, hroom', hpolicies, hpolicies',
    hchooses ps n' qs m' hpolicies hpolicies'⟩

/-! ### A constant that decides -/

/-- How many values each of 29 signals has.  Together they have a number of joint outcomes that is eight
more than a multiple of `2 ^ 64`. -/
def signalArities : List ℕ :=
  [56, 119, 19, 19, 23, 53, 53, 53, 53, 71, 89, 107, 107, 113, 47, 47, 47, 67, 67, 67, 67, 73, 73, 73,
    103, 103, 127, 127, 127]

/-- The signals, with names that differ in one character. -/
def signals : List (String × ℕ) :=
  signalArities.zipIdx.map fun (arity, i) => (String.ofList ['s', Char.ofNat (i + 48)], arity)

/-- One acts after the signals, and the act has an effect.  The gain does not depend on it: it is the
same in all cells. -/
def crowd (gain : ℚ) : Definition ℚ where
  declarations :=
    (signals.map fun (name, arity) =>
      ⟨name, "chance", (List.range arity).map fun i => String.ofList ['o', Char.ofNat (i + 48)]⟩) ++
    [⟨"act", "decision", ["no", "yes"]⟩, ⟨"cause", "chance", ["no", "yes"]⟩,
      ⟨"effect", "chance", ["no", "yes"]⟩, ⟨"gain", "utility", []⟩]
  entries :=
    (signals.map fun (name, arity) => ⟨name, [], some (1 :: List.replicate (arity - 1) 0)⟩) ++
    [⟨"act", signals.map (·.1), none⟩, ⟨"cause", ["act"], some [1, 0, 0, 1]⟩,
      ⟨"effect", ["cause"], some [1, 0, 0, 1]⟩,
      ⟨"gain", "effect" :: signals.map (·.1), some (List.replicate 16 gain)⟩]

/-- There is no room for the table over all signals and the act.  What the program makes of it has sixteen
cells, and the rule it takes from them depends on the sign of the gain. -/
theorem exists_solvePolicies_shift_ne : ∃ (d : Definition ℚ) (config : Config ℚ) (n m : Network ℚ)
    (ps qs : List (Policy ℚ)) (n' m' : Network ℚ), compile d config = .ok n ∧ n.AddsUp ∧
    compile (d.shift fun _ => -2) (config.scale 1 d.utilityNames) = .ok m ∧
    Returns NetworkM.solvePolicies n ps n' ∧ Returns NetworkM.solvePolicies m qs m' ∧
    ¬List.Forall₂ Policy.ChoosesAs ps qs := by
  obtain ⟨n, hcompile, hadds, hpolicies, hchanged⟩ := exists_ok_of_toOption
    (x := compile (crowd 1) { normalizeChance := false })
    (P := fun n => n.AddsUp ∧
      (∃ ps ∈ (runFrom NetworkM.solvePolicies n).1.toOption,
        ps.map (·.table) = [(List.replicate 8 [1, 0]).flatten]) ∧
      ∃ m ∈ (compile ((crowd 1).shift fun _ => -2)
          (Config.scale 1 (crowd 1).utilityNames { normalizeChance := false })).toOption,
        ∃ qs ∈ (runFrom NetworkM.solvePolicies m).1.toOption,
          qs.map (·.table) = [(List.replicate 8 [0, 1]).flatten])
    (by decide +kernel)
  obtain ⟨ps, n', hpolicies, hfirst⟩ := exists_returns_of_toOption hpolicies
  obtain ⟨m, hchanged, hpolicies'⟩ := exists_ok_of_toOption hchanged
  obtain ⟨qs, m', hpolicies', hsecond⟩ := exists_returns_of_toOption hpolicies'
  refine ⟨crowd 1, _, n, m, ps, qs, n', m', hcompile, hadds, hchanged, hpolicies, hpolicies', fun h => ?_⟩
  have htables : ps.map (·.table) = qs.map (·.table) := by
    rw [← List.forall₂_eq_eq_eq, List.forall₂_map_left_iff, List.forall₂_map_right_iff]
    exact h.imp fun _ _ hchooses => hchooses.table.symm
  rw [hfirst, hsecond] at htables
  revert htables
  decide

end Network

end Influence
