import Influence.Proofs.Network.Ancestors
import Influence.Proofs.Network.Question

/-! # Which definitions compile

`Definition.WellFormed` says in names what a definition and its options have to satisfy.
`exists_compile_iff_wellFormed` shows that the checks of the compiler accept exactly the definitions that do, as
long as there are identities for all their variables, and that a compiled network `Represents` its
definition: one variable for each declaration, an order in which parents come first, and one factor
for each table. -/

namespace Influence

variable {α : Type}

/-! ### Well-formed definitions -/

namespace Declaration

/-- The kind that a declaration names, if it names one. -/
def kind? (d : Declaration) : Option NodeKind := NodeKind.ofText? d.kind

/-- The outcome names of a declaration, with the implied one of a utility. -/
def allOutcomes (d : Declaration) : List String :=
  if d.kind? = some .utility ∧ d.outcomes = [] then [utilityOutcome] else d.outcomes

/-- The declaration with the implied outcome of a utility filled in. -/
def filled (d : Declaration) : Declaration := { d with outcomes := d.allOutcomes }

@[simp] theorem filled_name (d : Declaration) : d.filled.name = d.name := by rw [filled]

@[simp] theorem filled_outcomes (d : Declaration) : d.filled.outcomes = d.allOutcomes := by
  rw [filled]

/-- A declaration that names a kind and lists as many outcomes as that kind allows. -/
structure WellFormed (d : Declaration) : Prop where
  kind : ∃ kind, d.kind? = some kind
  utility : d.kind? = some .utility → d.outcomes.length ≤ 1
  other : d.kind? ≠ some .utility → 1 ≤ d.outcomes.length
  distinct : d.outcomes.Nodup

end Declaration

namespace Definition

/-- A name is declared with a kind. -/
def Declares (d : Definition α) (name : String) (kind : NodeKind) : Prop :=
  ∃ x ∈ d.declarations, x.name = name ∧ x.kind? = some kind

instance (d : Definition α) (name : String) (kind : NodeKind) : Decidable (d.Declares name kind) :=
  inferInstanceAs (Decidable (∃ x ∈ d.declarations, _))

/-- The number of outcomes of a declared variable. -/
def outcomeCount (d : Definition α) (name : String) : ℕ :=
  ((d.declarations.find? (·.name == name)).map (·.allOutcomes.length)).getD 1

/-- A name is listed among the parents of another one. -/
def IsParent (d : Definition α) (parent name : String) : Prop :=
  ∃ e ∈ d.entries, e.target = name ∧ parent ∈ e.given

/-- What a definition and its options have to satisfy. -/
structure WellFormed [Build] [Cell α] (d : Definition α) (config : Config α) : Prop where
  weights_finite : ∀ w ∈ config.weights, Cell.nonFinite? w.2 = none
  weights_distinct : (config.weights.map (·.1)).Nodup
  weights_utility : ∀ w ∈ config.weights, d.Declares w.1 .utility
  declarations : ∀ x ∈ d.declarations, x.WellFormed
  names : (d.declarations.map (·.name)).Nodup
  targets_declared : ∀ e ∈ d.entries, ∃ kind, d.Declares e.target kind
  targets_distinct : (d.entries.map (·.target)).Nodup
  given_declared : ∀ e ∈ d.entries, ∀ name ∈ e.given, ∃ kind ≠ .utility, d.Declares name kind
  given_distinct : ∀ e ∈ d.entries, e.given.Nodup
  /-- Exactly the entries of decisions have no table. -/
  tables : ∀ e ∈ d.entries, e.table = none ↔ d.Declares e.target .decision
  /-- Every chance variable and every utility has an entry. -/
  complete : ∀ x ∈ d.declarations, x.kind? ≠ some .decision → ∃ e ∈ d.entries, e.target = x.name
  acyclic : ∀ name, ¬Relation.TransGen d.IsParent name name
  cells_finite : ∀ e ∈ d.entries, ∀ table, e.table = some table →
    ∀ cell ∈ table, Cell.nonFinite? cell = none
  /-- The number of joint outcomes is kept in a word. -/
  cells_count : ∀ e ∈ d.entries, ∀ table, e.table = some table →
    table.length = Build.word ((e.given ++ [e.target]).map d.outcomeCount).prod

end Definition

namespace Network

/-- The factor holds the table that a definition gives for a name, over its parents and then itself,
with every row of a chance table scaled to sum to one if the options say so. -/
def HoldsTable [Cell α] (n : Network α) (d : Definition α) (config : Config α) (name : String)
    (f : Factor α) : Prop :=
  ∃ e ∈ d.entries, e.target = name ∧ ∃ table, e.table = some table ∧
    List.Forall₂ n.IsNamed (e.given ++ [name]) f.axes ∧
    f.cells.toList =
      if d.Declares name .chance ∧ config.normalizeChance then
        (Table.rows (d.outcomeCount name) table.toArray).flatMap Cell.normalize
      else table

/-- The network consists of what a definition says. -/
structure Represents [Cell α] (n : Network α) (d : Definition α) (config : Config α) : Prop where
  declarations : n.definition.declarations = d.declarations.map (·.filled)
  entries : n.definition.entries = d.entries
  options : n.config = config
  /-- Every variable has a handle of its own, of the declared kind and number of outcomes. -/
  handles_distinct : n.handles.ids.Nodup
  handles : ∀ m ∈ n.nodes, d.Declares m.name m.handle.kind ∧ m.handle.arity = d.outcomeCount m.name
  order : n.orderedNames.Perm (d.declarations.map (·.name))
  parents_first : ∀ parent name, d.IsParent parent name →
    n.orderedNames.idxOf parent < n.orderedNames.idxOf name
  factors : List.Forall₂ (n.HoldsTable d config)
    (n.orderedNames.filter fun name => ¬d.Declares name .decision) n.factors

end Network

/-! ### The options -/

theorem firstRepeat?_eq_none_iff {seen xs : List String} :
    firstRepeat? seen xs = none ↔ xs.Nodup ∧ ∀ x ∈ xs, x ∉ seen := by
  induction xs generalizing seen with
  | nil => simp
  | cons x xs ih =>
      rw [firstRepeat?]
      split
      next hseen => simp_all
      next hseen =>
        rw [ih, List.nodup_cons, List.forall_mem_cons]
        simp only [List.mem_append, List.mem_singleton, not_or]
        constructor
        · rintro ⟨hdistinct, hfresh⟩
          refine ⟨⟨fun hx => (hfresh x hx).2 rfl, hdistinct⟩, by simpa using hseen, ?_⟩
          exact fun y hy => (hfresh y hy).1
        · rintro ⟨⟨hx, hdistinct⟩, -, hfresh⟩
          exact ⟨hdistinct, fun y hy => ⟨hfresh y hy, fun hyx => hx (hyx ▸ hy)⟩⟩

/-- The check of the options accepts finite weights with distinct names. -/
theorem Config.checkWeights_eq_ok_iff [Cell α] {seen : List String} {ws : List (String × α)} :
    checkWeights seen ws = .ok () ↔
      (∀ w ∈ ws, Cell.nonFinite? w.2 = none) ∧ (ws.map (·.1)).Nodup ∧ ∀ w ∈ ws, w.1 ∉ seen := by
  induction ws generalizing seen with
  | nil => simp [checkWeights]
  | cons w ws ih =>
      obtain ⟨name, weight⟩ := w
      rw [checkWeights]
      cases hfinite : Cell.nonFinite? weight with
      | some value => simp [hfinite]
      | none =>
          by_cases hseen : name ∈ seen
          · simp [hseen]
          · simp only [List.contains_eq_mem, hseen, decide_false, Bool.false_eq_true, if_false, ih,
              List.forall_mem_cons, List.map_cons, List.nodup_cons, hfinite, true_and, not_false_eq_true,
              List.mem_append, List.mem_singleton, not_or]
            constructor
            · rintro ⟨hall, hdistinct, hfresh⟩
              refine ⟨hall, ⟨fun hname => ?_, hdistinct⟩, fun w hw => (hfresh w hw).1⟩
              obtain ⟨w, hw, heq⟩ := List.mem_map.mp hname
              exact (hfresh w hw).2 heq
            · rintro ⟨hall, ⟨hname, hdistinct⟩, hfresh⟩
              refine ⟨hall, hdistinct, fun w hw => ⟨hfresh w hw, fun heq => hname ?_⟩⟩
              exact heq ▸ List.mem_map_of_mem hw

/-! ### Declarations -/

namespace Network

variable {nodes nodes' : List Node} {r r' : Registry} {x : Declaration}

/-- The node stands for a declaration. -/
structure Stands (x : Declaration) (m : Node) : Prop where
  declaration : m.declaration = x.filled
  kind : x.kind? = some m.kind

theorem Stands.name {m : Node} (h : Stands x m) : m.name = x.name := by
  rw [Node.name, h.declaration, Declaration.filled_name]

theorem parse_eq_ok_iff {text : String} {kind : NodeKind} :
    NodeKind.parse text = .ok kind ↔ NodeKind.ofText? text = some kind := by
  unfold NodeKind.parse
  cases NodeKind.ofText? text <;> simp

/-- The outcomes of a declaration are accepted if they are well-formed. -/
theorem filledOutcomes_eq_ok_iff {kind : NodeKind} (hkind : x.kind? = some kind)
    {outcomes : List String} :
    filledOutcomes x kind = .ok outcomes ↔ x.WellFormed ∧ x.allOutcomes = outcomes := by
  have hwellFormed : x.WellFormed ↔ (kind = .utility → x.outcomes.length ≤ 1) ∧
      (kind ≠ .utility → 1 ≤ x.outcomes.length) ∧ x.outcomes.Nodup := by
    constructor
    · intro h
      have hutility := h.utility
      have hother := h.other
      simp only [hkind, Option.some.injEq, ne_eq] at hutility hother
      exact ⟨hutility, hother, h.distinct⟩
    · rintro ⟨hutility, hother, hdistinct⟩
      refine ⟨⟨kind, hkind⟩, ?_, ?_, hdistinct⟩
      · simpa only [hkind, Option.some.injEq] using hutility
      · simpa only [hkind, Option.some.injEq, ne_eq] using hother
  have hrepeat : firstRepeat? [] x.outcomes = none ↔ x.outcomes.Nodup := by
    rw [firstRepeat?_eq_none_iff]
    simp
  rw [hwellFormed, Declaration.allOutcomes, hkind]
  cases houtcomes : x.outcomes with
  | nil => cases kind <;> simp [filledOutcomes, houtcomes]
  | cons y ys =>
      rw [houtcomes] at hrepeat
      cases kind with
      | utility => cases ys <;> simp [filledOutcomes, houtcomes]
      | chance | decision =>
          simp only [filledOutcomes, houtcomes, reduceCtorEq, IsEmpty.forall_iff, ne_eq,
            not_false_eq_true, List.length_cons, Nat.le_add_left, true_and, forall_const, and_false,
            if_false, ← hrepeat]
          cases firstRepeat? [] (y :: ys) <;> simp

/-- A declaration is accepted if it is well-formed, its name is new and there is an identity left
for its variable. -/
theorem returns_declare (h : Returns (declare nodes x) r nodes' r') :
    x.WellFormed ∧ ∃ m, nodes' = nodes ++ [m] ∧ Stands x m := by
  unfold declare at h
  simp only [returns_bind, returns_except, returns_guard, returns_pure] at h
  obtain ⟨kind, _, ⟨hkind, rfl⟩, -, outcomes, _, ⟨houtcomes, rfl⟩, v, _, hadd, rfl, rfl⟩ := h
  have hkind' : x.kind? = some kind := parse_eq_ok_iff.mp hkind
  obtain ⟨hx, rfl⟩ := (filledOutcomes_eq_ok_iff hkind').mp houtcomes
  obtain ⟨-, -, -, hv, -, -⟩ := Registry.returns_add hadd
  exact ⟨hx, _, rfl, rfl, by rw [hkind', ← hv]; rfl⟩

theorem exists_returns_declare (hx : x.WellFormed) (hname : ∀ m ∈ nodes, m.name ≠ x.name)
    (hsize : r.size < UInt32.size) : ∃ m r', Returns (declare nodes x) r (nodes ++ [m]) r' ∧
      m.name = x.name ∧ r'.size = r.size + 1 := by
  obtain ⟨kind, hkind⟩ := hx.kind
  have houtcomes := (filledOutcomes_eq_ok_iff hkind).mpr ⟨hx, rfl⟩
  have hpos : x.allOutcomes.length ≠ 0 := by
    unfold Declaration.allOutcomes
    split
    next => simp
    next hother =>
      intro hnone
      by_cases hutility : x.kind? = some .utility
      · exact hother ⟨hutility, List.length_eq_zero_iff.mp hnone⟩
      · have := hx.other hutility
        omega
  obtain ⟨v, r', hadd⟩ := Registry.exists_returns_add hsize hpos
  refine ⟨⟨x.filled, v⟩, r', ?_, Declaration.filled_name x, ?_⟩
  · unfold declare
    simp only [returns_bind, returns_except, returns_guard, returns_pure]
    exact ⟨kind, r, ⟨parse_eq_ok_iff.mpr hkind, rfl⟩, by simpa using hname, _, r, ⟨houtcomes, rfl⟩, v,
      r', hadd, rfl, rfl⟩
  · obtain ⟨-, -, -, -, hhandles, -⟩ := Registry.returns_add hadd
    simp [Registry.size, hhandles]

theorem returns_declareAll {xs : List Declaration}
    (h : Returns (xs.foldlM declare nodes) r nodes' r') :
    (∀ x ∈ xs, x.WellFormed) ∧ ∃ ms, nodes' = nodes ++ ms ∧ List.Forall₂ Stands xs ms := by
  induction xs generalizing nodes r with
  | nil =>
      obtain ⟨rfl, rfl⟩ := returns_pure.mp h
      exact ⟨by simp, [], (List.append_nil _).symm, .nil⟩
  | cons x xs ih =>
      obtain ⟨nodes₁, r₁, hfirst, hrest⟩ := returns_foldlM_cons.mp h
      obtain ⟨hx, m, rfl, hm⟩ := returns_declare hfirst
      obtain ⟨hxs, ms, rfl, hms⟩ := ih hrest
      exact ⟨List.forall_mem_cons.mpr ⟨hx, hxs⟩, m :: ms, by simp, .cons hm hms⟩

theorem exists_returns_declareAll {xs : List Declaration} (hxs : ∀ x ∈ xs, x.WellFormed)
    (hnames : (nodes.map (·.name) ++ xs.map (·.name)).Nodup)
    (hsize : r.size + xs.length ≤ UInt32.size) :
    ∃ nodes' r', Returns (xs.foldlM declare nodes) r nodes' r' := by
  induction xs generalizing nodes r with
  | nil => exact ⟨nodes, r, returns_pure.mpr ⟨rfl, rfl⟩⟩
  | cons x xs ih =>
      obtain ⟨hx, hxs⟩ := List.forall_mem_cons.mp hxs
      rw [List.length_cons] at hsize
      rw [List.map_cons] at hnames
      have hfresh : ∀ m ∈ nodes, m.name ≠ x.name := fun m hm =>
        (List.nodup_append.mp hnames).2.2 _ (List.mem_map_of_mem hm) _ (by simp)
      obtain ⟨m, r₁, hfirst, hname, hsize₁⟩ := exists_returns_declare (r := r) hx hfresh (by omega)
      have hnames' : ((nodes ++ [m]).map (·.name) ++ xs.map (·.name)).Nodup := by
        simpa [hname] using hnames
      obtain ⟨nodes', r', hrest⟩ := ih hxs hnames' (r := r₁) (by omega)
      exact ⟨nodes', r', returns_foldlM_cons.mpr ⟨_, _, hfirst, hrest⟩⟩

/-! ### Names and nodes -/

section

variable {d : Definition α} {entries : List (Entry α)} {m : Node} {name parent : String}

theorem map_name_of_stands {xs : List Declaration} (h : List.Forall₂ Stands xs nodes) :
    nodes.map (·.name) = xs.map (·.name) := by
  induction h with
  | nil => rfl
  | cons hm _ ih => rw [List.map_cons, List.map_cons, ih, hm.name]

theorem declares_iff (hstands : List.Forall₂ Stands d.declarations nodes) {kind : NodeKind} :
    d.Declares name kind ↔ ∃ m ∈ nodes, m.name = name ∧ m.kind = kind := by
  constructor
  · rintro ⟨x, hx, rfl, hkind⟩
    obtain ⟨m, hm, hfor⟩ := exists_right_of_mem hstands hx
    exact ⟨m, hm, hfor.name, Option.some.inj (hfor.kind.symm.trans hkind)⟩
  · rintro ⟨m, hm, rfl, rfl⟩
    obtain ⟨x, hx, hfor⟩ := exists_left_of_mem hstands hm
    exact ⟨x, hx, hfor.name.symm, hfor.kind⟩

theorem declares_name_iff (hstands : List.Forall₂ Stands d.declarations nodes)
    (hnames : (nodes.map (·.name)).Nodup) (hm : m ∈ nodes) {kind : NodeKind} :
    d.Declares m.name kind ↔ m.kind = kind := by
  rw [declares_iff hstands]
  constructor
  · rintro ⟨m', hm', hname, rfl⟩
    rw [List.inj_on_of_nodup_map hnames hm' hm hname]
  · exact fun hkind => ⟨m, hm, rfl, hkind⟩

theorem outcomeCount_name (hstands : List.Forall₂ Stands d.declarations nodes)
    (hnames : (nodes.map (·.name)).Nodup) (hm : m ∈ nodes) :
    d.outcomeCount m.name = m.outcomes.length := by
  have hlookup : ∀ {xs : List Declaration} {ms : List Node}, List.Forall₂ Stands xs ms →
      (xs.find? (·.name == m.name)).map (·.allOutcomes.length) =
        (ms.find? (·.name == m.name)).map (·.outcomes.length) := by
    intro xs ms h
    induction h with
    | nil => rfl
    | @cons x m' xs ms hfor _ ih =>
        rw [List.find?_cons, List.find?_cons, hfor.name]
        cases x.name == m.name with
        | false => exact ih
        | true =>
            simp only [Option.map_some, Node.outcomes, hfor.declaration, Declaration.filled_outcomes]
  rw [Definition.outcomeCount, hlookup hstands, (find?_name_eq_some_iff hnames).mpr ⟨hm, rfl⟩]
  rfl

theorem entryOf?_eq_some_iff (htargets : (entries.map (·.target)).Nodup) {e : Entry α} :
    entryOf? entries name = some e ↔ e ∈ entries ∧ e.target = name := by
  unfold entryOf?
  constructor
  · intro h
    exact ⟨List.mem_of_find?_eq_some h, by simpa using List.find?_some h⟩
  · rintro ⟨he, rfl⟩
    cases hfind : entries.find? (·.target == e.target) with
    | none => exact absurd (List.find?_eq_none.mp hfind e he) (by simp)
    | some e' =>
        have htarget : e'.target = e.target := by simpa using List.find?_some hfind
        rw [List.inj_on_of_nodup_map htargets (List.mem_of_find?_eq_some hfind) he htarget]

theorem mem_givenOf_iff (htargets : (d.entries.map (·.target)).Nodup) :
    parent ∈ givenOf d.entries name ↔ d.IsParent parent name := by
  constructor
  · intro h
    unfold givenOf at h
    cases hentry : entryOf? d.entries name with
    | none => simp [hentry] at h
    | some e =>
        obtain ⟨he, htarget⟩ := (entryOf?_eq_some_iff htargets).mp hentry
        exact ⟨e, he, htarget, by simpa [hentry] using h⟩
  · rintro ⟨e, he, htarget, h⟩
    simpa [givenOf, (entryOf?_eq_some_iff htargets).mpr ⟨he, htarget⟩] using h

/-- The checks on the entries in terms of what is declared. -/
theorem checked_iff (hstands : List.Forall₂ Stands d.declarations nodes)
    (hnames : (nodes.map (·.name)).Nodup) :
    Checked nodes d.entries ↔ (d.entries.map (·.target)).Nodup ∧
      (∀ e ∈ d.entries, ∃ kind, d.Declares e.target kind) ∧
      (∀ e ∈ d.entries, e.table = none ↔ d.Declares e.target .decision) ∧
      (∀ e ∈ d.entries, e.given.Nodup) ∧
      ∀ e ∈ d.entries, ∀ name ∈ e.given, ∃ kind ≠ .utility, d.Declares name kind := by
  constructor
  · intro h
    refine ⟨h.targets, fun e he => ?_, fun e he => ?_, h.distinct, fun e he name hname => ?_⟩
    · obtain ⟨m, hm, htarget, -⟩ := h.declared e he
      exact ⟨m.kind, (declares_iff hstands).mpr ⟨m, hm, htarget, rfl⟩⟩
    · obtain ⟨m, hm, htarget, htable⟩ := h.declared e he
      rw [← htarget, declares_name_iff hstands hnames hm, htable]
    · obtain ⟨m, hm, hname, hkind⟩ := h.given e he name hname
      exact ⟨m.kind, hkind, (declares_iff hstands).mpr ⟨m, hm, hname, rfl⟩⟩
  · rintro ⟨htargets, hdeclared, htables, hdistinct, hgiven⟩
    refine ⟨htargets, fun e he => ?_, hdistinct, fun e he name hname => ?_⟩
    · obtain ⟨kind, hkind⟩ := hdeclared e he
      obtain ⟨m, hm, htarget, -⟩ := (declares_iff hstands).mp hkind
      refine ⟨m, hm, htarget, ?_⟩
      rw [htables e he, ← htarget, declares_name_iff hstands hnames hm]
    · obtain ⟨kind, hkind, hdeclared⟩ := hgiven e he name hname
      obtain ⟨m, hm, heq, rfl⟩ := (declares_iff hstands).mp hdeclared
      exact ⟨m, hm, heq, hkind⟩

theorem complete_iff (hstands : List.Forall₂ Stands d.declarations nodes) :
    checkComplete nodes d.entries = .ok () ↔
      ∀ x ∈ d.declarations, x.kind? ≠ some .decision → ∃ e ∈ d.entries, e.target = x.name := by
  rw [checkComplete_eq_ok_iff]
  constructor
  · intro h x hx hkind
    obtain ⟨m, hm, hfor⟩ := exists_right_of_mem hstands hx
    rw [← hfor.name]
    exact h m hm fun hdecision => hkind (hdecision ▸ hfor.kind)
  · intro h m hm hkind
    obtain ⟨x, hx, hfor⟩ := exists_left_of_mem hstands hm
    rw [hfor.name]
    exact h x hx fun hdecision => hkind (Option.some.inj (hfor.kind.symm.trans hdecision))

theorem resolveWeight_iff (hstands : List.Forall₂ Stands d.declarations nodes)
    (hnames : (nodes.map (·.name)).Nodup) {w : String × α} :
    (∃ w', resolveWeight nodes w = .ok w') ↔ d.Declares w.1 .utility := by
  simp only [resolveWeight, except_bind_eq_ok, except_guard_eq_ok, find_eq_ok_iff hnames, ne_eq,
    not_not, declares_iff hstands]
  constructor
  · rintro ⟨_, m, ⟨hm, hname⟩, hkind, -⟩
    exact ⟨m, hm, hname, hkind⟩
  · rintro ⟨m, hm, hname, hkind⟩
    exact ⟨_, m, ⟨hm, hname⟩, hkind, rfl⟩

/-! ### The parents -/

theorem getElem?_indexOf_name (hnames : (nodes.map (·.name)).Nodup) (hm : m ∈ nodes) :
    nodes[Node.indexOf nodes m.name]? = some m := by
  rw [getElem?_indexOf]
  exact (find?_name_eq_some_iff hnames).mpr ⟨hm, rfl⟩

theorem isParent_parentsOf {entries : List (Entry α)} {p i : ℕ}
    (h : Precedence.IsParent (parentsOf nodes entries) p i) :
    ∃ m, nodes[i]? = some m ∧ ∃ parent ∈ givenOf entries m.name, Node.indexOf nodes parent = p := by
  rw [Precedence.IsParent, parentsOf, List.getD_eq_getElem?_getD, List.getElem?_map] at h
  cases hi : nodes[i]? with
  | none => simp [hi] at h
  | some m => exact ⟨m, rfl, by simpa [hi] using h⟩

/-- Names whose parents form no cycle can be ordered. -/
theorem exists_order_parentsOf (hnames : (nodes.map (·.name)).Nodup)
    (hchecked : Checked nodes d.entries)
    (hacyclic : ∀ name, ¬Relation.TransGen d.IsParent name name) :
    ∃ order, Precedence.order (parentsOf nodes d.entries) = .ok order := by
  have hparent : ∀ i p, Precedence.IsParent (parentsOf nodes d.entries) p i →
      ∃ m m', nodes[i]? = some m ∧ nodes[p]? = some m' ∧ d.IsParent m'.name m.name := by
    intro i p h
    obtain ⟨m, hi, parent, hgiven, rfl⟩ := isParent_parentsOf h
    obtain ⟨m', hm', rfl, -⟩ := mem_givenOf hchecked hgiven
    exact ⟨m, m', hi, getElem?_indexOf_name hnames hm',
      (mem_givenOf_iff hchecked.targets).mp hgiven⟩
  refine Precedence.exists_order (fun i p h => ?_) fun i hcycle => ?_
  · obtain ⟨-, m', -, hp, -⟩ := hparent i p h
    rw [length_parentsOf]
    exact (List.getElem?_eq_some_iff.mp hp).1
  · refine hacyclic _ (hcycle.lift (fun j => (nodes[j]?.map (·.name)).getD "") fun p j h => ?_)
    obtain ⟨m, m', hj, hp, h⟩ := hparent j p h
    simpa [Function.onFun, hj, hp] using h

theorem map_name_orderedNodes (n : Network α) : n.orderedNodes.map (·.name) = n.orderedNames :=
  List.map_filterMap

theorem Compiled.idxOf_orderedNames_lt [Build] {n : Network α} (hn : n.Compiled) {a b : Node}
    (ha : a ∈ n.nodes) (hb : b ∈ n.nodes) (h : n.rank a.handle.id < n.rank b.handle.id) :
    n.orderedNames.idxOf a.name < n.orderedNames.idxOf b.name := by
  have hnodup : n.orderedNames.Nodup := by
    rw [← map_name_orderedNodes]
    exact (hn.perm_orderedNodes.map _).nodup_iff.mpr hn.declared.names
  have hposition : ∀ {i : ℕ} {m : Node}, n.orderedNodes[i]? = some m →
      n.orderedNames.idxOf m.name = i := by
    intro i m hi
    obtain ⟨hlt, rfl⟩ := List.getElem?_eq_some_iff.mp hi
    have hlt' : i < n.orderedNames.length := by rwa [← map_name_orderedNodes, List.length_map]
    have hname : n.orderedNames[i] = n.orderedNodes[i].name := by
      simp only [← map_name_orderedNodes, List.getElem_map]
    rw [← hname]
    exact hnodup.idxOf_getElem i hlt'
  obtain ⟨i, hi⟩ := List.getElem?_of_mem (hn.mem_orderedNodes.mpr ha)
  obtain ⟨j, hj⟩ := List.getElem?_of_mem (hn.mem_orderedNodes.mpr hb)
  rw [hposition hi, hposition hj]
  by_contra hle
  obtain ⟨hi', rfl⟩ := List.getElem?_eq_some_iff.mp hi
  obtain ⟨hj', rfl⟩ := List.getElem?_eq_some_iff.mp hj
  rcases Nat.lt_or_eq_of_le (Nat.le_of_not_lt hle) with hji | rfl
  · have := List.pairwise_iff_getElem.mp hn.pairwise_rank_orderedNodes j i hj' hi' hji
    omega
  · omega

/-! ### The tables -/

theorem prod_arities (axes : Axes) : axes.count = (axes.map (·.arity)).prod := by
  induction axes with
  | nil => rfl
  | cons v axes ih => rw [Axes.count_cons, ih, List.map_cons, List.prod_cons]

theorem isNamed_handlesOf {n : Network α} {names : List String}
    (h : ∀ name ∈ names, ∃ m ∈ n.nodes, m.name = name) (hnames : (n.nodes.map (·.name)).Nodup) :
    List.Forall₂ n.IsNamed names (handlesOf n.nodes names) := by
  obtain ⟨ms, hms, hhandles⟩ := exists_nodes h
  rw [← hhandles]
  refine List.forall₂_map_right_iff.mpr (hms.imp fun name m hm => ?_)
  obtain ⟨hm, hname⟩ := (find_eq_ok_iff hnames).mp hm
  exact ⟨m, hm, hname, rfl⟩

/-- The axes of a table have as many joint outcomes as are declared for their names. -/
theorem count_handlesOf (hstands : List.Forall₂ Stands d.declarations nodes) (hdeclared : Declared nodes r)
    {names : List String} (h : ∀ name ∈ names, ∃ m ∈ nodes, m.name = name) :
    (handlesOf nodes names).count = (names.map d.outcomeCount).prod := by
  obtain ⟨ms, hms, hhandles⟩ := exists_nodes h
  rw [← hhandles, prod_arities, List.map_map]
  clear hhandles
  induction hms with
  | nil => rfl
  | cons hfind _ ih =>
      obtain ⟨hm, rfl⟩ := (find_eq_ok_iff hdeclared.names).mp hfind
      rw [List.map_cons, List.map_cons, List.prod_cons, List.prod_cons,
        ih fun name hname => h name (List.mem_cons_of_mem _ hname),
        outcomeCount_name hstands hdeclared.names hm, Function.comp_apply, hdeclared.arity _ hm]

theorem handlesOf_append_singleton (hnames : (nodes.map (·.name)).Nodup) (hm : m ∈ nodes)
    (given : List String) : handlesOf nodes (given ++ [m.name]) = handlesOf nodes given ++ [m.handle] := by
  rw [handlesOf, handlesOf, List.filterMap_append, List.filterMap_cons_some (b := m.handle),
    List.filterMap_nil]
  rw [(find?_name_eq_some_iff hnames).mpr ⟨hm, rfl⟩]
  rfl

theorem Checked.exists_node (hchecked : Checked nodes d.entries) {e : Entry α} (he : e ∈ d.entries)
    (hm : m ∈ nodes) : ∀ name ∈ e.given ++ [m.name], ∃ m' ∈ nodes, m'.name = name := by
  refine List.forall_mem_append.mpr ⟨fun name hname => ?_, by simpa using ⟨m, hm, rfl⟩⟩
  obtain ⟨m', hm', heq, -⟩ := hchecked.given e he name hname
  exact ⟨m', hm', heq⟩

variable [Build] [Cell α] {config : Config α} {n : Network α} {f : Factor α}

/-- A table is accepted if its cells are numbers, one for each joint outcome of its parents and its
variable. -/
theorem exists_returns_compileTable (hd : d.WellFormed config)
    (hstands : List.Forall₂ Stands d.declarations nodes) (hdeclared : Declared nodes r)
    (hchecked : Checked nodes d.entries) (hm : m ∈ nodes) (hkind : m.kind ≠ .decision)
    (r' : Registry) : ∃ f r'', Returns (compileTable config nodes d.entries m) r' f r'' := by
  have hnames := hdeclared.names
  obtain ⟨x, hx, hfor⟩ := exists_left_of_mem hstands hm
  obtain ⟨e, he, htarget⟩ := hd.complete x hx fun hdecision =>
    hkind (Option.some.inj (hfor.kind.symm.trans hdecision))
  rw [← hfor.name] at htarget
  have hentry := (entryOf?_eq_some_iff hd.targets_distinct).mpr ⟨he, htarget⟩
  obtain ⟨table, htable⟩ : ∃ table, e.table = some table := by
    refine Option.ne_none_iff_exists'.mp fun hnone => hkind ?_
    rwa [hd.tables e he, htarget, declares_name_iff hstands hnames hm] at hnone
  have hgiven : givenOf d.entries m.name = e.given := by rw [givenOf, hentry]; rfl
  have hknown := hchecked.exists_node he hm
  have hself : m.name ∉ e.given := fun hself => hd.acyclic m.name (.single ⟨e, he, htarget, hself⟩)
  have hdistinct : (e.given ++ [m.name]).Nodup := by
    rw [← List.concat_eq_append]
    exact (hd.given_distinct e he).concat hself
  have haxes := handlesOf_append_singleton hnames hm e.given
  have hcount := hd.cells_count e he table htable
  rw [htarget, ← count_handlesOf hstands hdeclared hknown, haxes] at hcount
  have hnodup := hdeclared.nodup_handlesOf hdistinct
  rw [haxes] at hnodup
  by_cases hnormalize : m.kind = .chance ∧ config.normalizeChance
  · exact ⟨_, _, returns_compileTable_iff.mpr ⟨_, table, by rw [hgiven], by rw [hentry]; exact htable,
      hd.cells_finite e he table htable, hnodup, hcount, by rw [if_pos hnormalize]; exact ⟨rfl, rfl⟩⟩⟩
  · exact ⟨_, _, returns_compileTable_iff.mpr ⟨_, table, by rw [hgiven], by rw [hentry]; exact htable,
      hd.cells_finite e he table htable, hnodup, hcount, by rw [if_neg hnormalize]; exact ⟨rfl, rfl⟩⟩⟩

namespace Compilation

variable (h : Compilation d config n r)

include h

theorem wellFormed_declarations : ∀ x ∈ d.declarations, x.WellFormed :=
  (returns_declareAll h.declare).1

theorem stands : List.Forall₂ Stands d.declarations n.nodes := by
  obtain ⟨-, ms, hnodes, hms⟩ := returns_declareAll h.declare
  rwa [hnodes]

theorem declared : Declared n.nodes r := (declared_declareAll h.declare).1

theorem checked : Checked n.nodes d.entries :=
  (checkEntries_eq_ok_iff h.declared.names).mp h.checkEntries

theorem compiled : n.Compiled := (compiled_of_compile (compile_eq_ok_iff.mpr ⟨r, h⟩)).1

theorem length_declarations : d.declarations.length ≤ UInt32.size := by
  have hnodup : ((Axes.ids (n.nodes.map (·.handle))).map UInt32.toNat).Nodup :=
    h.declared.distinct.map fun _ _ => UInt32.toNat_inj.mp
  have hsub : (Axes.ids (n.nodes.map (·.handle))).map UInt32.toNat ⊆ List.range UInt32.size := by
    intro k hk
    obtain ⟨id, -, rfl⟩ := List.mem_map.mp hk
    exact List.mem_range.mpr id.toNat_lt_size
  have hlength := (hnodup.subperm hsub).length_le
  rwa [List.length_map, Axes.length_ids, List.length_map, List.length_range,
    ← h.stands.length_eq] at hlength

/-- The accepted table of a node. -/
theorem exists_table (hm : m ∈ n.nodes) {t t' : Registry}
    (hf : Returns (compileTable config n.nodes d.entries m) t f t') :
    ∃ e ∈ d.entries, e.target = m.name ∧ ∃ table, e.table = some table ∧
      (∀ cell ∈ table, Cell.nonFinite? cell = none) ∧
      table.length = Build.word ((e.given ++ [m.name]).map d.outcomeCount).prod ∧
      List.Forall₂ n.IsNamed (e.given ++ [m.name]) f.axes ∧
      f.cells.toList = if d.Declares m.name .chance ∧ config.normalizeChance then
        (Table.rows (d.outcomeCount m.name) table.toArray).flatMap Cell.normalize else table := by
  have hnames := h.declared.names
  obtain ⟨axes, table, haxes, htable, hfinite, hnodup, hlength, hcells⟩ :=
    returns_compileTable_iff.mp hf
  obtain ⟨e, hentry, htable⟩ := Option.bind_eq_some_iff.mp htable
  obtain ⟨he, htarget⟩ := (entryOf?_eq_some_iff h.checked.targets).mp hentry
  have hgiven : givenOf d.entries m.name = e.given := by rw [givenOf, hentry]; rfl
  rw [hgiven, ← handlesOf_append_singleton hnames hm] at haxes
  have hknown := h.checked.exists_node he hm
  refine ⟨e, he, htarget, table, htable, hfinite, ?_, ?_, ?_⟩
  · rw [hlength, haxes, Axes.size, count_handlesOf h.stands h.declared hknown]
  · have hfaxes : f.axes = axes := by
      rw [(returns_compileTable h.declared hm hf).1, hgiven, haxes,
        handlesOf_append_singleton hnames hm]
    rw [hfaxes, haxes]
    exact isNamed_handlesOf hknown hnames
  · simp only [declares_name_iff h.stands hnames hm]
    rw [outcomeCount_name h.stands hnames hm, ← h.declared.arity m hm]
    rw [handlesOf_append_singleton hnames hm] at haxes
    split at hcells
    next hnormalize =>
      obtain ⟨rfl, -⟩ := hcells
      rw [if_pos hnormalize]
      change ((Table.rows _ (Table.moveLast _ m.handle).cells).flatMap Cell.normalize).toArray.toList = _
      rw [Table.moveLast_of_last haxes hnodup]
    next hnormalize =>
      obtain ⟨rfl, -⟩ := hcells
      rw [if_neg hnormalize]
      rfl

theorem idxOf_lt_of_isParent {parent name : String} (hparent : d.IsParent parent name) :
    n.orderedNames.idxOf parent < n.orderedNames.idxOf name := by
  have hn := h.compiled
  have hgiven := (mem_givenOf_iff h.checked.targets).mpr hparent
  obtain ⟨e, he, htarget, -⟩ := hparent
  obtain ⟨m, hm, hname, -⟩ := h.checked.declared e he
  obtain ⟨m', hm', rfl, -⟩ := mem_givenOf h.checked hgiven
  rw [← htarget, ← hname] at hgiven ⊢
  refine hn.idxOf_orderedNames_lt hm' hm (hn.rank_lt hm ?_)
  rw [parentHandles, h.entries]
  exact (mem_handlesOf h.declared.names).mpr ⟨m', hm', hgiven, rfl⟩

/-- What is compiled was well-formed. -/
theorem wellFormed : d.WellFormed config := by
  have hnames := h.declared.names
  obtain ⟨hfinite, hdistinct, -⟩ := Config.checkWeights_eq_ok_iff.mp h.check
  obtain ⟨htargets, hdeclared, htables, hgivenDistinct, hgiven⟩ :=
    (checked_iff h.stands hnames).mp h.checked
  -- a table is that of a node, and so it was checked when it was compiled
  have htable : ∀ e ∈ d.entries, ∀ table, e.table = some table →
      (∀ cell ∈ table, Cell.nonFinite? cell = none) ∧
        table.length = Build.word ((e.given ++ [e.target]).map d.outcomeCount).prod := by
    intro e he table htable
    obtain ⟨m, hm, htarget, hkind⟩ := h.checked.declared e he
    have hmem : m ∈ n.orderedNodes.filter (·.kind ≠ .decision) := by
      refine List.mem_filter.mpr ⟨h.compiled.mem_orderedNodes.mpr hm, ?_⟩
      simp [hkind, htable]
    obtain ⟨f, -, t, t', hf⟩ := exists_right_of_mem (forall₂_of_returns_mapM h.tables) hmem
    obtain ⟨e', he', htarget', table', htable', hcells, hlength, -⟩ := h.exists_table hm hf
    obtain rfl : e' = e := List.inj_on_of_nodup_map htargets he' he (htarget'.trans htarget)
    obtain rfl : table' = table := Option.some.inj (htable'.symm.trans htable)
    exact ⟨hcells, by rw [hlength, htarget']⟩
  constructor
  case weights_finite => exact hfinite
  case weights_distinct => exact hdistinct
  case weights_utility =>
    intro w hw
    obtain ⟨w', -, hw'⟩ := exists_right_of_mem h.resolve hw
    exact (resolveWeight_iff h.stands hnames).mp ⟨w', hw'⟩
  case declarations => exact h.wellFormed_declarations
  case names => rwa [map_name_of_stands h.stands] at hnames
  case targets_declared => exact hdeclared
  case targets_distinct => exact htargets
  case given_declared => exact hgiven
  case given_distinct => exact hgivenDistinct
  case tables => exact htables
  case complete => exact (complete_iff h.stands).mp h.checkComplete
  case acyclic => exact Precedence.acyclic_of_idxOf_lt fun _ _ => h.idxOf_lt_of_isParent
  case cells_finite => exact fun e he table ht => (htable e he table ht).1
  case cells_count => exact fun e he table ht => (htable e he table ht).2

theorem represents : n.Represents d config := by
  have hn := h.compiled
  have hnames := h.declared.names
  constructor
  case declarations =>
    have hfilled : ∀ {xs : List Declaration} {ms : List Node}, List.Forall₂ Stands xs ms →
        ms.map (·.declaration) = xs.map (·.filled) := by
      intro xs ms hall
      induction hall with
      | nil => rfl
      | cons hfor _ ih => rw [List.map_cons, List.map_cons, hfor.declaration, ih]
    exact hfilled h.stands
  case entries => exact h.entries
  case options => exact h.config
  case handles_distinct => exact h.declared.distinct
  case handles =>
    intro m hm
    rw [declares_name_iff h.stands hnames hm, outcomeCount_name h.stands hnames hm]
    exact ⟨rfl, h.declared.arity m hm⟩
  case order =>
    rw [← map_name_orderedNodes, ← map_name_of_stands h.stands]
    exact hn.perm_orderedNodes.map _
  case parents_first => exact fun _ _ => h.idxOf_lt_of_isParent
  case factors =>
    have hfilter : (n.orderedNames.filter fun name => ¬d.Declares name .decision) =
        (n.orderedNodes.filter (·.kind ≠ .decision)).map (·.name) := by
      rw [← map_name_orderedNodes, List.filter_map]
      refine congrArg _ (List.filter_congr fun m hm => ?_)
      simp only [Function.comp_apply,
        declares_name_iff h.stands hnames (hn.mem_orderedNodes.mp hm), ne_eq]
    rw [hfilter, List.forall₂_map_left_iff]
    have hall : ∀ {ms : List Node} {fs : List (Factor α)}, (∀ m ∈ ms, m ∈ n.nodes) →
        List.Forall₂ (fun m f => ∃ t t', Returns (compileTable config n.nodes d.entries m) t f t')
          ms fs → List.Forall₂ (fun m f => n.HoldsTable d config m.name f) ms fs := by
      intro ms fs hms hreturns
      induction hreturns with
      | nil => exact .nil
      | cons hf _ ih =>
          obtain ⟨hm, hms⟩ := List.forall_mem_cons.mp hms
          obtain ⟨t, t', hf⟩ := hf
          obtain ⟨e, he, htarget, table, htable, -, -, haxes, hcells⟩ := h.exists_table hm hf
          exact .cons ⟨e, he, htarget, table, htable, haxes, hcells⟩ (ih hms)
    exact hall (fun m hm => hn.mem_orderedNodes.mp (List.mem_of_mem_filter hm))
      (forall₂_of_returns_mapM h.tables)

end Compilation

/-- Well-formed definitions compile. -/
theorem exists_compile (hd : d.WellFormed config) (hsize : d.declarations.length ≤ UInt32.size) :
    ∃ n, compile d config = .ok n := by
  have hcheck : config.check = .ok () :=
    Config.checkWeights_eq_ok_iff.mpr ⟨hd.weights_finite, hd.weights_distinct, by simp⟩
  obtain ⟨nodes, r, hdeclare⟩ : ∃ nodes r, Returns (declareAll d.declarations) {} nodes r :=
    exists_returns_declareAll hd.declarations (by simpa using hd.names)
      (by simpa [Registry.size] using hsize)
  obtain ⟨-, ms, hnodes, hstands⟩ := returns_declareAll hdeclare
  rw [List.nil_append] at hnodes
  subst hnodes
  obtain ⟨hdeclared, -⟩ := declared_declareAll hdeclare
  have hnames := hdeclared.names
  have hchecked : Checked nodes d.entries := (checked_iff hstands hnames).mpr
    ⟨hd.targets_distinct, hd.targets_declared, hd.tables, hd.given_distinct, hd.given_declared⟩
  obtain ⟨order, horder⟩ := exists_order_parentsOf hnames hchecked hd.acyclic
  obtain ⟨factors, r', htables⟩ : ∃ fs r', Returns (((order.filterMap (nodes[·]?)).filter
      (·.kind ≠ .decision)).mapM (compileTable config nodes d.entries)) r fs r' := by
    refine exists_returns_mapM fun m hm r' => ?_
    obtain ⟨hm, hkind⟩ := List.mem_filter.mp hm
    obtain ⟨i, -, hi⟩ := List.mem_filterMap.mp hm
    exact exists_returns_compileTable hd hstands hdeclared hchecked (List.mem_of_getElem? hi)
      (by simpa using hkind) r'
  obtain ⟨weights, hweights⟩ := exists_forall₂ fun w hw =>
    (resolveWeight_iff hstands hnames).mpr (hd.weights_utility w hw)
  exact ⟨⟨nodes, d.entries, config, r', parentsOf nodes d.entries, order, factors,
      dependenciesOf nodes d.entries (order.filterMap (nodes[·]?)), weights, []⟩,
    compile_eq_ok_iff.mpr ⟨r, hcheck, hdeclare, (checkEntries_eq_ok_iff hnames).mpr hchecked,
      (complete_iff hstands).mpr hd.complete, horder, htables, hweights, rfl, rfl, rfl, rfl, rfl⟩⟩

/-- **The well-formed definitions are those that compile, and they compile to what they say.**  An
identity is a word of 32 bits, so there may be no more variables than that. -/
theorem exists_compile_iff_wellFormed (d : Definition α) (config : Config α) :
    ((∃ n, compile d config = .ok n) ↔
      d.WellFormed config ∧ d.declarations.length ≤ UInt32.size) ∧
    ∀ n, compile d config = .ok n → n.Represents d config := by
  refine ⟨⟨?_, fun ⟨hd, hsize⟩ => exists_compile hd hsize⟩, fun n hcompile => ?_⟩
  · rintro ⟨n, hcompile⟩
    obtain ⟨r, h⟩ := compile_eq_ok_iff.mp hcompile
    exact ⟨h.wellFormed, h.length_declarations⟩
  · obtain ⟨r, h⟩ := compile_eq_ok_iff.mp hcompile
    exact h.represents

end

/-- Two decisions, a signal and a weighted payoff. -/
theorem represents_detour : ∃ n, compile detour { weights := [("payoff", 2)] } = .ok n ∧
    detour.WellFormed { weights := [("payoff", 2)] } ∧
    n.Represents detour { weights := [("payoff", 2)] } := by
  obtain ⟨n, hcompile, -⟩ := exists_ok_of_toOption (P := fun _ => True)
    (x := compile detour { weights := [("payoff", 2)] }) (by decide +kernel)
  obtain ⟨hiff, hrepresents⟩ :=
    exists_compile_iff_wellFormed detour { weights := [("payoff", 2)] }
  exact ⟨n, hcompile, (hiff.mp ⟨n, hcompile⟩).1, hrepresents n hcompile⟩

/-- Decisions with names of all lengths below a number. -/
def strokes (k : ℕ) : Definition ℚ where
  declarations := (List.range k).map fun i => ⟨String.ofList (List.replicate i '|'), "decision", ["yes"]⟩
  entries := []

theorem length_strokes (k : ℕ) : (strokes k).declarations.length = k := by
  rw [strokes, List.length_map, List.length_range]

theorem wellFormed_strokes (k : ℕ) : (strokes k).WellFormed {} := by
  have hkind : NodeKind.ofText? "decision" = some .decision := by decide +kernel
  have hdeclared : ∀ x ∈ (strokes k).declarations, x.kind? = some .decision ∧ x.outcomes = ["yes"] := by
    intro x hx
    obtain ⟨i, -, rfl⟩ := List.mem_map.mp hx
    exact ⟨hkind, rfl⟩
  have hnames : ((strokes k).declarations.map (·.name)).Nodup := by
    rw [strokes, List.map_map]
    refine List.nodup_range.map fun i j h => ?_
    simpa using congrArg String.length h
  constructor
  case declarations =>
    intro x hx
    obtain ⟨hkind, houtcomes⟩ := hdeclared x hx
    exact ⟨⟨_, hkind⟩, by simp [hkind], by simp [houtcomes], by simp [houtcomes]⟩
  case names => exact hnames
  case complete => exact fun x hx hkind => absurd (hdeclared x hx).1 hkind
  case acyclic =>
    intro name h
    obtain ⟨_, -, e, he, -⟩ := Relation.TransGen.tail'_iff.mp h
    exact absurd he List.not_mem_nil
  all_goals simp [strokes]

/-- A table without cells is accepted for sixteen dice, and more than `2 ^ 32` variables are refused. -/
theorem exists_compile_not_cellsCount :
    (∃ (d : Definition ℚ) (n : Network ℚ), compile d {} = .ok n ∧ ∃ e ∈ d.entries, e.table = some [] ∧
      ((e.given ++ [e.target]).map d.outcomeCount).prod = 2 ^ 64) ∧
    ∃ d : Definition ℚ, d.WellFormed {} ∧ d.declarations.length = 2 ^ 32 + 1 ∧
      ¬∃ n, compile d {} = .ok n := by
  constructor
  · obtain ⟨n, hcompile, hprod⟩ := exists_ok_of_toOption (x := compile blankDie {})
      (P := fun _ => ∃ e ∈ blankDie.entries, e.table = some [] ∧
        ((e.given ++ [e.target]).map blankDie.outcomeCount).prod = 2 ^ 64)
      (by decide +kernel)
    exact ⟨blankDie, n, hcompile, hprod⟩
  · refine ⟨strokes (2 ^ 32 + 1), wellFormed_strokes _, length_strokes _, ?_⟩
    rintro ⟨n, hcompile⟩
    obtain ⟨r, h⟩ := compile_eq_ok_iff.mp hcompile
    have hlength := h.length_declarations
    rw [length_strokes] at hlength
    exact absurd hlength (by decide)

end Network

end Influence
