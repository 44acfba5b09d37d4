import Influence.Proofs.Network.Acceptance
import Influence.Proofs.Network.Effects
import Influence.Proofs.Network.Entries
import Influence.Proofs.Network.Shapes
import Influence.Proofs.Table.Conditional

/-! # The scale of the rows of a chance table

If chance tables are normalized, each of their rows matters only up to a factor: a definition in which
rows that do not add up to zero are multiplied by numbers other than zero compiles to the same factors
(`Network.compile_of_differsInRows`), and every sequence of calls returns the same
(`Network.normalization_forgets_row_scales`).  A row that adds up to zero is not normalized, so its scale
remains (`Network.zero_row_keeps_its_scale`).

The two networks still hold different entries, which a call that replaces a table compiles anew.  It
then compiles two definitions that differ in the same way. -/

namespace Influence

open Table (IsMultiple IsRescaled)

/-! ### Definitions that differ in rows -/

namespace Definition

variable {R : List ℚ → List ℚ → Prop} {d d' : Definition ℚ} {e e' : Entry ℚ}

/-- The second entry is the first one, or it is for a chance variable and its table has related rows. -/
def RelatesEntry (R : List ℚ → List ℚ → Prop) (d : Definition ℚ) (e e' : Entry ℚ) : Prop :=
  e' = e ∨ d.Declares e.target .chance ∧ ∃ table table', e.table = some table ∧
    e' = { e with table := some table' } ∧ table'.length = table.length ∧
    List.Forall₂ R (Table.rows (d.outcomeCount e.target) table.toArray)
      (Table.rows (d.outcomeCount e.target) table'.toArray)

/-- The definitions differ in rows of chance tables alone. -/
structure DiffersInRows (R : List ℚ → List ℚ → Prop) (d d' : Definition ℚ) : Prop where
  declarations : d'.declarations = d.declarations
  entries : List.Forall₂ (d.RelatesEntry R) d.entries d'.entries

theorem relatesEntry_of_rows {table table' : List ℚ} {rows rows' : List (List ℚ)}
    (hchance : d.Declares e.target .chance) (htable : e.table = some table)
    (hlength : table'.length = table.length)
    (hrows : Table.rows (d.outcomeCount e.target) table.toArray = rows)
    (hrows' : Table.rows (d.outcomeCount e.target) table'.toArray = rows')
    (h : List.Forall₂ R rows rows') : d.RelatesEntry R e { e with table := some table' } := by
  subst hrows hrows'
  exact .inr ⟨hchance, table, table', htable, rfl, hlength, h⟩

theorem RelatesEntry.sameShape (h : d.RelatesEntry R e e') : e.SameShape e' := by
  rcases h with rfl | ⟨-, table, table', htable, rfl, -⟩
  · exact ⟨rfl, rfl, .rfl⟩
  · exact ⟨rfl, rfl, by simp [htable]⟩

theorem DiffersInRows.shapes (h : d.DiffersInRows R d') :
    List.Forall₂ Entry.SameShape d.entries d'.entries := h.entries.imp fun _ _ => RelatesEntry.sameShape

theorem DiffersInRows.withTable (h : d.DiffersInRows R d') (name : String) (table : List ℚ) :
    (d.withTable name table).DiffersInRows R (d'.withTable name table) := by
  refine ⟨h.declarations, ?_⟩
  show List.Forall₂ (d.RelatesEntry R) (List.map _ d.entries) (List.map _ d'.entries)
  rw [List.forall₂_map_left_iff, List.forall₂_map_right_iff]
  refine h.entries.imp fun e e' he => ?_
  have htarget := he.sameShape.target
  rw [htarget]
  split
  · rcases he with rfl | ⟨-, -, -, -, rfl, -⟩
    · exact .inl rfl
    · exact .inl rfl
  · exact he

end Definition

namespace Network

/-! ### Tables -/

section

variable [Build] {d d' : Definition ℚ} {config : Config ℚ} {nodes : List Node} {r : Registry} {m : Node}

/-- A chance table compiles to the same factor whatever the scales of its rows are. -/
theorem compileTable_congr (hnormalize : config.normalizeChance = true)
    (hdeclared : Declared nodes r) (hstands : List.Forall₂ Stands d.declarations nodes)
    (h : d.DiffersInRows IsRescaled d') (hm : m ∈ nodes) :
    compileTable config nodes d'.entries m = compileTable config nodes d.entries m := by
  unfold compileTable
  rw [givenOf_congr h.shapes]
  have hentry := rel_entryOf? h.entries (fun _ _ he => he.sameShape.target) m.name
  revert hentry
  have htarget : ∀ e, entryOf? d.entries m.name = some e → e.target = m.name := fun e he => by
    simpa using List.find?_some he
  revert htarget
  generalize entryOf? d.entries m.name = o
  generalize entryOf? d'.entries m.name = o'
  rintro htarget (@⟨e, e', he⟩ | _)
  case none => rfl
  rcases he with rfl | ⟨hchance, table, table', htable, rfl, hlength, hrows⟩
  · rfl
  have hnone : ∀ cells : List ℚ, cells.findSome? Cell.nonFinite? = none := fun cells =>
    List.findSome?_eq_none_iff.mpr fun _ _ => rfl
  rw [htarget e rfl, declares_name_iff hstands hdeclared.names hm] at hchance
  rw [htarget e rfl, outcomeCount_name hstands hdeclared.names hm, ← hdeclared.arity m hm] at hrows
  simp only [Option.bind_some, htable, hnone, hchance, hnormalize, and_self, if_true]
  refine Factor.create_normalizeFor_congr rfl (by simpa using hlength)
    fun hnodup => ?_
  have hcells : ∀ cells : Array ℚ, Table.normalizeFor ⟨handlesOf nodes (givenOf d.entries m.name) ++
      [m.handle], cells⟩ m.handle = ⟨handlesOf nodes (givenOf d.entries m.name) ++ [m.handle],
        ((Table.rows m.handle.arity cells).flatMap Cell.normalize).toArray⟩ := by
    intro cells
    unfold Table.normalizeFor
    rw [Table.moveLast_of_last rfl hnodup]
  rw [hcells, hcells, Table.flatMap_normalize_eq hrows]

/-! ### Networks -/

/-- **Definitions that differ in the scales of rows compile alike.**  They compile to networks with the
same factors, which differ in the entries that they hold, or fail for the same cause. -/
theorem compile_of_differsInRows (hnormalize : config.normalizeChance = true)
    (h : d.DiffersInRows IsRescaled d') :
    compile d' config = (compile d config).map (withEntries d'.entries) := by
  have hrun : Lockstep Eq (fun n r n' r' => n' = n.withEntries d'.entries ∧ r = r')
      (runFrom (compileWith d config) {}) (runFrom (compileWith d' config) {}) := by
    unfold compileWith
    refine .bind_same fun _ _ hcheck => ?_
    obtain ⟨-, rfl⟩ := returns_except.mp hcheck
    rw [h.declarations]
    refine .bind_same fun nodes r hdeclare => ?_
    obtain ⟨hdeclared, -⟩ := declared_declareAll hdeclare
    obtain ⟨-, ms, hms, hstands⟩ := returns_declareAll hdeclare
    obtain rfl : nodes = ms := by simpa using hms
    rw [checkEntries_congr h.shapes rfl, checkComplete_congr h.shapes]
    refine .bind_same fun _ _ _ => .bind_same fun _ _ _ => ?_
    have hparents : parentsOf nodes d'.entries = parentsOf nodes d.entries := by
      rw [parentsOf, parentsOf, givenOf_congr h.shapes]
    have hdependencies : dependenciesOf nodes d'.entries = dependenciesOf nodes d.entries := by
      funext ordered
      rw [dependenciesOf, dependenciesOf, givenOf_congr h.shapes]
    rw [hparents, hdependencies]
    refine .bind_same fun order _ _ => ?_
    have htables : ((order.filterMap (nodes[·]?)).filter (·.kind ≠ .decision)).mapM
        (compileTable config nodes d'.entries) = ((order.filterMap (nodes[·]?)).filter
          (·.kind ≠ .decision)).mapM (compileTable config nodes d.entries) := by
      refine mapM_congr fun m hm => ?_
      obtain ⟨i, -, hi⟩ := List.mem_filterMap.mp (List.mem_of_mem_filter hm)
      exact compileTable_congr hnormalize hdeclared hstands h (List.mem_of_getElem? hi)
    dsimp only
    rw [htables]
    refine .bind_same fun factors _ _ => .bind_same fun weights _ _ => .bind_same fun _ _ _ => ?_
    exact .pure ⟨rfl, rfl⟩
  have hcompile : ∀ d : Definition ℚ, compile d config = (runFrom (compileWith d config) {}).1 :=
    fun _ => rfl
  rw [hcompile, hcompile]
  generalize runFrom (compileWith d config) {} = p at hrun ⊢
  generalize runFrom (compileWith d' config) {} = q at hrun ⊢
  cases hrun with
  | ok hn => exact congrArg Except.ok hn.1
  | error => rfl

/-- Definitions of compiled networks differ as those do that they were compiled from. -/
theorem differsInRows_definition {R : List ℚ → List ℚ → Prop} {n : Network ℚ}
    (hcompile : compile d config = .ok n) (h : d.DiffersInRows R d') :
    n.definition.DiffersInRows R (n.withEntries d'.entries).definition := by
  obtain ⟨r, hc⟩ := compile_eq_ok_iff.mp hcompile
  obtain ⟨r', hagain⟩ := compile_eq_ok_iff.mp (compile_definition hcompile)
  have hnames := hc.declared.names
  refine ⟨rfl, ?_⟩
  show List.Forall₂ (n.definition.RelatesEntry R) n.entries d'.entries
  rw [hc.entries]
  refine h.entries.imp fun e e' he => he.imp_right ?_
  rintro ⟨hchance, table, table', htable, hcells, hlength, hrows⟩
  obtain ⟨m, hm, hname, hkind⟩ := (declares_iff hc.stands).mp hchance
  refine ⟨(declares_iff hagain.stands).mpr ⟨m, hm, hname, hkind⟩, table, table', htable, hcells,
    hlength, ?_⟩
  rw [← hname, outcomeCount_name hc.stands hnames hm] at hrows
  rwa [← hname, outcomeCount_name hagain.stands hnames hm]

/-- The two networks differ in the entries that they hold, and these in the scales of rows that are
normalized. -/
structure ScaledAlike (n n' : Network ℚ) : Prop where
  normalize : n.config.normalizeChance = true
  same : ∃ entries, n' = n.withEntries entries
  differ : n.definition.DiffersInRows IsRescaled n'.definition

theorem scaledAlike_of_compile {n : Network ℚ} (hnormalize : config.normalizeChance = true)
    (h : d.DiffersInRows IsRescaled d') (hcompile : compile d config = .ok n) :
    ScaledAlike n (n.withEntries d'.entries) := by
  obtain ⟨r, hc⟩ := compile_eq_ok_iff.mp hcompile
  exact ⟨hc.config ▸ hnormalize, ⟨_, rfl⟩, differsInRows_definition hcompile h⟩

variable {n n' : Network ℚ}

/-- A call that replaces a table compiles definitions that differ in the scales of rows again. -/
theorem ScaledAlike.replaceTable (h : ScaledAlike n n') (name : String) (table : List ℚ) :
    Lockstep ScaledAlike (fun _ m _ m' => ScaledAlike m m')
      (runFrom (NetworkM.replaceTable name table) n)
      (runFrom (NetworkM.replaceTable name table) n') := by
  obtain ⟨hnormalize, ⟨entries, rfl⟩, hdiffer⟩ := h
  have hcompile : compile ((n.withEntries entries).definition.withTable name table) n.config = _ :=
    compile_of_differsInRows hnormalize (hdiffer.withTable name table)
  have hentry : Option.Rel Entry.SameShape (entryOf? n.entries name)
      (entryOf? (n.withEntries entries).entries name) :=
    rel_entryOf? hdiffer.shapes (fun _ _ he => he.target) name
  have halike : ScaledAlike n (n.withEntries entries) := ⟨hnormalize, ⟨entries, rfl⟩, hdiffer⟩
  unfold NetworkM.replaceTable
  refine .getBoth ?_
  revert hentry
  generalize entryOf? n.entries name = o
  generalize entryOf? (n.withEntries entries).entries name = o'
  rintro (he | _)
  case none =>
    have hnodes : (n.withEntries entries).nodes = n.nodes := rfl
    dsimp only
    rw [hnodes]
    split <;> exact .throw halike
  refine .guard ?_ halike fun _ => ?_
  · simp only [Option.isNone_iff_eq_none]
    exact he.table.symm
  show Lockstep _ _ _ (runFrom (liftM (compile ((n.withEntries entries).definition.withTable name table)
    n.config) >>= _) _)
  rw [hcompile]
  cases hc : compile (n.definition.withTable name table) n.config with
  | error e => exact .error halike
  | ok m => exact .ok (scaledAlike_of_compile hnormalize (hdiffer.withTable name table) hc)

/-- A call on the two networks returns the same and leads to two such networks. -/
theorem ScaledAlike.call (h : ScaledAlike n n') (c : Call ℚ) :
    (runFrom c.run n').1 = (runFrom c.run n).1 ∧
      ScaledAlike (runFrom c.run n).2 (runFrom c.run n').2 := by
  by_cases hc : ∃ name table, c = .replaceTable name table
  · obtain ⟨name, table, rfl⟩ := hc
    have hrun : Lockstep ScaledAlike (fun a m a' m' => a' = a ∧ ScaledAlike m m')
        (runFrom (Call.replaceTable name table).run n) (runFrom (Call.replaceTable name table).run n') :=
      .bind (h.replaceTable name table) fun _ _ _ _ h => .pure ⟨rfl, h⟩
    have hsame := hrun.map_eq (g := id) fun _ _ _ _ h => h.1.symm
    rw [Except.map_id] at hsame
    exact ⟨hsame.symm, hrun.states fun _ _ _ _ h => h.2⟩
  · have hc : ∀ name table, c ≠ .replaceTable name table := fun name table heq => hc ⟨name, table, heq⟩
    have hkept := (Call.keeps_continues hc n).rest
    obtain ⟨hnormalize, ⟨entries, rfl⟩, hdiffer⟩ := h
    rw [Call.overlooks_entries hc n]
    refine ⟨rfl, ⟨?_, ⟨entries, rfl⟩, ?_⟩⟩
    · rw [hkept]
      exact hnormalize
    · rw [hkept]
      exact hdiffer

/-- What some calls return, one after the other. -/
def answers {α : Type} [Cell α] (n : Network α) : List (Call α) → List (Except Error (Answer α))
  | [] => []
  | c :: calls => (runFrom c.run n).1 :: (runFrom c.run n).2.answers calls

theorem ScaledAlike.answers (h : ScaledAlike n n') (calls : List (Call ℚ)) :
    n'.answers calls = n.answers calls := by
  induction calls generalizing n n' with
  | nil => rfl
  | cons c calls ih =>
      obtain ⟨hsame, halike⟩ := h.call c
      rw [Network.answers, Network.answers, hsame, ih halike]

end

/-- **Normalizing makes conditionals, so that the scale of a row does not matter.**  A factor normalized
for one of its variables is a conditional of that variable, and normalizing it once more changes
nothing.  If chance tables are normalized, two definitions that differ only in multiples of rows that do
not add up to zero compile to the same factors or fail for the same cause, and the networks return the
same for every sequence of calls. -/
theorem normalization_forgets_row_scales :
    (∀ (f : Factor ℚ) (v : Variable), f.table.WellFormed → f.axes.Includes v → ∀ r, ∃ g,
      Returns (f.normalizeFor v) r g (r.after 2) ∧ f.IsConditionalOf v g ∧
      ∀ r', ∃ h, Returns (g.normalizeFor v) r' h (r'.after 2) ∧ h.table = g.table) ∧
    ∀ (d d' : Definition ℚ) (config : Config ℚ), config.normalizeChance = true →
      d.DiffersInRows IsRescaled d' →
      (∀ e, compile d' config = .error e ↔ compile d config = .error e) ∧
      ∀ n, compile d config = .ok n → ∃ n', compile d' config = .ok n' ∧ n'.factors = n.factors ∧
        ∀ calls, n'.answers calls = n.answers calls := by
  refine ⟨fun f v hf hv r => Factor.exists_returns_normalizeFor hf hv r,
    fun d d' config hnormalize h => ?_⟩
  have hcompile := compile_of_differsInRows hnormalize h
  refine ⟨fun e => ?_, fun n hn => ?_⟩
  · rw [hcompile]
    cases compile d config <;> simp [Except.map]
  · refine ⟨n.withEntries d'.entries, by rw [hcompile, hn]; rfl, rfl, ?_⟩
    exact (scaledAlike_of_compile hnormalize h hn).answers

/-- A factor with a row that adds up to zero, and a forecast whose rows are halved, negated and, since it
adds up to zero, kept.  A call in the middle replaces a table. -/
theorem normalization_forgets_row_scales_of_forecast :
    let rain : Variable := ⟨0, 2, .chance⟩
    let walk : Variable := ⟨1, 2, .decision⟩
    let f : Factor ℚ := ⟨0, ⟨[rain, walk], #[1, 2, 3, -2]⟩⟩
    let r : Registry := ⟨[rain, walk], 2, 1⟩
    let declared : List Declaration :=
      [⟨"rain", "chance", ["wet", "dry"]⟩, ⟨"forecast", "chance", ["bad", "good"]⟩]
    let d : Definition ℚ :=
      ⟨declared, [⟨"rain", [], some [1, 3]⟩, ⟨"forecast", ["rain"], some [2, 1, 1, -1]⟩]⟩
    let d' : Definition ℚ :=
      ⟨declared, [⟨"rain", [], some [1 / 2, 3 / 2]⟩, ⟨"forecast", ["rain"], some [-2, -1, 1, -1]⟩]⟩
    let calls : List (Call ℚ) := [.joint [] ["forecast"], .replaceTable "rain" [1, 1],
      .solveQuery [("forecast", "bad")] ["rain"], .solveUtility [] [] none]
    (∃ g, Returns (f.normalizeFor rain) r g (r.after 2) ∧ f.IsConditionalOf rain g ∧
      ∃ h, Returns (g.normalizeFor rain) r h (r.after 2) ∧ h.table = g.table) ∧
    d.DiffersInRows IsRescaled d' ∧
    ∃ n n', compile d {} = .ok n ∧ compile d' {} = .ok n' ∧ n'.factors = n.factors ∧
      n'.answers calls = n.answers calls := by
  intro rain walk f r declared d d' calls
  obtain ⟨hconditional, hrows⟩ := normalization_forgets_row_scales
  obtain ⟨g, hg, hisConditional, hagain⟩ := hconditional f rain (by decide) (by decide) r
  have hrain : List.Forall₂ IsRescaled [[1, 3]] [[1 / 2, 3 / 2]] :=
    .cons ⟨⟨1 / 2, by norm_num, by norm_num⟩, fun h => absurd h (by norm_num)⟩ .nil
  have hforecast : List.Forall₂ IsRescaled [[2, 1], [1, -1]] [[-2, -1], [1, -1]] :=
    .cons ⟨⟨-1, by norm_num, by norm_num⟩, fun h => absurd h (by norm_num)⟩
      (.cons ⟨⟨1, one_ne_zero, by norm_num⟩, fun _ => rfl⟩ .nil)
  have hdiffer : d.DiffersInRows IsRescaled d' := ⟨rfl,
    .cons (Definition.relatesEntry_of_rows (by decide +kernel) rfl rfl (by decide +kernel)
      (by decide +kernel) hrain)
    (.cons (Definition.relatesEntry_of_rows (by decide +kernel) rfl rfl (by decide +kernel)
      (by decide +kernel) hforecast) .nil)⟩
  obtain ⟨n, hcompile, -⟩ := exists_ok_of_toOption (P := fun _ => True) (x := compile d {})
    (by decide +kernel)
  obtain ⟨-, hsame⟩ := hrows d d' {} rfl hdiffer
  obtain ⟨n', hcompile', hfactors, hanswers⟩ := hsame n hcompile
  exact ⟨⟨g, hg, hisConditional, hagain r⟩, hdiffer, n, n', hcompile, hcompile', hfactors,
    hanswers calls⟩

/-- A row that adds up to zero keeps its scale: doubling it doubles the cells of the factor and of the
answers, although chance tables are normalized. -/
theorem zero_row_keeps_its_scale :
    let coin : List ℚ → Definition ℚ := fun table =>
      ⟨[⟨"coin", "chance", ["heads", "tails"]⟩], [⟨"coin", [], some table⟩]⟩
    ({} : Config ℚ).normalizeChance = true ∧ (coin [1, -1]).DiffersInRows IsMultiple (coin [2, -2]) ∧
    ∃ n n', compile (coin [1, -1]) {} = .ok n ∧ compile (coin [2, -2]) {} = .ok n' ∧
      n.factors.map (·.cells) = [#[1, -1]] ∧ n'.factors.map (·.cells) = [#[2, -2]] ∧
      n'.answers [.joint [] ["coin"]] ≠ n.answers [.joint [] ["coin"]] := by
  intro coin
  have hdouble : List.Forall₂ IsMultiple [[1, -1]] [[2, -2]] :=
    .cons ⟨2, two_ne_zero, by norm_num⟩ .nil
  have hdiffer : (coin [1, -1]).DiffersInRows IsMultiple (coin [2, -2]) := ⟨rfl,
    .cons (Definition.relatesEntry_of_rows (by decide +kernel) rfl rfl (by decide +kernel)
      (by decide +kernel) hdouble) .nil⟩
  obtain ⟨n, hcompile, hcells, hjoint⟩ := exists_ok_of_toOption (x := compile (coin [1, -1]) {})
    (P := fun n => n.factors.map (·.cells) = [#[1, -1]] ∧
      ∃ f ∈ (runFrom (NetworkM.joint [] ["coin"]) n).1.toOption, f.cells = #[1, -1]) (by decide +kernel)
  obtain ⟨n', hcompile', hcells', hjoint'⟩ := exists_ok_of_toOption (x := compile (coin [2, -2]) {})
    (P := fun n => n.factors.map (·.cells) = [#[2, -2]] ∧
      ∃ f ∈ (runFrom (NetworkM.joint [] ["coin"]) n).1.toOption, f.cells = #[2, -2]) (by decide +kernel)
  obtain ⟨f, m, hf, hfcells⟩ := exists_returns_of_toOption hjoint
  obtain ⟨f', m', hf', hfcells'⟩ := exists_returns_of_toOption hjoint'
  have hanswers : ∀ {k : Network ℚ} {g m}, Returns (NetworkM.joint [] ["coin"]) k g m →
      k.answers [.joint [] ["coin"]] = [.ok (.factor g)] := by
    intro k g m hg
    have hcall : Returns (Call.joint [] ["coin"]).run k (.factor g) m :=
      returns_bind.mpr ⟨g, m, hg, returns_pure.mpr ⟨rfl, rfl⟩⟩
    rw [answers, show runFrom _ k = _ from hcall]
    rfl
  refine ⟨rfl, hdiffer, n, n', hcompile, hcompile', hcells, hcells', fun heq => ?_⟩
  rw [hanswers hf, hanswers hf'] at heq
  have hsame : f' = f := by simpa using heq
  rw [hsame, hfcells] at hfcells'
  exact absurd hfcells' (by decide +kernel)

end Network

end Influence
