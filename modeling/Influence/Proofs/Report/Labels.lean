import Influence.Proofs.Network.Layouts
import Influence.Proofs.Table.Indexing
import Influence.Report.Summary

/-! # The labels of a summary

A summary numbers the rows of a table and decodes each number with the outcome counts of the named
variables (`Report.labelParts`); the rows of a rule are cut from its table by the number of outcomes of the
decision (`Report.rowsOf`).  Neither looks at the axes of a factor.

Both agree with the layout in which the tables were made: a label names the outcomes at the coordinates
that `Factor.outcomes` decodes (`Report.labels_labelParts`), and row `i` of a rule holds the cells at the
coordinates of the parents with number `i` (`Report.isPolicyLine_policyRow`).  So every combination has
one line, in row-major order, and beside its label stands the cell at its coordinates
(`Report.summaryLines_labelled`).

This takes fewer than `Build.room` combinations.  With more of them a table may have fewer cells than
combinations, or none at all (`Report.exists_policyLines_not_showsPolicy`). -/

namespace Influence

variable {α : Type}

namespace Network

variable [Build] {n : Network α} {name : String} {v : Variable}

theorem outcomesOf_of_isAxis (hn : n.Compiled) (h : n.IsAxis name v) :
    (n.outcomesOf name).length = v.arity ∧ 0 < v.arity := by
  obtain ⟨m, hm, hname, -, harity⟩ := h
  rw [outcomesOf, (find?_name_eq_some_iff hn.declared.names).mpr ⟨hm, hname⟩]
  refine ⟨harity, ?_⟩
  rw [← harity, ← hn.declared.arity m hm]
  exact hn.declared.arity_pos m hm

theorem arity_pos_of_forall₂_isAxis (hn : n.Compiled) {names : List String} {axes : Axes}
    (h : List.Forall₂ n.IsAxis names axes) : ∀ v ∈ axes, 0 < v.arity := fun _ hv =>
  let ⟨_, _, h⟩ := exists_left_of_mem h hv
  (outcomesOf_of_isAxis hn h).2

/-- The number of combinations of the outcomes of some variables. -/
def combinations (n : Network α) (names : List String) : ℕ :=
  Layout.size (names.map fun name => (n.outcomesOf name).length)

theorem count_of_forall₂_isAxis (hn : n.Compiled) {names : List String} {axes : Axes}
    (h : List.Forall₂ n.IsAxis names axes) : axes.count = n.combinations names := by
  refine congrArg Layout.size ?_
  induction h with
  | nil => rfl
  | cons hv _ ih =>
      rw [Axes.arities_cons, List.map_cons, ih]
      exact congrArg (· :: _) (outcomesOf_of_isAxis hn hv).1.symm

theorem IsLayout.exists_axes {names : List String} {f : Factor α} (hf : n.IsLayout (names ++ [name]) f) :
    ∃ (front : Axes) (v : Variable), f.axes = front ++ [v] ∧ List.Forall₂ n.IsAxis names front ∧
      n.IsAxis name v := by
  obtain ⟨front, last, haxes, hfront, hlast⟩ := exists_append_of_forall₂ hf.axes
  obtain ⟨v, _, hv, hnil, rfl⟩ := List.forall₂_cons_left_iff.mp hlast
  obtain rfl := List.forall₂_nil_left_iff.mp hnil
  exact ⟨front, v, haxes, hfront, hv⟩

end Network

namespace Report

open Network

variable {n : Network α} {names : List String} {axes : Axes} {cs : List ℕ} {parts : List String}

/-! ### Labels -/

/-- The parts of a label: for each variable, in the order listed, its name with the name of its outcome
at its coordinate. -/
inductive Labels (n : Network α) : List String → List ℕ → List String → Prop
  | nil : Labels n [] [] []
  | cons {name outcome : String} {names : List String} {c : ℕ} {cs : List ℕ} {parts : List String} :
      (n.outcomesOf name)[c]? = some outcome → Labels n names cs parts →
      Labels n (name :: names) (c :: cs) ((name ++ "=" ++ outcome) :: parts)

/-- Dividing by the outcome counts of the names decodes the row along the axes. -/
theorem labels_labelParts [Build] (hn : n.Compiled) (h : List.Forall₂ n.IsAxis names axes) (row : ℕ) :
    Labels n names (Layout.coords axes.arities row) (labelParts n names row).1 ∧
      (labelParts n names row).2 = row / axes.count := by
  induction h with
  | nil => exact ⟨.nil, (Nat.div_one row).symm⟩
  | @cons name v names axes hv _ ih =>
      -- the later names have divided by their outcome counts, which is the stride of this axis
      obtain ⟨hlabels, hrest⟩ := ih
      obtain ⟨hlength, hpos⟩ := outcomesOf_of_isAxis hn hv
      have hlt : row / Axes.count axes % v.arity < (n.outcomesOf name).length := by
        rw [hlength]
        exact Nat.mod_lt _ hpos
      have hmax : max (n.outcomesOf name).length 1 = v.arity := by omega
      simp only [labelParts, hrest, hmax, Axes.arities_cons, Layout.coords_cons, Axes.count_cons]
      refine ⟨.cons ?_ hlabels, by rw [Nat.div_div_eq_div_mul, Nat.mul_comm]⟩
      rw [List.getD_eq_getElem _ _ hlt]
      exact List.getElem?_eq_getElem hlt

/-! ### Utilities -/

theorem forall₂_coordinates {β : Type} {R : List ℕ → String → Prop} {rows : List β}
    {line : β × ℕ → String} (hlength : rows.length = axes.count)
    (h : ∀ i row, rows[i]? = some row → R (Layout.coords axes.arities i) (line (row, i))) :
    List.Forall₂ R axes.coordinates (rows.zipIdx.map line) := by
  rw [Axes.coordinates, List.forall₂_map_left_iff, List.forall₂_map_right_iff]
  refine List.forall₂_iff_get.mpr ⟨by simp [hlength], fun i hi hi' => ?_⟩
  have hlt : i < rows.length := by simpa using hi'
  simpa using h i rows[i] (List.getElem?_eq_getElem hlt)

section

variable [Cell α] {t : CellText α} {f : Factor α} {p : Policy α}

/-- The line shows the cell at some coordinates, labelled with the outcomes there. -/
def IsUtilityLine [Build] (t : CellText α) (n : Network α) (names : List String) (f : Factor α) (cs : List ℕ)
    (line : String) : Prop :=
  ∃ parts x, Labels n names cs parts ∧ f.cellAt cs = .ok x ∧
    line = "  " ++ ", ".intercalate parts ++ " = " ++ t.value x

/-- The lines show the cells of a factor, one line each in their order.  Without variables there is one
cell, which needs no label. -/
structure ShowsUtility [Build] (t : CellText α) (n : Network α) (names : List String) (f : Factor α)
    (lines : List String) : Prop where
  scalar : names = [] → ∃ x, f.cellAt [] = .ok x ∧ lines = ["Expected utility = " ++ t.value x]
  rows : names ≠ [] → ∃ css body, f.axes.IsListing css ∧
    lines = ("Expected utility over " ++ ", ".intercalate names ++ ":") :: body ∧
    List.Forall₂ (IsUtilityLine t n names f) css body

omit [Cell α] in
theorem utilityLines_nil (x : α) : utilityLines t n ⟨[], [x]⟩ = ["Expected utility = " ++ t.value x] :=
  rfl

omit [Cell α] in
theorem utilityLines_of_ne_nil (hne : names ≠ []) (values : List α) :
    utilityLines t n ⟨names, values⟩ = ("Expected utility over " ++ ", ".intercalate names ++ ":") ::
      values.zipIdx.map fun (x, row) => "  " ++ label n names row ++ " = " ++ t.value x := by
  cases names with
  | nil => exact absurd rfl hne
  | cons name names => rfl

theorem showsUtility_utilityLines [Build] (t : CellText α) (hn : n.Compiled) (hf : n.IsLayout names f)
    (hroom : n.combinations names < Build.room) :
    ShowsUtility t n names f (utilityLines t n ⟨names, f.cells.toList⟩) := by
  have htable := hf.shaped.wellFormed_of_lt ((count_of_forall₂_isAxis hn hf.axes).trans_lt hroom)
  have hsize : f.cells.toList.length = f.axes.count := by
    rw [Array.length_toList]
    exact htable.size_cells
  have hcell : ∀ i x, f.cells.toList[i]? = some x →
      f.cellAt (Layout.coords f.axes.arities i) = .ok x := by
    intro i x hx
    obtain ⟨hi, rfl⟩ := List.getElem?_eq_some_iff.mp hx
    rw [Factor.cellAt_coords htable (hsize ▸ hi), Table.read_eq_getD_toList]
    exact congrArg Except.ok (List.getD_eq_getElem _ _ hi)
  constructor
  case scalar =>
    rintro rfl
    have haxes : f.axes = [] := List.forall₂_nil_left_iff.mp hf.axes
    rw [haxes] at hsize hcell
    obtain ⟨x, hx⟩ := List.length_eq_one_iff.mp hsize
    refine ⟨x, hcell 0 x (by rw [hx]; rfl), ?_⟩
    rw [hx, utilityLines_nil]
  case rows =>
    intro hne
    refine ⟨f.axes.coordinates, _, Axes.isListing_coordinates htable.arity_pos,
      utilityLines_of_ne_nil hne _, ?_⟩
    exact forall₂_coordinates hsize fun i x hx =>
      ⟨_, x, (labels_labelParts hn hf.axes i).1, hcell i x hx, rfl⟩

/-! ### Policies -/

/-- The texts are those of the outcomes of a decision with positive cells, in their order. -/
def ListsChoice (t : CellText α) (outcomes : List String) (cell : ℕ → Except Error α)
    (texts : List String) : Prop :=
  ∃ ks : List ℕ, ks.Pairwise (· < ·) ∧ (∀ k, k ∈ ks ↔ ∃ x, cell k = .ok x ∧ Cell.less 0 x) ∧
    List.Forall₂ (fun k text => ∃ outcome x, outcomes[k]? = some outcome ∧ cell k = .ok x ∧
      text = if Cell.less x 1 then outcome ++ " (" ++ t.share x ++ ")" else outcome) ks texts

/-- The line shows what is chosen at some coordinates of the parents, labelled with the outcomes
there. -/
def IsPolicyLine [Build] (t : CellText α) (n : Network α) (p : Policy α) (f : Factor α) (cs : List ℕ)
    (line : String) : Prop :=
  ∃ parts texts, Labels n p.given cs parts ∧
    ListsChoice t (n.outcomesOf p.name) (fun k => f.cellAt (cs ++ [k])) texts ∧
    line = "    " ++ (if p.given = [] then "" else ", ".intercalate parts ++ " ") ++ "-> " ++
      " | ".intercalate texts

/-- The lines show the rows of a rule, one line each for all coordinates of the parents, in their
order. -/
def ShowsPolicy [Build] (t : CellText α) (n : Network α) (p : Policy α) (f : Factor α) (lines : List String) :
    Prop :=
  ∃ (parents : Axes) (decision : Variable) (css : List (List ℕ)) (body : List String),
    f.axes = parents ++ [decision] ∧ List.Forall₂ n.IsAxis p.given parents ∧ parents.IsListing css ∧
    lines = ("  " ++ p.name ++ ":") :: body ∧ List.Forall₂ (IsPolicyLine t n p f) css body

theorem filterMap_choice? (t : CellText α) (outcomes : List String) (mass : ℕ → α) :
    (outcomes.zip ((List.range outcomes.length).map mass)).filterMap (fun (outcome, x) =>
        choice? t outcome x) =
      ((List.range outcomes.length).filter fun k => Cell.less 0 (mass k)).map fun k =>
        choiceText t (outcomes.getD k "") (mass k) := by
  have houtcomes : outcomes = (List.range outcomes.length).map fun k => outcomes.getD k "" := by
    refine List.ext_getElem (by simp) fun k hk _ => ?_
    simp [List.getElem?_eq_getElem hk]
  conv_lhs => rw [houtcomes]
  rw [List.length_map, List.length_range, List.zip_map', List.filterMap_map]
  rw [← List.filterMap_eq_map, List.filterMap_filter]
  rfl

theorem listsChoice_filterMap (t : CellText α) {outcomes : List String} {mass : ℕ → α}
    {cell : ℕ → Except Error α}
    (hcell : ∀ k x, cell k = .ok x ↔ k < outcomes.length ∧ mass k = x) :
    ListsChoice t outcomes cell
      ((outcomes.zip ((List.range outcomes.length).map mass)).filterMap fun (outcome, x) =>
        choice? t outcome x) := by
  refine ⟨(List.range outcomes.length).filter fun k => Cell.less 0 (mass k),
    List.pairwise_lt_range.filter _, fun k => ?_, ?_⟩
  · simp [hcell, and_assoc]
  · rw [filterMap_choice?, List.forall₂_map_right_iff, List.forall₂_same]
    intro k hk
    have hlt : k < outcomes.length := List.mem_range.mp (List.mem_of_mem_filter hk)
    exact ⟨_, _, List.getElem?_eq_getElem hlt, (hcell k _).mpr ⟨hlt, rfl⟩,
      by rw [List.getD_eq_getElem _ _ hlt]; rfl⟩

theorem policyRow_eq (t : CellText α) (n : Network α) (p : Policy α) (row : List α) (i : ℕ) :
    policyRow t n p row i = "    " ++ (if p.given = [] then "" else label n p.given i ++ " ") ++ "-> " ++
      chosen t (n.outcomesOf p.name) row := by
  unfold policyRow
  cases p.given with
  | nil =>
      rw [if_pos rfl, String.append_empty, String.append_assoc]
      rfl
  | cons name names =>
      rw [if_neg (List.cons_ne_nil _ _), String.append_assoc, String.append_assoc]
      rfl

/-- The row with number `i` shows the cells at the coordinates of the parents with number `i`. -/
theorem isPolicyLine_policyRow [Build] (t : CellText α) (hn : n.Compiled) {parents : Axes}
    {decision : Variable} (htable : f.table.WellFormed) (haxes : f.axes = parents ++ [decision])
    (hparents : List.Forall₂ n.IsAxis p.given parents) (hdecision : n.IsAxis p.name decision) {i : ℕ}
    (hi : i < parents.count) :
    IsPolicyLine t n p f (Layout.coords parents.arities i) (policyRow t n p
      ((List.range decision.arity).map fun k => f.table.read (i * decision.arity + k)) i) := by
  obtain ⟨harity, -⟩ := outcomesOf_of_isAxis hn hdecision
  have hpos : ∀ a ∈ parents.arities, 0 < a :=
    List.forall_mem_map.mpr (arity_pos_of_forall₂_isAxis hn hparents)
  have hcell : ∀ k x, f.cellAt (Layout.coords parents.arities i ++ [k]) = .ok x ↔
      k < (n.outcomesOf p.name).length ∧ f.table.read (i * decision.arity + k) = x := by
    intro k x
    rw [Factor.cellAt_append_singleton_iff htable haxes (Layout.inRange_coords hpos i), Axes.distances,
      Layout.offset_coords hi, harity]
  refine ⟨_, _, (labels_labelParts hn hparents i).1, listsChoice_filterMap t hcell, ?_⟩
  rw [policyRow_eq, harity]
  rfl

theorem showsPolicy_policyLines [Build] (t : CellText α) (hn : n.Compiled)
    (hf : n.IsLayout (p.given ++ [p.name]) f) (hcells : p.table = f.cells.toList)
    (hroom : n.combinations (p.given ++ [p.name]) < Build.room) : ShowsPolicy t n p f (policyLines t n p) := by
  obtain ⟨parents, decision, haxes, hparents, hdecision⟩ := hf.exists_axes
  obtain ⟨harity, hpos⟩ := outcomesOf_of_isAxis hn hdecision
  have htable := hf.shaped.wellFormed_of_lt ((count_of_forall₂_isAxis hn hf.axes).trans_lt hroom)
  have hsize : f.cells.size = parents.count * decision.arity := by
    rw [← Table.count_append_singleton, ← haxes]
    exact htable.size_cells
  have hrows : rowsOf decision.arity p.table = (List.range parents.count).map fun i =>
      (List.range decision.arity).map fun k => f.table.read (i * decision.arity + k) := by
    rw [rowsOf, hcells, Array.toArray_toList, Table.rows_eq hpos hsize]
    rfl
  refine ⟨parents, decision, parents.coordinates,
    (rowsOf decision.arity p.table).zipIdx.map fun x => policyRow t n p x.1 x.2, haxes, hparents,
    Axes.isListing_coordinates (arity_pos_of_forall₂_isAxis hn hparents), ?_,
    forall₂_coordinates ?_ fun i row hrow => ?_⟩
  · rw [policyLines, harity, if_neg hpos.ne']
  · rw [hrows, List.length_map, List.length_range]
  · rw [hrows, List.getElem?_map, Option.map_eq_some_iff] at hrow
    obtain ⟨j, hj, rfl⟩ := hrow
    obtain ⟨hi, rfl⟩ := List.getElem?_eq_some_iff.mp hj
    rw [List.length_range] at hi
    rw [List.getElem_range]
    exact isPolicyLine_policyRow t hn htable haxes hparents hdecision hi

end

end Report

/-! ### Runs -/

section

variable [Build] [Cell α] {m n : Network α} {q : Request} {r : Report α}

namespace Keeps

open Network

theorem runPolicies (q : Request) : Keeps Continues (q.runPolicies : NetworkM α _) :=
  ite solvePolicies (pure [])

theorem runUtility (q : Request) : Keeps Continues (q.runUtility : NetworkM α _) := by
  unfold Request.runUtility
  cases q.utility with
  | none => exact pure none
  | some term => exact bind (solveUtility q.evidence q.query term) fun _ => pure _

theorem runQuery (q : Request) : Keeps Continues (q.runQuery : NetworkM α _) :=
  ite (pure []) (solveQuery q.evidence q.query)

theorem run (q : Request) : Keeps Continues (q.run : NetworkM α _) :=
  bind (runPolicies q) fun _ => bind (runUtility q) fun _ => bind (runQuery q) fun _ => pure _

end Keeps

namespace Request

variable {ps : List (Policy α)} {u : UtilityResult α}

theorem exists_returns_of_run (h : Returns q.run m r n) :
    ∃ n₁ n₂, Returns q.runPolicies m r.policies n₁ ∧ Returns q.runUtility n₁ r.utility n₂ ∧
      Returns q.runQuery n₂ r.distributions n := by
  unfold run at h
  simp only [returns_bind, returns_pure] at h
  obtain ⟨policies, n₁, hpolicies, utility, n₂, hutility, distributions, _, hquery, rfl, rfl⟩ := h
  exact ⟨n₁, n₂, hpolicies, hutility, hquery⟩

theorem exists_laysOut_of_returns_runPolicies (hm : m.Compiled) (h : Returns q.runPolicies m ps n) :
    ∀ p ∈ ps, ∃ f, n.LaysOut p f := by
  unfold runPolicies at h
  split at h
  · exact Network.exists_laysOut_of_returns_solvePolicies hm h
  · obtain ⟨rfl, -⟩ := returns_pure.mp h
    exact fun p hp => absurd hp List.not_mem_nil

/-- An expected utility that is asked for is read off a factor. -/
theorem exists_returns_quotient_of_runUtility (h : Returns q.runUtility m (some u) n) :
    ∃ term f, q.utility = some term ∧
      Returns (NetworkM.quotient q.evidence q.query term) m f n ∧ u = ⟨q.query, f.cells.toList⟩ := by
  unfold runUtility at h
  cases hterm : q.utility with
  | none =>
      rw [hterm] at h
      cases (returns_pure.mp h).1
  | some term =>
      simp only [hterm, map_eq_pure_bind, NetworkM.solveUtility_eq, bind_assoc, pure_bind, returns_bind,
        returns_pure, Option.some.injEq] at h
      obtain ⟨f, _, hquotient, rfl, rfl⟩ := h
      exact ⟨term, f, rfl, hquotient, rfl⟩

end Request

/-! ### Summaries -/

namespace Report

open Network

/-- **A summary labels every row with the outcomes that it belongs to.**  Whatever is asked of a network
that has been compiled, whatever has been asked before: the summary of the answers shows each policy that
was found by lines for all combinations of outcomes of the parents, and an expected utility by lines for
all combinations of outcomes of the query variables.  Each combination has one line, in the order of the
cells; its label names the outcomes at the coordinates to which the factor decodes the number of the
line; and the cells shown are those of the factor at these coordinates. -/
theorem summaryLines_labelled (t : CellText α) (h : m.IsReachable) (hrun : Returns q.run m r n) :
    ∃ n₁ n₂ blocks lines, Returns q.runPolicies m r.policies n₁ ∧ Returns q.runUtility n₁ r.utility n₂ ∧
      summaryLines t n r = sectionLines "Policies" blocks ++ sectionLines "Distributions"
        (r.distributions.map fun (name, cells) => distributionLines t n name cells) ++ lines ∧
      List.Forall₂ (fun p block => ∃ f, n.LaysOut p f ∧
        (n.combinations (p.given ++ [p.name]) < Build.room → ShowsPolicy t n p f block)) r.policies blocks ∧
      (r.utility = none → lines = []) ∧
      ∀ u, r.utility = some u → ∃ term f, q.utility = some term ∧
        Returns (NetworkM.quotient q.evidence q.query term) n₁ f n₂ ∧ u = ⟨q.query, f.cells.toList⟩ ∧
        n.IsLayout q.query f ∧
        (n.combinations q.query < Build.room → ShowsUtility t n q.query f lines) := by
  obtain ⟨n₁, n₂, hpolicies, hutility, hquery⟩ := Request.exists_returns_of_run hrun
  have h₁ : m.Continues n₁ := (Keeps.runPolicies q).of_returns hpolicies
  have h₂ : n₁.Continues n₂ := (Keeps.runUtility q).of_returns hutility
  have h₃ : n₂.Continues n := (Keeps.runQuery q).of_returns hquery
  have h₁₃ : n₁.Continues n := trans_of Network.Continues h₂ h₃
  have hn₁ := h.compiled.continues h₁
  have hn := hn₁.continues h₁₃
  refine ⟨n₁, n₂, r.policies.map (policyLines t n), (r.utility.map (utilityLines t n)).getD [],
    hpolicies, hutility, rfl, ?_, fun hnone => by rw [hnone]; rfl, fun u hu => ?_⟩
  · rw [List.forall₂_map_right_iff, List.forall₂_same]
    intro p hp
    obtain ⟨f, hf⟩ := Request.exists_laysOut_of_returns_runPolicies h.compiled hpolicies p hp
    have hf' := hf.continues h₁₃
    exact ⟨f, hf', showsPolicy_policyLines t hn hf'.isLayout hf'.cells⟩
  · rw [hu] at hutility ⊢
    obtain ⟨term, f, hterm, hquotient, rfl⟩ := Request.exists_returns_quotient_of_runUtility hutility
    have hf := (Network.isLayout_of_returns_quotient hn₁ hquotient).continues h₁₃
    exact ⟨term, f, hterm, hquotient, rfl, hf, showsUtility_utilityLines t hn hf⟩

end Report

end

namespace Report

open Network

/-- The policies and the expected utility over a sounding and its test. -/
def soundings : Request := { query := ["sound", "test"], utility := some none, policies := true }

/-- Cells as fractions. -/
def CellText.fraction : CellText ℚ := ⟨toString, toString⟩

/-- After a session on the wildcatter's network. -/
theorem summaryLines_labelled_session : ∃ (m n : Network ℚ) (r : Report ℚ),
    m.IsReachable ∧ Returns soundings.run m r n ∧ r.policies.length = 2 ∧
    ∃ u blocks lines f, r.utility = some u ∧ u.values.length = 4 ∧
      summaryLines .fraction n r = sectionLines "Policies" blocks ++ lines ∧
      List.Forall₂ (fun p block => ∃ f, n.LaysOut p f ∧ ShowsPolicy .fraction n p f block)
        r.policies blocks ∧
      n.IsLayout ["sound", "test"] f ∧ ShowsUtility .fraction n ["sound", "test"] f lines := by
  obtain ⟨m, hcompile, hrun⟩ := exists_ok_of_toOption (x := compile wildcat {})
    (P := fun m => ∃ r ∈ (runFrom soundings.run (m.afterCalls session)).1.toOption,
      r.policies.length = 2 ∧ r.distributions = [] ∧ (∃ u ∈ r.utility, u.values.length = 4) ∧
      ∀ names ∈ soundings.query :: r.policies.map fun p => p.given ++ [p.name],
        (runFrom soundings.run (m.afterCalls session)).2.combinations names < Build.room)
    (by decide +kernel)
  obtain ⟨r, n, hrun, hpolicies, hdistributions, ⟨u, hutility, hvalues⟩, hroom⟩ :=
    exists_returns_of_toOption hrun
  rw [show runFrom soundings.run (m.afterCalls session) = (.ok r, n) from hrun] at hroom
  obtain ⟨hquery, hroom⟩ := List.forall_mem_cons.mp hroom
  have hreachable : (m.afterCalls session).IsReachable := ⟨wildcat, {}, m, session, hcompile, rfl⟩
  obtain ⟨_, _, blocks, lines, -, -, hlines, hblocks, -, hshows⟩ :=
    summaryLines_labelled .fraction hreachable hrun
  obtain ⟨_, f, -, -, -, hf, hfshows⟩ := hshows u hutility
  rw [hdistributions] at hlines
  refine ⟨_, n, r, hreachable, hrun, hpolicies, u, blocks, lines, f, hutility, hvalues,
    by rw [hlines]; simp [sectionLines], ?_, hf, hfshows hquery⟩
  refine (List.forall₂_and_left _ _).mpr ⟨fun p hp => List.forall_mem_map.mp hroom p hp, hblocks⟩ |>.imp ?_
  rintro p block ⟨hp, f, hlaid, hshown⟩
  exact ⟨f, hlaid, hshown hp⟩

/-- What a rule is shown by has a line for some outcomes of the parents. -/
theorem ShowsPolicy.ne_nil [Build] {α : Type} [Cell α] {t : CellText α} {n : Network α} {p : Policy α}
    {f : Factor α} {heading : String} {body : List String} (hn : n.Compiled)
    (h : ShowsPolicy t n p f (heading :: body)) : body ≠ [] := by
  obtain ⟨parents, _, css, _, -, hparents, hcss, hlines, hbody⟩ := h
  obtain ⟨-, rfl⟩ := List.cons.inj hlines
  rintro rfl
  obtain rfl := List.forall₂_nil_right_iff.mp hbody
  have hpos : ∀ a ∈ parents.arities, 0 < a :=
    List.forall_mem_map.mpr (arity_pos_of_forall₂_isAxis hn hparents)
  exact absurd ((hcss.mem _).mpr (Factor.inRange_arities_iff.mp (Layout.inRange_coords hpos 0)))
    List.not_mem_nil

/-- The rule of a decision that observes sixteen dice is shown without any line. -/
theorem exists_policyLines_not_showsPolicy : ∃ (m n : Network ℚ) (r : Report ℚ) (p : Policy ℚ),
    m.IsReachable ∧ Returns ({ policies := true } : Request).run m r n ∧ r.policies = [p] ∧
    summaryLines .fraction n r = ["Policies (1):", "  bet:"] ∧
    ¬∃ f, n.LaysOut p f ∧ ShowsPolicy .fraction n p f (policyLines .fraction n p) := by
  obtain ⟨m, hcompile, hrun⟩ := exists_ok_of_toOption (x := compile gamble {})
    (P := fun m => ∃ r ∈ (runFrom ({ policies := true } : Request).run m).1.toOption,
      r.policies.length = 1 ∧
      summaryLines .fraction (runFrom ({ policies := true } : Request).run m).2 r =
        ["Policies (1):", "  bet:"] ∧
      ∀ p ∈ r.policies, policyLines .fraction (runFrom ({ policies := true } : Request).run m).2 p =
        ["  bet:"])
    (by decide +kernel)
  obtain ⟨r, n, hrun, hlength, hlines, hpolicy⟩ := exists_returns_of_toOption hrun
  rw [show runFrom ({ policies := true } : Request).run m = (.ok r, n) from hrun] at hlines hpolicy
  obtain ⟨p, hp⟩ := List.length_eq_one_iff.mp hlength
  have hreachable : m.IsReachable := ⟨gamble, {}, m, [], hcompile, rfl⟩
  refine ⟨m, n, r, p, hreachable, hrun, hp, hlines, ?_⟩
  rintro ⟨f, hlaid, hshown⟩
  rw [hpolicy p (hp ▸ List.mem_singleton_self p)] at hshown
  exact hshown.ne_nil (hreachable.compiled.continues ((Keeps.run _).of_returns hrun)) rfl

end Report

end Influence
