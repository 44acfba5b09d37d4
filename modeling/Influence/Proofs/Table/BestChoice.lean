import Influence.Proofs.Table.BestRows
import Influence.Proofs.Table.Orders

/-! # Rules of factors

If all cells of a factor are numbers, the factor has a rule for each of its variables
(`Table.Fits.rule_eq_ok`), and every row of the rule shares one equally among the largest cells of that
row of the factor (`Factor.IsBestRuleOf`).

A row depends on the values of a table alone, so a factor in another order has the same rule up to the
order of its axes (`Factor.rule_shares_best`). -/

namespace Influence

variable {α : Type} [Cell α] {sizes : VariableId → ℕ}

namespace Table

open scoped Exact

variable {t u u' : Table α} {d : Variable} {x : Assignment} {row : List α}

/-! ### Tables of numbers -/

theorem Fits.forall_cells_iff {P : α → Prop} (ht : t.Fits sizes)
    (hzero : Assignment.Valid sizes fun _ => 0) :
    (∀ a ∈ t.cells.toList, P a) ↔ ∀ y : Assignment, y.Valid sizes → P (t.valueAt y) := by
  constructor
  · intro h y hy
    exact h _ (List.mem_of_getElem? (ht.getElem?_cells ht.sized rfl hy))
  · intro h a ha
    rw [ht.wellFormed.cells_eq_outcomes fun _ => 0] at ha
    obtain ⟨y, hy, rfl⟩ := List.mem_map.mp ha
    exact h y (Axes.valid_of_mem_outcomes hzero ht.sized hy)

omit [Cell α] in
theorem mem_of_mem_rows {cells : Array α} {w : ℕ} {a : α} (hrow : row ∈ rows w cells) (ha : a ∈ row) :
    a ∈ cells.toList := by
  obtain ⟨i, -, rfl⟩ := List.mem_map.mp hrow
  rw [Array.toList_extract] at ha
  exact List.mem_of_mem_drop (List.mem_of_mem_take ha)

variable [Cell.LeftUnital α]

/-- A table of numbers has a rule for each of its variables. -/
theorem Fits.rule_eq_ok [Cell.Ordered α] (ht : t.Fits sizes)
    (hzero : Assignment.Valid sizes fun _ => 0) (hd : t.mentions d) (hsize : d.arity = sizes d.id)
    (hcells : ∀ a ∈ t.cells.toList, Cell.IsNumber a) :
    t.rule d = .ok (t.replaceRows bestOrSelf d) := by
  have hvalues := (ht.forall_cells_iff hzero).mp hcells
  have hmoved : ∀ a ∈ (t.moveLast d).cells.toList, Cell.IsNumber a := by
    refine ((ht.moveLast hd hsize).1.forall_cells_iff hzero).mpr fun y hy => ?_
    rw [ht.valueAt_moveLast hd hsize hy]
    exact hvalues y hy
  have hrows : ∀ row ∈ rows d.arity (t.moveLast d).cells, bestShares? row = some (bestOrSelf row) := by
    intro row hrow
    have hne : row ≠ [] := by
      rw [← List.length_pos_iff, length_of_mem_rows ht hd hsize row hrow, hsize]
      exact hzero d.id
    obtain ⟨best, -, -, hshares⟩ :=
      bestShares?_of_isNumber hne fun a ha => hmoved a (mem_of_mem_rows hrow ha)
    rw [bestOrSelf_of_eq_some hshares, hshares]
  rw [Table.rule, bestRows_eq hrows]
  rfl

/-- The rule of a reordered table is the rule of the table, reordered. -/
theorem Fits.cells_rule_rearrange (ht : t.Fits sizes) (hzero : Assignment.Valid sizes fun _ => 0)
    (hd : t.mentions d) (hsize : d.arity = sizes d.id) {p : Axes} (hp : t.axes.IsOrderOf p)
    (h : t.rule d = .ok u) (h' : (t.rearrange p).rule d = .ok u') :
    u.axes.ids.Perm u'.axes.ids ∧ (u'.rearrange u.axes).cells = u.cells := by
  have hpsized := hp.sized ht.sized
  have hordered := ht.rearrange hp.perm hpsized
  have hids : (t.rearrange p).axes.ids = p.ids := ids_rearrange t p
  have hd' : (t.rearrange p).mentions d := by
    rw [mentions_iff, hids]
    exact hp.perm.mem_iff.mpr (mentions_iff.mp hd)
  obtain ⟨hu, hperm⟩ := ht.rule hd hsize h
  obtain ⟨hu', hperm'⟩ := hordered.rule hd' hsize h'
  have horder : u.axes.ids.Perm u'.axes.ids :=
    hperm.trans (hp.perm.symm.trans ((List.Perm.of_eq hids.symm).trans hperm'.symm))
  have hrows : ∀ y : Assignment, y.Valid sizes → rowAt u' d y = rowAt u d y := by
    intro y hy
    have hsame : rowAt (t.rearrange p) d y = rowAt t d y :=
      List.map_congr_left fun k hk =>
        ht.valueAt_rearrange hp.perm hpsized (hy.set (hsize ▸ List.mem_range.mp hk))
    apply Option.some.inj
    rw [← ht.bestShares?_rowAt hd hsize h hy, ← hordered.bestShares?_rowAt hd' hsize h' hy, hsame]
  refine ⟨horder, Array.toList_inj.mp ?_⟩
  apply hu.cells_eq_of_ids (hu'.rearrange horder hu.sized) (ids_rearrange _ _) hzero
  intro y hy
  rw [hu'.valueAt_rearrange horder hu.sized hy]
  exact valueAt_eq_of_rowAt_eq (hrows y hy) (hsize ▸ hy d.id)

end Table

/-! ### Rules of factors -/

namespace Factor

variable {f g : Factor α} {d : Variable} {r : Registry}

/-- The factor has the decision as its last axis and the other axes of another factor in their order.
Over the states of these, it shares one equally among the largest values of that factor. -/
structure IsBestRuleOf [Build] (f : Factor α) (d : Variable) (g : Factor α) : Prop where
  wellFormed : g.table.WellFormed
  ids : g.axes.ids = Axes.ids (f.axes.filter fun w => !(w.id == d.id)) ++ [d.id]
  best : ∀ x : Assignment, x.InRange f.axes →
    Table.IsArgmax (Table.rowAt f.table d x) (Table.rowAt g.table d x)

theorem returns_rule_of_eq_ok {u : Table α} (hf : f.table.Small sizes) (hd : f.mentions d)
    (hsize : d.arity = sizes d.id) (h : @Table.rule α Exact.build _ f.table d = .ok u) :
    Returns (f.rule d) r ⟨r.nextFactor + 1, u⟩ (r.after 2) := by
  rw [rule_eq Build.release Exact.build hf hsize]
  unfold rule
  refine returns_bind.mpr ⟨_, _, (returns_moveLast hf.nodup).mpr ⟨hd, rfl, rfl⟩, ?_⟩
  rw [h]
  exact returns_make.mpr ⟨rfl, rfl⟩

variable [Cell.LeftUnital α] [Cell.Ordered α]

theorem isBestRuleOf_of_rule {u : Table α} (hf : f.table.Small sizes) (hd : f.axes.Includes d)
    (hcells : ∀ a ∈ f.cells.toList, Cell.IsNumber a)
    (h : @Table.rule α Exact.build _ f.table d = .ok u) (id : ℕ) : IsBestRuleOf f d ⟨id, u⟩ := by
  have hsize := hd.sized hf.sized
  refine ⟨(Table.Small.of_rule (B := Exact.build) hf hd.mentions hsize h).wellFormed, ?_, fun x hx => ?_⟩
  · have hothers : f.table.axes.without d = f.axes.filter fun w => !(w.id == d.id) :=
      Axes.without_eq_filter hf.nodup d
    show u.axes.ids = _
    rw [Table.axes_of_rule h, (hf.fits.moveLast hd.mentions hsize).2, hothers]
  · -- the state at hand may have outcomes of other variables
    obtain ⟨sizes, hfits, hvalid⟩ := hf.fits.wellFormed.exists_fits_valid hx
    have hsize := hd.sized hfits.sized
    have hzero : Assignment.Valid sizes fun _ => 0 := fun id => Nat.zero_lt_of_lt (hvalid id)
    have hvalues := (hfits.forall_cells_iff hzero).mp hcells
    apply Table.isArgmax_of_bestShares?
    · intro a ha
      obtain ⟨k, hk, rfl⟩ := List.mem_map.mp ha
      exact hvalues _ (hvalid.set (hsize ▸ List.mem_range.mp hk))
    · exact hfits.bestShares?_rowAt hd.mentions hsize h hvalid

/-- The rule of a factor in another order, put into the order of the factor's rule. -/
theorem exists_returns_rule_rearrange (hf : f.table.Small sizes)
    (hzero : Assignment.Valid sizes fun _ => 0) (hd : f.axes.Includes d)
    (hcells : ∀ a ∈ f.cells.toList, Cell.IsNumber a) {u : Table α}
    (h : @Table.rule α Exact.build _ f.table d = .ok u) {p : Axes} (hp : f.axes.IsOrderOf p)
    (r₁ r₂ r₃ : Registry) :
    ∃ f' g' h', Returns (f.rearrange p) r₁ f' (r₁.after 1) ∧ Returns (f'.rule d) r₂ g' (r₂.after 2) ∧
      Returns (g'.rearrange u.axes) r₃ h' (r₃.after 1) ∧ h'.axes.ids = u.axes.ids ∧
      h'.cells = u.cells := by
  have hfits := hf.fits
  have hsize := hd.sized hfits.sized
  have hpsized := hp.sized hfits.sized
  have hordered := hfits.rearrange hp.perm hpsized
  have hsmall := Table.Small.rearrange (B := Exact.build) hf hp.perm hpsized
  have hd' : (@Table.rearrange α Exact.build _ f.table p).mentions d := by
    rw [Table.mentions_iff, Table.ids_rearrange]
    exact hp.perm.mem_iff.mpr (Table.mentions_iff.mp hd.mentions)
  have hcells' : ∀ a ∈ (@Table.rearrange α Exact.build _ f.table p).cells.toList, Cell.IsNumber a := by
    refine (hordered.forall_cells_iff hzero).mpr fun y hy => ?_
    rw [hfits.valueAt_rearrange hp.perm hpsized hy]
    exact (hfits.forall_cells_iff hzero).mp hcells y hy
  have h' := hordered.rule_eq_ok hzero hd' hsize hcells'
  have husmall := Table.Small.of_rule (B := Exact.build) hf hd.mentions hsize h
  have husmall' := Table.Small.of_rule (B := Exact.build) hsmall hd' hsize h'
  obtain ⟨horder, hsame⟩ := hfits.cells_rule_rearrange hzero hd.mentions hsize hp h h'
  exact ⟨_, _, _, returns_rearrange_of_small hf hp.perm hpsized r₁,
    returns_rule_of_eq_ok (f := ⟨_, _⟩) hsmall hd' hsize h',
    returns_rearrange_of_small (f := ⟨_, _⟩) husmall' horder husmall.sized r₃,
    Table.ids_rearrange _ _, hsame⟩

/-- **Rules take the best choice of every state.**  A factor whose cells are numbers has a rule for each
of its variables: in every state of the other variables it gives `1 / k` to each of the `k` outcomes
with the largest value and nothing to the others, which for exact fractions adds up to one.  Taken from
the factor in another order and put into the same order, it has the same cells. -/
theorem rule_shares_best :
    (∀ {α : Type} [Cell α] [Cell.LeftUnital α] [Cell.Ordered α] (f : Factor α) (d : Variable),
      f.table.WellFormed → f.axes.Includes d → (∀ a ∈ f.cells.toList, Cell.IsNumber a) →
      ∀ r, ∃ g, Returns (f.rule d) r g (r.after 2) ∧ IsBestRuleOf f d g ∧
        ∀ p, f.axes.IsOrderOf p → ∀ r₁ r₂ r₃, ∃ f' g' h,
          Returns (f.rearrange p) r₁ f' (r₁.after 1) ∧ Returns (f'.rule d) r₂ g' (r₂.after 2) ∧
          Returns (g'.rearrange g.axes) r₃ h (r₃.after 1) ∧ h.axes.ids = g.axes.ids ∧
          h.cells = g.cells) ∧
    ∀ (f : Factor ℚ) (d : Variable), f.table.WellFormed → f.axes.Includes d → ∀ r, ∃ g,
      Returns (f.rule d) r g (r.after 2) ∧ IsBestRuleOf f d g ∧
      ∀ x : Assignment, x.InRange f.axes → (Table.rowAt g.table d x).sum = 1 := by
  have hrule : ∀ {α : Type} [Cell α] [Cell.LeftUnital α] [Cell.Ordered α] (f : Factor α)
      (d : Variable), f.table.WellFormed → f.axes.Includes d →
      (∀ a ∈ f.cells.toList, Cell.IsNumber a) → ∃ sizes u, f.table.Small sizes ∧
        Assignment.Valid sizes (fun _ => 0) ∧ @Table.rule α Exact.build _ f.table d = .ok u := by
    intro α _ _ _ f d hf hd hcells
    obtain ⟨sizes, hsmall, hzero⟩ := hf.exists_small
    exact ⟨sizes, _, hsmall, hzero,
      hsmall.fits.rule_eq_ok hzero hd.mentions (hd.sized hsmall.sized) hcells⟩
  constructor
  · intro α _ _ _ f d hf hd hcells r
    obtain ⟨sizes, u, hsmall, hzero, hu⟩ := hrule f d hf hd hcells
    exact ⟨_, returns_rule_of_eq_ok hsmall hd.mentions (hd.sized hsmall.sized) hu, isBestRuleOf_of_rule hsmall hd hcells hu _,
      fun p hp r₁ r₂ r₃ => exists_returns_rule_rearrange hsmall hzero hd hcells hu hp r₁ r₂ r₃⟩
  · intro f d hf hd r
    have hcells : ∀ a ∈ f.cells.toList, Cell.IsNumber a := fun a _ => Cell.isNumber_rat a
    obtain ⟨sizes, u, hsmall, -, hu⟩ := hrule f d hf hd hcells
    have hbest := isBestRuleOf_of_rule hsmall hd hcells hu (r.nextFactor + 1)
    refine ⟨_, returns_rule_of_eq_ok hsmall hd.mentions (hd.sized hsmall.sized) hu, hbest, fun x hx => ?_⟩
    obtain ⟨best, -, -, hties, hshares⟩ := hbest.best x hx
    rw [hshares]
    exact Table.sum_ties hties

/-- Losses and ties: in the first state all outcomes are equally bad, in the second one two of them are
best.  In the other order the decision comes first. -/
theorem rule_shares_best_of_ties :
    let signal : Variable := ⟨0, 2, .chance⟩
    let choice : Variable := ⟨1, 3, .decision⟩
    let f : Factor ℚ := ⟨0, ⟨[signal, choice], #[-5, -5, -5, -1, 1 / 2, 1 / 2]⟩⟩
    let r : Registry := ⟨[signal, choice], 2, 1⟩
    (∃ g, Returns (f.rule choice) r g (r.after 2) ∧ IsBestRuleOf f choice g ∧
      g.cells = #[1 / 3, 1 / 3, 1 / 3, 0, 1 / 2, 1 / 2] ∧
      ∃ f' g' h, Returns (f.rearrange [choice, signal]) r f' (r.after 1) ∧
        Returns (f'.rule choice) r g' (r.after 2) ∧ Returns (g'.rearrange g.axes) r h (r.after 1) ∧
        h.axes.ids = g.axes.ids ∧ h.cells = g.cells) ∧
    ∃ g, Returns (f.rule choice) r g (r.after 2) ∧ IsBestRuleOf f choice g ∧
      ∀ x : Assignment, x.InRange f.axes → (Table.rowAt g.table choice x).sum = 1 := by
  intro signal choice f r
  obtain ⟨hgeneral, hexact⟩ := rule_shares_best
  have hf : f.table.WellFormed := by decide
  have hd : f.axes.Includes choice := by decide
  obtain ⟨g, hg, hbest, horders⟩ := hgeneral f choice hf hd (fun a _ => Cell.isNumber_rat a) r
  refine ⟨⟨g, hg, hbest, ?_, horders [choice, signal] (by decide) r r r⟩, hexact f choice hf hd r⟩
  obtain ⟨-, hrule, -⟩ := of_returns_rule hg
  have hcells : (f.table.rule choice).toOption.map (·.cells) =
      some #[1 / 3, 1 / 3, 1 / 3, 0, 1 / 2, 1 / 2] := by decide +kernel
  rw [hrule] at hcells
  exact Option.some.inj hcells

end Factor

end Influence
