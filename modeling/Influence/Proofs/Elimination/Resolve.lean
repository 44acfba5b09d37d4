import Influence.Proofs.Elimination.Scratch
import Influence.Proofs.Elimination.Solve
import Influence.Proofs.Factor

/-! # Resolving decisions

A decision is resolved in a copy of the pool from which everything hidden has been eliminated.

* `returns_decideHere`: the rule is a best rule of the product of the tables that bear on the
  decision.  Dropping unobserved axes leaves its cells as they are (`returns_dropUnobserved`).
* `returns_resolve`: the real pool gains the rule, and the decision becomes a chance variable.
* `returns_resolveAll`: so does a list of decisions, one after the other. -/

namespace Influence

open scoped Exact

variable {sizes : VariableId → ℕ}

theorem Table.IsBestRule.congr {v : Variable} {value value' rule rule' : Assignment → ℚ}
    (h : IsBestRule sizes v value rule) (hv : v.arity = sizes v.id)
    (hvalue : ∀ x : Assignment, x.Valid sizes → value' x = value x)
    (hrule : ∀ x : Assignment, x.Valid sizes → rule' x = rule x) :
    IsBestRule sizes v value' rule' := by
  refine ⟨h.toIsConditional.congr hv hrule, fun x hx => ?_⟩
  rw [hrule x hx, h.pos_iff x hx]
  refine forall₂_congr fun k hk => ?_
  rw [hvalue x hx, hvalue _ (hx.set (by rwa [← hv]))]

namespace StepM

open Workspace

variable {w w' : Workspace ℚ} {s : Setting ℚ} {d : Variable}

/-! ### Dropped axes -/

theorem returns_isConstantFrom {rule first : Factor ℚ} {v : Variable} {n k : ℕ} {b : Bool}
    (h : Returns (isConstantFrom rule v first n k) w b w') (hb : b) :
    ∀ j, k ≤ j → j < k + n → (rule.table.restrict v j).sameCells first.table := by
  induction n generalizing k w with
  | zero => exact fun j hj hj' => by omega
  | succ n ih =>
      unfold isConstantFrom at h
      simp only [returns_bind, returns_onRegistry, Factor.returns_restrict] at h
      obtain ⟨_, _, ⟨_, ⟨-, -, rfl, rfl⟩, rfl⟩, h⟩ := h
      split at h
      next hsame =>
        intro j hj hj'
        rcases Nat.eq_or_lt_of_le hj with rfl | hj
        · exact hsame
        · exact ih h j hj (by omega)
      next =>
        obtain ⟨rfl, -⟩ := returns_pure.mp h
        cases hb

/-- The later rule has the values of the earlier one, with fewer axes. -/
structure Shrinks (sizes : VariableId → ℕ) (d : Variable) (rule rule' : Factor ℚ) : Prop where
  fits : rule'.table.Fits sizes
  subset : rule'.axes ⊆ rule.axes
  mem : d.id ∈ rule'.axes.ids ↔ d.id ∈ rule.axes.ids
  value : ∀ x : Assignment, x.Valid sizes → rule'.table.valueAt x = rule.table.valueAt x

theorem returns_dropAxis {combined rule combined' rule' : Factor ℚ} {v : Variable}
    (hfits : rule.table.Fits sizes) (hd : v.id ≠ d.id) (hsize : v.arity = sizes v.id)
    (h : Returns (dropAxis (combined, rule) v) w (combined', rule') w') :
    Shrinks sizes d rule rule' := by
  unfold dropAxis at h
  simp only [returns_bind, returns_onRegistry, Factor.returns_restrict] at h
  obtain ⟨_, _, ⟨_, ⟨hv, -, rfl, rfl⟩, rfl⟩, b, w₁, hconst, h⟩ := h
  have hsame := returns_isConstantFrom hconst
  split at h
  next hb =>
    simp only [returns_bind, returns_onRegistry, Factor.returns_restrict, returns_pure,
      Prod.mk.injEq] at h
    obtain ⟨_, _, ⟨_, ⟨-, -, rfl, rfl⟩, rfl⟩, ⟨rfl, rfl⟩, rfl⟩ := h
    constructor
    case fits => exact hfits.restrict v 0
    case subset => exact (Axes.without_sublist _ v).subset
    case mem =>
      refine (Axes.mem_ids_without hfits.wellFormed.nodup).trans ?_
      exact and_iff_left fun h => hd h.symm
    case value =>
      intro x hx
      refine hfits.valueAt_restrict_of_sameCells hv hsize (fun j hj => ?_) hx
      rcases Nat.eq_zero_or_pos j with rfl | hjpos
      · exact beq_self_eq_true _
      · exact hsame hb j hjpos (by omega)
  next =>
    simp only [returns_pure, Prod.mk.injEq] at h
    obtain ⟨⟨rfl, rfl⟩, rfl⟩ := h
    exact ⟨hfits, List.Subset.refl _, .rfl, fun _ _ => rfl⟩

theorem Shrinks.trans {rule₁ rule₂ rule₃ : Factor ℚ} (h₁ : Shrinks sizes d rule₁ rule₂)
    (h₂ : Shrinks sizes d rule₂ rule₃) : Shrinks sizes d rule₁ rule₃ where
  fits := h₂.fits
  subset := List.Subset.trans h₂.subset h₁.subset
  mem := h₂.mem.trans h₁.mem
  value := fun x hx => (h₂.value x hx).trans (h₁.value x hx)

theorem returns_dropAxes {vars : Axes} {combined rule combined' rule' : Factor ℚ}
    (hfits : rule.table.Fits sizes) (hd : ∀ v ∈ vars, v.id ≠ d.id) (hsized : vars.Sized sizes)
    (h : Returns (vars.foldlM dropAxis (combined, rule)) w (combined', rule') w') :
    Shrinks sizes d rule rule' := by
  induction vars generalizing combined rule w with
  | nil =>
      obtain ⟨heq, rfl⟩ := returns_pure.mp h
      obtain ⟨rfl, rfl⟩ := Prod.mk.inj heq
      exact ⟨hfits, List.Subset.refl _, .rfl, fun _ _ => rfl⟩
  | cons v vars ih =>
      obtain ⟨⟨combined₁, rule₁⟩, w₁, hfirst, hrest⟩ := returns_foldlM_cons.mp h
      obtain ⟨hvsize, hsized⟩ := Axes.sized_cons.mp hsized
      have hshrink := returns_dropAxis hfits (hd v (by simp)) hvsize hfirst
      exact hshrink.trans (ih hshrink.fits (fun u hu => hd u (by simp [hu])) hsized hrest)

/-- Dropping unobserved axes leaves the cells of a rule as they are. -/
theorem returns_dropUnobserved {combined rule combined' rule' : Factor ℚ}
    (hfits : rule.table.Fits sizes)
    (h : Returns (dropUnobserved s d combined rule) w (combined', rule') w') :
    Shrinks sizes d rule rule' := by
  refine returns_dropAxes hfits (fun v hv hid => ?_)
    (hfits.sized.subset List.filter_sublist.subset) h
  have hfree := (List.mem_filter.mp hv).2
  rw [Bool.not_eq_true', Axes.mentions_eq_false_iff] at hfree
  exact hfree (by simp [hid])

/-! ### One decision -/

/-- What holds of a rule found for a decision.  `w₁` is the copy of the pool without everything
hidden. -/
structure IsRuleFor (sizes : VariableId → ℕ) (s : Setting ℚ) (d : Variable) (w w₁ : Workspace ℚ)
    (rule : Factor ℚ) : Prop where
  reduced : Returns (eliminateHidden s [] [] true) w ⟨⟩ w₁
  reaches : w.Reaches w₁ (Tables.eliminateAll
    (s.heuristic.order (w.hidden s [] [] true) w.pool) w.tables)
  best : Table.IsBestRule sizes d
    (Tables.weight (w₁.tables.filter (Tables.bearsOn d (s.dependencies.parents d))))
    rule.table.valueAt
  fits : rule.table.Fits sizes
  mem : d.id ∈ rule.axes.ids
  axes : rule.axes.ids ⊆ (Tables.axes w₁.tables).ids

theorem returns_decideHere (hw : w.Numbered) (hts : ∀ t ∈ w.tables, t.Fits sizes)
    (hsize : d.arity = sizes d.id) {combined rule : Factor ℚ}
    (h : Returns (decideHere s d) w (combined, rule) w') : ∃ w₁, IsRuleFor sizes s d w w₁ rule := by
  obtain ⟨_, w₁, hreduce, hreach⟩ := (leads_eliminateHidden hw s [] [] true).exists_returns
  have hfits₁ : ∀ t ∈ w₁.tables, t.Fits sizes := by
    rw [hreach.tables_eq]
    exact (Tables.weight_eliminateHidden hts s [] [] true).1
  rw [decideHere_eq] at h
  obtain ⟨_, _, hreduce', h⟩ := returns_bind.mp h
  obtain ⟨-, rfl⟩ := hreduce.unique hreduce'
  obtain ⟨_, _, hcandidates, h⟩ := returns_bind.mp h
  obtain ⟨rfl, -, rfl⟩ := returns_candidates.mp hcandidates
  obtain ⟨f, _, hproduct, h⟩ := returns_bind.mp h
  obtain ⟨hf, n, rfl⟩ := (leads_productOf _ _).of_returns hproduct
  obtain ⟨g, _, hstep, hdrop⟩ := returns_bind.mp h
  obtain ⟨_, hrule, rfl⟩ := returns_onRegistry.mp hstep
  have hbears : f.table =
      .product (w₁.tables.filter (Tables.bearsOn d (s.dependencies.parents d))) := by
    rw [hf, filter_tables]
    rfl
  have hfits : ∀ t ∈ w₁.tables.filter (Tables.bearsOn d (s.dependencies.parents d)),
      t.Fits sizes := fun t ht => hfits₁ t (List.mem_of_mem_filter ht)
  have hfitsf : f.table.Fits sizes := by
    rw [hbears]
    exact Table.fits_foldAll hfits
  obtain ⟨hmentions, rfl, rfl⟩ := (Factor.returns_rule hfitsf hsize).mp hrule
  have hfitsg : (Table.replaceRows Table.shares f.table d).Fits sizes :=
    hfitsf.replaceRows hmentions hsize fun row hrow => by rw [Table.length_shares, hrow]
  have hshrink := returns_dropUnobserved (d := d) hfitsg hdrop
  have hids : ∀ id, id ∈ (Table.replaceRows Table.shares f.table d).axes.ids ↔
      id ∈ f.table.axes.ids := by
    intro id
    change id ∈ (f.table.moveLast d).axes.ids ↔ _
    rw [(hfitsf.moveLast hmentions hsize).2, List.mem_append, List.mem_singleton,
      Axes.mem_ids_without hfitsf.wellFormed.nodup]
    constructor
    · rintro (⟨hid, -⟩ | rfl)
      · exact hid
      · exact Table.mentions_iff.mp hmentions
    · intro hid
      by_cases hd : id = d.id
      · exact .inr hd
      · exact .inl ⟨hid, hd⟩
  refine ⟨w₁, ?_⟩
  constructor
  case reduced => exact hreduce
  case reaches => exact hreach
  case best =>
    refine (hfitsf.isBestRule hmentions hsize).2.congr hsize (fun x hx => ?_) hshrink.value
    rw [hbears, Table.Fits.valueAt_product hfits hx, Tables.weight]
  case fits => exact hshrink.fits
  case mem =>
    rw [hshrink.mem]
    exact (hids d.id).mpr (Table.mentions_iff.mp hmentions)
  case axes =>
    intro id hid
    have hid := (hids id).mp (List.map_subset _ hshrink.subset hid)
    rw [hbears, Table.product, Table.mem_ids_foldAll] at hid
    obtain ⟨t, ht, hid⟩ := hid
    exact Tables.mem_ids_axes.mpr ⟨t, List.mem_of_mem_filter ht, hid⟩

/-- The rule joins the pool and the decision becomes a chance variable. -/
theorem returns_resolve (hw : w.Numbered) (hts : ∀ t ∈ w.tables, t.Fits sizes)
    (hsize : d.arity = sizes d.id) {res : Resolved ℚ} (h : Returns (resolve s d) w res w') :
    res.decision = d ∧ (∃ w₁, IsRuleFor sizes s d w w₁ res.rule) ∧ w'.Numbered ∧
      w'.tables = w.tables ++ [res.rule.table] ∧ w'.eliminated = w.eliminated ∧
      w.registry.kindOf d = .decision ∧
      ∀ v, w'.registry.kindOf v = if v.id = d.id then .chance else w.registry.kindOf v := by
  obtain ⟨rfl, hkind, hmem, after, hdecide, rfl⟩ := of_returns_resolve hw h
  have hnew := isNew_of_returns_decideHere hdecide
  have hinsert := reaches_insert_new hw hnew
  rw [hw.insert_new hnew] at hinsert
  refine ⟨rfl, returns_decideHere hw hts hsize hdecide, hinsert.numbered, hinsert.tables_eq, rfl, hkind,
    fun v => ?_⟩
  rw [← hnew.later.handles] at hmem
  refine (Registry.kindOf_withChance hmem v).trans ?_
  rw [hnew.later.kindOf]

/-! ### All decisions -/

/-- Resolving some decisions adds their rules to the pool and makes them chance variables. -/
theorem returns_resolveAll {ds : List Variable} (hw : w.Numbered)
    (hts : ∀ t ∈ w.tables, t.Fits sizes) (hsized : Axes.Sized sizes ds) {rs : List (Resolved ℚ)}
    (h : Returns (ds.mapM (resolve s)) w rs w') :
    List.Forall₂ (fun d res => res.decision = d ∧ ∃ w w₁, IsRuleFor sizes s d w w₁ res.rule) ds rs ∧
      w'.Numbered ∧ (∀ t ∈ w'.tables, t.Fits sizes) ∧
      w'.tables = w.tables ++ rs.map (·.rule.table) ∧ w'.eliminated = w.eliminated ∧
      ∀ v, w'.registry.kindOf v = if v.id ∈ Axes.ids ds then .chance else w.registry.kindOf v := by
  induction ds generalizing w rs with
  | nil =>
      obtain ⟨rfl, rfl⟩ := returns_mapM_nil.mp h
      exact ⟨.nil, hw, hts, by simp, rfl, by simp⟩
  | cons d ds ih =>
      obtain ⟨res, w₁, rest, hfirst, hrest, rfl⟩ := returns_mapM_cons.mp h
      obtain ⟨hd, hrestSized⟩ := Axes.sized_cons.mp hsized
      obtain ⟨rfl, ⟨w₀, hrule⟩, hw₁, htables₁, helim₁, -, hkinds₁⟩ := returns_resolve hw hts hd hfirst
      have hts₁ : ∀ t ∈ w₁.tables, t.Fits sizes := by
        intro t ht
        rw [htables₁] at ht
        rcases List.mem_append.mp ht with ht | ht
        · exact hts t ht
        · rw [List.mem_singleton.mp ht]
          exact hrule.fits
      obtain ⟨hds, hw', hts', htables, helim, hkinds⟩ := ih hw₁ hts₁ hrestSized hrest
      refine ⟨.cons ⟨rfl, w, w₀, hrule⟩ hds, hw', hts', ?_, helim.trans helim₁, fun v => ?_⟩
      · rw [htables, htables₁]
        simp
      · rw [hkinds, hkinds₁]
        by_cases hv : v.id ∈ Axes.ids ds
        · simp [hv]
        · by_cases hd : v.id = res.decision.id
          · simp [hd]
          · simp [hv, hd]

end StepM

end Influence
