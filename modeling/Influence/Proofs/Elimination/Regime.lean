import Influence.Proofs.Elimination.Decision
import Influence.Proofs.Elimination.Discipline

/-! # Regimes

Where the handles of a variable agree on its outcomes, an invariant of runs is a condition on single
tables.  A `Regime` is such a condition: each operation on tables that satisfy it makes such a table, the
same in two builds, unless the first one is stopped.

Whatever the regime is, it is a discipline of elimination runs (`Regime.discipline`).  So from its tables a
question is answered, and the decisions are resolved, in the same way by both builds
(`Regime.agree_solve`, `Regime.agree_solveDecisionsBy`), and the tables that are returned are under it. -/

namespace Influence

variable {α : Type} [Cell α] {B₁ B₂ : Build}

/-- What holds of every table, for given numbers of outcomes, in runs of the builds `B₁` and `B₂`. -/
structure Regime (α : Type) [Cell α] (B₁ B₂ : Build) (sizes : VariableId → ℕ) where
  /-- The causes for which the first run may be stopped. -/
  stops : Error → Prop
  /-- How many joint outcomes the axes of a table may have. -/
  fits : ℕ → Prop
  /-- What holds of every table. -/
  base : Table α → Prop
  nodup : ∀ {t : Table α}, base t → t.axes.ids.Nodup
  sized : ∀ {t : Table α}, base t → t.axes.Sized sizes
  fits_count : ∀ {t : Table α}, base t → fits t.axes.count
  restrict : ∀ {f : Factor α} {v : Variable} (k : ℕ), base f.table → v.arity = sizes v.id →
    MakesSame stops base (@Factor.restrict α B₁ _ f v k) (@Factor.restrict α B₂ _ f v k)
  sumOut : ∀ {f : Factor α} {v : Variable}, base f.table → v.arity = sizes v.id →
    MakesSame stops base (@Factor.sumOut α B₁ _ f v) (@Factor.sumOut α B₂ _ f v)
  foldAll : ∀ (op : Fold) {fs : List (Factor α)}, (∀ f ∈ fs, base f.table) →
    MakesSame stops base (@Factor.foldAll α B₁ _ op fs) (@Factor.foldAll α B₂ _ op fs)
  scale : ∀ {f : Factor α} (c : α), base f.table →
    MakesSame stops base (@Factor.scale α B₁ _ f c) (@Factor.scale α B₂ _ f c)
  rearrange : ∀ {f : Factor α} {order : Axes}, base f.table → order.Sized sizes →
    MakesSame stops base (@Factor.rearrange α B₁ _ f order) (@Factor.rearrange α B₂ _ f order)
  rule : ∀ {f : Factor α} {v : Variable}, base f.table → (f.mentions v → v.arity = sizes v.id) →
    MakesSame stops base (@Factor.rule α B₁ _ f v) (@Factor.rule α B₂ _ f v)
  marginal : ∀ {f : Factor α} (v : Variable), base f.table →
    MakesSame stops (fun _ => True) (@Factor.marginal α B₁ _ f v) (@Factor.marginal α B₂ _ f v)
  ones : ∀ {axes : Axes}, axes.ids.Nodup → (∀ v ∈ axes, 0 < v.arity) → axes.Sized sizes →
    MakesSame stops base (@Factor.ones α B₁ _ axes) (@Factor.ones α B₂ _ axes)
  create : ∀ {axes : Axes} (cells : Array α), (∀ v ∈ axes, 0 < v.arity) → axes.Sized sizes →
    fits axes.count → MakesSame stops (fun t => base t ∧ t.axes = axes)
      (@Factor.create α B₁ _ axes (some cells)) (@Factor.create α B₂ _ axes (some cells))
  invert : ∀ {t : Table α}, base t → base t.invert

/-! ### Decisions -/

namespace Discipline

open StepM

variable {s : Setting α} {D : Discipline B₁ B₂ s StepM.insert} {w₀ w : Workspace α} {pick : Pick α}
  {d : Variable}

theorem agree_resolveBy (hclosed : D.IsClosed) (hpick : ∀ d w, pick d w ⊆ w.hidden s [] [] true)
    (hd : d ∈ s.decisionOrder) (hw : D.Governs w₀ w) :
    Agree D.stops (D.Governs w₀)
      (fun res w' => D.Governs w₀ w' ∧ D.Settles res)
      (runFrom (@resolveBy α _ B₁ pick s d) w) (runFrom (@resolveBy α _ B₂ pick s d) w) := by
  refine Agree.get (agree_settle hd hw ?_)
  rw [@decideAfter_eq α _ B₁, @decideAfter_eq α _ B₂]
  exact agree_decideAfter hclosed hd (fun v hv => hw.restart.knows_of_mem_hidden (hpick d w hv))
    hw.restart

theorem agree_solveDecisionsBy (hclosed : D.IsClosed)
    (hpick : ∀ d w, pick d w ⊆ w.hidden s [] [] true) (hw : D.Governs w₀ w) :
    Agree D.stops (D.Governs w₀) (fun rs w' => D.Governs w₀ w' ∧ ∀ res ∈ rs, D.Settles res)
      (runFrom (@solveDecisionsBy α _ B₁ pick s) w) (runFrom (@solveDecisionsBy α _ B₂ pick s) w) := by
  have hsum : Agree D.stops (D.Governs w₀) (fun _ => D.Governs w₀)
      (runFrom (@sumUtilities α B₁ _ s) w) (runFrom (@sumUtilities α B₂ _ s) w) :=
    agree_sumUtilities hw
  unfold solveDecisionsBy
  split
  · exact .pure ⟨hw, by simp⟩
  · refine Agree.bind hsum fun _ w hw => ?_
    refine Agree.bind (.mapM (fun d hd w hw =>
      agree_resolveBy hclosed hpick (List.mem_reverse.mp hd) hw) hw) ?_
    exact fun rs _ h => .pure ⟨h.1, fun res hres => h.2 res (List.mem_reverse.mp hres)⟩

end Discipline

/-! ### Runs under a regime -/

namespace Regime

variable {sizes : VariableId → ℕ} (R : Regime α B₁ B₂ sizes) {known : Axes} {s : Setting α}
  {r : Registry} {fs : List (Factor α)}

/-- The discipline of runs that meet handles with the given numbers of outcomes. -/
def discipline (s : Setting α) (hknown : known.Sized sizes) (foreign : Pool α) :
    Discipline B₁ B₂ s StepM.insert where
  stops := R.stops
  known := known
  knows := fun v => v.arity = sizes v.id
  knows_of_mem := hknown
  foreign := foreign
  exempt := fun _ => True
  holds := fun _ => True
  base := R.base
  holds_after := fun _ _ => trivial
  holds_withChance := fun _ _ => trivial
  exempt_of_utility := fun _ _ _ _ _ _ => trivial
  runFrom_put := fun _ _ _ => rfl
  restrict := R.restrict
  sumOut := R.sumOut
  foldAll := R.foldAll
  scale := R.scale
  rule := fun hf hmem => R.rule hf fun hv => hknown _ (hmem hv)

theorem governs_start (s : Setting α) (hfs : ∀ f ∈ fs, R.base f.table) (hknown : known.Sized sizes)
    (hsub : ∀ f ∈ fs, f.axes ⊆ known) :
    (R.discipline s hknown (Workspace.start r fs).pool).Governs (.start r fs) (.start r fs) where
  since := ⟨Nat.le_refl _, List.Subset.refl _⟩
  ascending := Pool.pairwise_ofList fs
  made := fun _ hf => .inr hf
  admits := fun f hf =>
    have hmem := Pool.mem_ofList hf
    ⟨hfs f hmem, R.nodup (hfs f hmem), hsub f hmem, fun _ _ _ => trivial⟩
  holds := trivial

theorem sized_axes (hfs : ∀ f ∈ fs, R.base f.table) : Axes.Sized sizes (fs.flatMap (·.axes)) := by
  intro v hv
  obtain ⟨f, hf, hvf⟩ := List.mem_flatMap.mp hv
  exact R.sized (hfs f hf) v hvf

theorem agree_prepare (s : Setting α) (hfs : ∀ f ∈ fs, R.base f.table) {evidence : List Observation}
    (hsized : ∀ o ∈ evidence, o.subject.arity = sizes o.subject.id) (target : Target) :
    Agree R.stops (fun _ => True) (fun _ _ => True)
      (runFrom (@StepM.observe α B₁ _ evidence >>= fun _ => @StepM.prepare α B₁ _ s target)
        (.start r fs))
      (runFrom (@StepM.observe α B₂ _ evidence >>= fun _ => @StepM.prepare α B₂ _ s target)
        (.start r fs)) := by
  have hgoverns := R.governs_start (r := r) s hfs (R.sized_axes hfs) fun f hf v hv =>
    List.mem_flatMap.mpr ⟨f, hf, hv⟩
  exact Agree.bind ((Discipline.agree_observe hgoverns hsized).imp (fun _ _ => trivial) fun _ _ => id)
    fun _ _ hw => (Discipline.agree_prepare hw target).imp (fun _ _ => trivial) fun _ _ _ => trivial

theorem agree_solve (s : Setting α) (hfs : ∀ f ∈ fs, R.base f.table) {evidence : List Observation}
    (hsized : ∀ o ∈ evidence, o.subject.arity = sizes o.subject.id) (query : List Variable)
    (target : Target) :
    Agree R.stops (fun _ => True) (fun f _ => R.base f.table)
      (runFrom (@StepM.solve α B₁ _ s evidence query target) (.start r fs))
      (runFrom (@StepM.solve α B₂ _ s evidence query target) (.start r fs)) := by
  exact (Discipline.agree_solve (R.governs_start s hfs (R.sized_axes hfs) fun f hf v hv =>
    List.mem_flatMap.mpr ⟨f, hf, hv⟩) hsized query target).imp (fun _ _ => trivial)
      fun _ _ h => h.2.base

/-- Decisions are resolved in the same way, in whatever order hidden variables are eliminated before
each. -/
theorem agree_solveDecisionsBy {pick : StepM.Pick α} (s : Setting α)
    (hpick : ∀ d w, pick d w ⊆ w.hidden s [] [] true) (hfs : ∀ f ∈ fs, R.base f.table)
    (hknown : known.Sized sizes) (hsub : ∀ f ∈ fs, f.axes ⊆ known) (hds : s.decisionOrder ⊆ known) :
    Agree R.stops (fun _ => True) (fun rs _ => ∀ res ∈ rs, res.decision ∈ s.decisionOrder ∧
        R.base res.combined.table ∧ R.base res.rule.table)
      (runFrom (@StepM.solveDecisionsBy α _ B₁ pick s) (.start r fs))
      (runFrom (@StepM.solveDecisionsBy α _ B₂ pick s) (.start r fs)) :=
  (Discipline.agree_solveDecisionsBy (D := R.discipline s hknown _) (fun _ hd _ => hds hd) hpick
    (R.governs_start s hfs hknown hsub)).imp (fun _ _ => trivial)
      fun _ _ h res hres => ⟨(h.2 res hres).decision, (h.2 res hres).combined, (h.2 res hres).rule⟩

end Regime

/-! ### Shaped tables -/

theorem Table.shaped_foldAll [Build] {sizes : VariableId → ℕ} {op : Fold} {ts : List (Table α)}
    (hts : ∀ t ∈ ts, t.Shaped ∧ t.axes.Sized sizes) :
    (Table.foldAll op ts).Shaped ∧ (Table.foldAll op ts).axes.Sized sizes := by
  refine ⟨Shaped.foldAll fun t ht => (hts t ht).1, fun v hv => ?_⟩
  obtain ⟨t, ht, hvt⟩ := Table.axes_foldAll_subset hv
  exact (hts t ht).2 v hvt

/-- Tables have as many cells as a build counts joint outcomes of their axes. -/
def Regime.shaped [Build] (sizes : VariableId → ℕ) : Regime α ‹Build› ‹Build› sizes where
  stops := fun _ => False
  fits := fun _ => True
  base := fun t => t.Shaped ∧ t.axes.Sized sizes
  nodup := fun ht => ht.1.nodup
  sized := fun ht => ht.2
  fits_count := fun _ => trivial
  restrict := fun k hf _ => .of_returns fun g r r' h => by
    obtain ⟨-, -, rfl, -⟩ := Factor.of_returns_restrict h
    exact ⟨hf.1.restrict _ k, hf.2.without _⟩
  sumOut := fun hf _ => .of_returns fun g r r' h => by
    obtain ⟨-, rfl, -⟩ := Factor.of_returns_sumOut h
    exact ⟨hf.1.sumOut _, hf.2.without _⟩
  foldAll := fun op fs hfs => .of_returns fun g r r' h => by
    obtain ⟨rfl, -⟩ := Factor.of_returns_foldAll h
    exact Table.shaped_foldAll (List.forall_mem_map.mpr hfs)
  scale := fun c hf => .of_returns fun g r r' h => by
    obtain ⟨rfl, -⟩ := Factor.of_returns_scale h
    exact Table.shaped_foldAll (List.forall_mem_cons.mpr
      ⟨hf, List.forall_mem_singleton.mpr ⟨.scalar c, nofun⟩⟩)
  rearrange := fun hf horder => .of_returns fun g r r' h => by
    obtain ⟨hperm, rfl, -⟩ := Factor.of_returns_rearrange h
    exact ⟨hf.1.rearrange hf.2 horder ((Factor.isOrder_iff hf.1.nodup).mp hperm),
      Table.sized_rearrange hf.2 horder⟩
  rule := fun hf hsize => .of_returns fun g r r' h => by
    obtain ⟨hv, hrule, -⟩ := Factor.of_returns_rule h
    have hpos := hf.2.arity_pos hf.1.arity_pos (Table.mentions_iff.mp hv) (hsize hv)
    exact ⟨hf.1.of_rule hv hpos hrule, Table.axes_of_rule hrule ▸ Table.sized_moveLast hf.2 (hsize hv)⟩
  marginal := fun v hf => .of_returns fun _ _ _ _ => trivial
  ones := fun hnodup hpos hsized => .of_returns fun g r r' h => by
    obtain ⟨_, _, -, hcreate⟩ := returns_bind.mp h
    obtain ⟨-, hsize, rfl, -⟩ := Factor.returns_create_some.mp hcreate
    exact ⟨⟨hnodup, hpos, hsize⟩, hsized⟩
  create := fun cells hpos hsized _ => .of_returns fun g r r' h => by
    obtain ⟨hnodup, hsize, rfl, -⟩ := Factor.returns_create_some.mp h
    exact ⟨⟨⟨hnodup, hpos, hsize⟩, hsized⟩, rfl⟩
  invert := fun ht => ⟨ht.1.of_size rfl (by simp [Table.invert]), ht.2⟩

end Influence
