import Influence.Proofs.Elimination.Solve
import Influence.Proofs.Elimination.SameChoice
import Influence.Proofs.Follows

/-! # Two runs over the same decisions

Two runs resolve the same decisions, perhaps with other tables, and perhaps eliminating what they pick
in another order.  One follows the other if what is found for a decision in the one workspace has a
counterpart in the other (`StepM.Counterpart`), step by step (`Follows.solveDecisionsBy`).  A rule that
depends on something unobserved needs no counterpart: it is not accepted in the end.

Workspaces whose tables mention the same variables have the same hidden variables
(`Workspace.SameScope.perm_hidden`). -/

namespace Influence

open scoped Exact

variable {sizes : VariableId → ℕ}

/-! ### Workspaces over the same variables -/

namespace Workspace

variable {w w' w₁ w₁' : Workspace ℚ} {s s' : Setting ℚ} {d : Variable} {rule rule' : Table ℚ}

/-- The tables of two workspaces mention the same variables, and these have the same kinds. -/
structure SameScope (w w' : Workspace ℚ) : Prop where
  ids : ∀ id, id ∈ (Tables.axes w'.tables).ids ↔ id ∈ (Tables.axes w.tables).ids
  eliminated : ∀ id, id ∈ w'.eliminated ↔ id ∈ w.eliminated
  handles : w'.registry.handles = w.registry.handles
  issued : ∀ id ∈ (Tables.axes w.tables).ids, id ∈ Axes.ids w.registry.handles

theorem SameScope.symm (h : w.SameScope w') : w'.SameScope w where
  ids := fun id => (h.ids id).symm
  eliminated := fun id => (h.eliminated id).symm
  handles := h.handles.symm
  issued := fun id hid => by
    rw [h.handles]
    exact h.issued id ((h.ids id).mp hid)

theorem SameScope.hidden_subset (h : w.SameScope w') (hdeps : s'.dependencies = s.dependencies)
    (horder : s'.decisionOrder = s.decisionOrder) :
    Axes.ids (w.hidden s [] [] true) ⊆ Axes.ids (w'.hidden s' [] [] true) := by
  have hkind : w'.registry.kindOf = w.registry.kindOf := Registry.kindOf_congr h.handles
  have hrequired : w'.required s' true = w.required s true := by
    unfold required undecided
    rw [hkind, horder, hdeps]
  intro id hid
  obtain ⟨v, hv, rfl⟩ := Axes.mem_ids.mp hid
  have hmem : v.id ∈ (Tables.axes w.tables).ids := Workspace.hidden_subset hid
  obtain ⟨-, hchance, heliminated, -, -, hfree⟩ := mem_hidden.mp hv
  obtain ⟨u, hu, huv⟩ := Axes.mem_ids.mp
    (Axes.mem_ids_union.mpr (.inr ((h.ids v.id).mpr hmem)) : v.id ∈ Axes.ids (Axes.union [] _))
  rw [← huv]
  refine Axes.mem_ids_of_mem (mem_hidden.mpr ⟨hu, ?_, ?_, by simp, by simp, ?_⟩)
  · rw [hkind, Registry.kindOf_of_issued (h.issued _ hmem) huv, hchance]
  · rwa [huv, h.eliminated]
  · rwa [huv, hrequired]

theorem SameScope.perm_hidden (h : w.SameScope w') (hdeps : s'.dependencies = s.dependencies)
    (horder : s'.decisionOrder = s.decisionOrder) :
    (Axes.ids (w.hidden s [] [] true)).Perm (Axes.ids (w'.hidden s' [] [] true)) :=
  (List.perm_ext_iff_of_nodup nodup_hidden nodup_hidden).mpr fun _ =>
    ⟨fun hid => h.hidden_subset hdeps horder hid,
      fun hid => h.symm.hidden_subset hdeps.symm horder.symm hid⟩

/-- Whatever the order in which the hidden variables are eliminated, the pools are alike. -/
theorem alike_eliminateAll {vars vars' : Axes} {ts : List (Table ℚ)}
    (hfits : ∀ t ∈ w.tables, t.Fits sizes) (hvars : vars.Perm (w.hidden s [] [] true))
    (hsized : vars'.Sized sizes) (hids : (Axes.ids (w.hidden s [] [] true)).Perm vars'.ids)
    (h : Tables.Alike sizes w.tables ts) :
    Tables.Alike sizes (Tables.eliminateAll vars w.tables) (Tables.eliminateAll vars' ts) :=
  h.eliminateAll_perm ((Workspace.sized_hidden hfits).subset hvars.subset) hsized
    ((hvars.map _).nodup_iff.mpr nodup_hidden) ((hvars.map _).trans hids)

/-- The same variables are mentioned after a decision has been resolved in both workspaces. -/
theorem SameScope.resolves (h : w.SameScope w') (hres : w.Resolves d rule w₁)
    (hres' : w'.Resolves d rule' w₁') (hids : ∀ id, id ∈ rule'.axes.ids ↔ id ∈ rule.axes.ids)
    (hsub : rule.axes.ids ⊆ (Tables.axes w.tables).ids) : w₁.SameScope w₁' := by
  have hmem : ∀ {ts : List (Table ℚ)} {t : Table ℚ} {id : VariableId},
      id ∈ (Tables.axes (ts ++ [t])).ids ↔ id ∈ (Tables.axes ts).ids ∨ id ∈ t.axes.ids := by
    intro ts t id
    rw [Tables.mem_ids_axes_append, Tables.mem_ids_axes_cons]
    simp [Tables.axes]
  constructor
  case ids =>
    intro id
    rw [hres.tables, hres'.tables, hmem, hmem, h.ids, hids]
  case eliminated =>
    intro id
    rw [hres.eliminated, hres'.eliminated, h.eliminated]
  case handles =>
    rw [hres.handles, hres'.handles]
    exact congrArg (List.map _) h.handles
  case issued =>
    intro id hid
    rw [hres.tables, hmem] at hid
    rw [hres.handles, Registry.ids_withChance]
    exact h.issued id (hid.elim (fun hid => hid) fun hid => hsub hid)

end Workspace

/-! ### Decisions -/

/-- The rule depends on nothing but what its decision observes. -/
def Resolved.IsObserved (s : Setting ℚ) (res : Resolved ℚ) : Prop :=
  res.rule.axes.ids ⊆ Axes.ids (s.dependencies.parents res.decision ++ [res.decision])

/-- Two results are for the same one of some decisions, and their tables are related. -/
structure Resolved.Matches (sizes : VariableId → ℕ) (ds : List Variable)
    (V : Table ℚ × Table ℚ → Table ℚ × Table ℚ → Prop) (res res' : Resolved ℚ) : Prop where
  mem : res.decision ∈ ds
  left : res.IsFor sizes res.decision
  right : res'.IsFor sizes res.decision
  tables : V (res.combined.table, res.rule.table) (res'.combined.table, res'.rule.table)

/-- What is found for the next decision in one of two related workspaces has a counterpart in the other,
and they are related again when the decision has been resolved. -/
def StepM.Counterpart (sizes : VariableId → ℕ) (V : Table ℚ × Table ℚ → Table ℚ × Table ℚ → Prop)
    (W : List Variable → Workspace ℚ → Workspace ℚ → Prop) (s s' : Setting ℚ)
    (pick pick' : StepM.Pick ℚ) : Prop :=
  ∀ d ds w w' p, w.Open sizes (d :: ds) → w'.Open sizes (d :: ds) → W (d :: ds) w w' →
    Tables.decide s d (Tables.eliminateAll (pick d w) w.tables) = .ok p →
    p.2.axes.ids ⊆ Axes.ids (s.dependencies.parents d ++ [d]) →
    ∃ q, Tables.decide s' d (Tables.eliminateAll (pick' d w') w'.tables) = .ok q ∧ V p q ∧
      ∀ w₁ w₁', w.Resolves d p.2 w₁ → w'.Resolves d q.2 w₁' → W ds w₁ w₁'

namespace Follows

open StepM

variable {V : Table ℚ × Table ℚ → Table ℚ × Table ℚ → Prop}
  {W : List Variable → Workspace ℚ → Workspace ℚ → Prop} {s s' : Setting ℚ}
  {pick pick' : Pick ℚ} {w w' : Workspace ℚ} {d : Variable} {ds all : List Variable}

/-- The next decision is resolved in both workspaces. -/
theorem resolveBy (hstep : Counterpart sizes V W s s' pick pick') (hd : d ∈ all)
    (hw : w.Open sizes (d :: ds)) (hw' : w'.Open sizes (d :: ds)) (h : W (d :: ds) w w') :
    Follows (·.IsObserved s) (fun res w₁ res' w₁' => res.Matches sizes all V res' ∧
        w₁.Open sizes ds ∧ w₁'.Open sizes ds ∧ W ds w₁ w₁')
      (runFrom (StepM.resolveBy pick s d) w) (runFrom (StepM.resolveBy pick' s' d) w') := by
  have hcause : ∀ (res : Resolved ℚ) (w₁ : Workspace ℚ), (res.IsFor sizes d ∧
      Tables.decide s d (Tables.eliminateAll (pick d w) w.tables) =
        .ok (res.combined.table, res.rule.table) ∧ w.Resolves d res.rule.table w₁) →
      res.IsObserved s →
      ∀ e, ¬Tables.decide s' d (Tables.eliminateAll (pick' d w') w'.tables) = .error e := by
    rintro res w₁ ⟨hfor, hdecide, -⟩ hobserved e he
    obtain rfl := hfor.decision
    obtain ⟨q, hq, -⟩ := hstep _ ds w w' _ hw hw' h hdecide hobserved
    rw [hq] at he
    cases he
  refine ((Ends.resolveBy hw).follows (Ends.resolveBy hw') hcause).imp (fun _ => id) ?_
  rintro res w₁ res' w₁' hobserved ⟨⟨hfor, hdecide, hres⟩, hfor', hdecide', hres'⟩
  obtain rfl := hfor.decision
  obtain ⟨q, hq, hV, hnext⟩ := hstep _ ds w w' _ hw hw' h hdecide hobserved
  obtain rfl := Except.ok.inj (hdecide'.symm.trans hq)
  exact ⟨⟨hd, hfor, hfor', hV⟩, hw.resolves hres hfor.paired.right,
    hw'.resolves hres' hfor'.paired.right, hnext w₁ w₁' hres hres'⟩

/-- **Decisions are resolved one after the other in both workspaces.** -/
theorem resolveAllBy (hstep : Counterpart sizes V W s s' pick pick') (hw : w.Open sizes ds)
    (hw' : w'.Open sizes ds) (h : W ds w w') :
    Follows (fun rs => ∀ res ∈ rs, res.IsObserved s)
      (fun rs _ rs' _ => List.Forall₂ (Resolved.Matches sizes ds V) rs rs')
      (runFrom (ds.mapM (StepM.resolveBy pick s)) w)
      (runFrom (ds.mapM (StepM.resolveBy pick' s')) w') := by
  refine mapM (C := fun d d' => d ∈ ds ∧ d = d')
    (W := fun cs cs' w w' => cs = cs' ∧ w.Open sizes cs ∧ w'.Open sizes cs ∧ W cs w w') ?_
    (List.forall₂_same.mpr fun d hd => ⟨hd, rfl⟩) ⟨rfl, hw, hw', h⟩
  rintro d _ cs cs' w w' ⟨hd, rfl⟩ ⟨hcs, hw, hw', h⟩
  obtain rfl := (List.cons.inj hcs).2
  exact (resolveBy hstep hd hw hw' h).imp (fun _ => id) fun _ _ _ _ _ h => ⟨h.1, rfl, h.2⟩

/-- The utilities are summed, and the decisions are resolved from the last to the first. -/
theorem solveDecisionsBy (hstep : Counterpart sizes V W s s' pick pick')
    (hw : w.Open sizes s.decisionOrder) (hw' : w'.Open sizes s.decisionOrder)
    (horder : s'.decisionOrder = s.decisionOrder)
    (hstart : ∀ w₁ w₁', w.Reaches w₁ (Tables.sumUtilities s w.registry w.tables) →
      w'.Reaches w₁' (Tables.sumUtilities s' w'.registry w'.tables) →
      (∀ id, id ∈ w₁.eliminated ↔ id ∈ w.eliminated ∨
        id ∈ (Tables.summedUtilities s w.registry w.tables).ids) →
      (∀ id, id ∈ w₁'.eliminated ↔ id ∈ w'.eliminated ∨
        id ∈ (Tables.summedUtilities s' w'.registry w'.tables).ids) →
      W s.decisionOrder.reverse w₁ w₁') :
    Follows (fun rs => ∀ res ∈ rs, res.IsObserved s)
      (fun rs _ rs' _ => List.Forall₂ (Resolved.Matches sizes s.decisionOrder V) rs rs')
      (runFrom (StepM.solveDecisionsBy pick s) w) (runFrom (StepM.solveDecisionsBy pick' s') w') := by
  unfold StepM.solveDecisionsBy
  rw [horder]
  split
  next => exact pure .nil
  obtain ⟨_, w₁, hsum, hreach, heliminated⟩ := (StepM.leads_sumUtilities hw.numbered s
    (Tables.distinct_of_fits hw.fits)).exists_returns
  obtain ⟨_, w₁', hsum', hreach', heliminated'⟩ := (StepM.leads_sumUtilities hw'.numbered s'
    (Tables.distinct_of_fits hw'.fits)).exists_returns
  have hopen := hw.reaches hreach (Tables.fits_sumUtilities s w.registry hw.fits)
  have hopen' := hw'.reaches hreach' (Tables.fits_sumUtilities s' w'.registry hw'.fits)
  refine bind_returns hsum hsum' (bind (resolveAllBy hstep hopen.reverse hopen'.reverse
    (hstart w₁ w₁' hreach hreach' heliminated heliminated')) ?_ fun rs _ rs' _ hrs => pure ?_)
  · intro rs _ _ _ _ hpure hall
    obtain ⟨rfl, -⟩ := returns_pure.mp hpure
    exact fun res hres => hall res (List.mem_reverse.mpr hres)
  · refine List.rel_reverse (hrs.imp fun res res' h => ?_)
    exact ⟨List.mem_reverse.mp h.mem, h.left, h.right, h.tables⟩

end Follows

end Influence
