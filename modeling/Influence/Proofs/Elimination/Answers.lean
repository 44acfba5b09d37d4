import Influence.Proofs.Builds
import Influence.Proofs.Elimination.Solve
import Influence.Proofs.Table.Laws

/-! # Answers in the build that runs

A question to well-formed factors is answered by enumeration as long as there is room for the tables that
are made on the way (`StepM.solve_eq_enumeration`): the bounded run is then not stopped, so the run is that
of the build without limits.

Without room the cells of the answer may be missing.  Sixteen dice that are all asked for have `2 ^ 64`
joint outcomes, and the answer about them has no cells (`StepM.exists_solve_without_cells`). -/

namespace Influence.StepM

/-- **Elimination is enumeration.**  A question to well-formed factors is answered, whatever the
heuristic is, if there is room for the tables that this takes.  The answer adds up what the factors
contribute over all joint outcomes of the hidden variables. -/
theorem solve_eq_enumeration (s : Setting ℚ) (r : Registry) (fs : List (Factor ℚ))
    (evidence : List Observation) (query : List Variable) (target : Target)
    (hwellFormed : ∀ f ∈ fs, f.table.WellFormed) (hnumber : ∀ f ∈ fs, f.id < r.nextFactor)
    (hagree : Axes.Agree (fs.flatMap (·.axes) ++ evidence.map (·.subject)))
    (hone : ∀ f ∈ fs, ∀ v ∈ f.axes, r.kindOf v = .utility → v.arity = 1)
    (houtcome : ∀ o ∈ evidence, o.outcome < o.subject.arity)
    (hobserved : ∀ o ∈ evidence, ∀ f ∈ fs, ∀ v ∈ f.axes, v.id = o.subject.id →
      r.kindOf v ≠ .utility)
    (htarget : target = .totalUtility →
      ∃ t ∈ (Workspace.start r fs).tables, Tables.isUtility r t)
    (hroom : HasRoom (solve s evidence query target) (.start r fs)) :
    ∃ w₁ f w₂,
      Returns (observe evidence >>= fun _ => prepare s target) (.start r fs) ⟨⟩ w₁ ∧
      Returns (solve s evidence query target) (.start r fs) f w₂ ∧
      IsEnumeration (.start r fs) w₁ s evidence query target f := by
  let handles : Axes := fs.flatMap (·.axes) ++ evidence.map (·.subject)
  have hsized : handles.Sized (handles.sizes fun _ => 1) := hagree.sized _
  have hsmall : ∀ f ∈ fs, f.table.Small (handles.sizes fun _ => 1) := fun f hf =>
    (hwellFormed f hf).small fun v hv =>
      hsized v (List.mem_append_left _ (List.mem_flatMap.mpr ⟨f, hf, hv⟩))
  have hevidence : ∀ o ∈ evidence, o.subject.arity = handles.sizes (fun _ => 1) o.subject.id :=
    fun o ho => hsized _ (List.mem_append_right _ (List.mem_map_of_mem ho))
  obtain ⟨w₁, f, w₂, hprepare, hsolve, henumeration⟩ := exists_isEnumeration s r fs evidence query target
    (fun f hf => (hwellFormed f hf).exact) hnumber hagree hone houtcome hobserved htarget
  -- with room for the question there is room for its first steps
  have hfirst : HasRoom (observe evidence >>= fun _ => prepare s target) (.start r fs) :=
    HasRoom.of_bind (k := fun _ => eliminateHidden s evidence query false >>= fun _ => collapse)
      (hroom.congr fun _ => (bind_assoc _ _ _).symm)
  obtain ⟨hprepared, -⟩ := (portable_prepare s hsmall hevidence target).returns hfirst hprepare
  obtain ⟨hsolved, hf⟩ := (portable_solve s hsmall hevidence query target).returns hroom hsolve
  exact ⟨w₁, f, w₂, hprepared .release, hsolved .release, { henumeration with wellFormed := hf.wellFormed }⟩

/-- A coin, a second one that is tossed with the first, and a utility of the first. -/
def coins : List (Factor ℚ) :=
  let first : Variable := ⟨0, 2, .chance⟩
  let second : Variable := ⟨1, 2, .chance⟩
  [⟨0, ⟨[first], #[1 / 2, 1 / 2]⟩⟩, ⟨1, ⟨[first, second], #[1, 0, 1 / 3, 2 / 3]⟩⟩,
    ⟨2, ⟨[first, ⟨2, 1, .utility⟩], #[5, -1]⟩⟩]

theorem solve_eq_enumeration_coins :
    let r : Registry := ⟨[⟨0, 2, .chance⟩, ⟨1, 2, .chance⟩, ⟨2, 1, .utility⟩], 3, 3⟩
    let s : Setting ℚ := { dependencies := {}, decisionOrder := [], weights := [(2, 1 / 2)] }
    let evidence : List Observation := [⟨⟨1, 2, .chance⟩, 1⟩]
    ∃ w₁ f w₂,
      Returns (observe evidence >>= fun _ => prepare s .totalUtility) (.start r coins) ⟨⟩ w₁ ∧
      Returns (solve s evidence [] .totalUtility) (.start r coins) f w₂ ∧
      IsEnumeration (.start r coins) w₁ s evidence [] .totalUtility f :=
  solve_eq_enumeration _ _ _ _ _ _
    (by
      simp only [coins, List.forall_mem_cons, List.not_mem_nil, false_imp_iff, implies_true,
        and_true]
      exact ⟨⟨by decide, by decide, by decide, rfl⟩, ⟨by decide, by decide, by decide, rfl⟩,
        ⟨by decide, by decide, by decide, rfl⟩⟩)
    (by decide) (by unfold Axes.Agree; decide) (by decide) (by decide) (by decide)
    (fun _ => ⟨⟨[⟨0, 2, .chance⟩, ⟨2, 1, .utility⟩], #[5, -1]⟩, by decide, by decide⟩)
    (by decide +kernel)

/-- Nothing is observed of sixteen dice, and all of them are asked for.  The answer has no cells, so it
does not have the value that their product has. -/
theorem exists_solve_without_cells :
    let r : Registry := ⟨Factor.scope Factor.dice, 16, 16⟩
    let s : Setting ℚ := { dependencies := {}, decisionOrder := [] }
    let query : List Variable := Factor.scope Factor.dice
    Factor.Compatible Factor.dice ∧ (∀ f ∈ Factor.dice, f.id < r.nextFactor) ∧
    ∃ w₁ f w₂,
      Returns (observe [] >>= fun _ => prepare s .probability) (.start r Factor.dice) ⟨⟩ w₁ ∧
      Returns (solve s [] query .probability) (.start r Factor.dice) f w₂ ∧ f.cells = #[] ∧
      f.table.valueAt (fun _ => 0) = 0 ∧
      Axes.sumOver (w₁.hidden s [] query false)
        (Tables.integrand s r [] (Workspace.start r Factor.dice).tables .probability) (fun _ => 0) ≠ 0 := by
  intro r s query
  obtain ⟨⟨⟩, w₁, hprepare, hvalue⟩ := exists_returns_of_toOption
    (x := observe [] >>= fun _ => prepare s .probability) (s := .start r Factor.dice)
    (P := fun _ => Axes.sumOver ((runFrom (observe [] >>= fun _ => prepare s .probability)
        (.start r Factor.dice)).2.hidden s [] query false)
      (Tables.integrand s r [] (Workspace.start r Factor.dice).tables .probability) (fun _ => 0) ≠ 0)
    (by decide +kernel)
  rw [show (runFrom (observe [] >>= fun _ => prepare s .probability) (.start r Factor.dice)).2 = w₁ from
    congrArg Prod.snd hprepare] at hvalue
  obtain ⟨f, w₂, hsolve, hcells, hzero⟩ := exists_returns_of_toOption
    (x := solve s [] query .probability) (s := .start r Factor.dice)
    (P := fun f => f.cells = #[] ∧ f.table.valueAt (fun _ => 0) = 0) (by decide +kernel)
  exact ⟨by decide +kernel, by decide +kernel, w₁, f, w₂, hprepare, hsolve, hcells, hzero, hvalue⟩

end Influence.StepM
