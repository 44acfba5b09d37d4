import Influence.Proofs.Network.Room

/-! # Resolving decisions in all builds

With room for resolving the decisions of a network (`Network.HasRoomFor`) there is room for each part of
that: for backward induction on its tables (`Network.HasRoomFor.solveDecisions`), and for what is done
before the rule of a decision is taken (`StepM.reduce`).  So these do the same in all builds. -/

namespace Influence

variable {α : Type} [Cell α]

/-- Where there is room for what follows a step, there is room for what is part of that. -/
theorem HasRoom.bind_imp {σ β γ δ : Type} {x : ∀ [Build], ExceptT Error (StateM σ) β}
    {y : ∀ [Build], β → ExceptT Error (StateM σ) γ} {z : ∀ [Build], β → ExceptT Error (StateM σ) δ}
    {s : σ} (h : HasRoom (x >>= y) s) (hyz : ∀ b s', HasRoom (y b) s' → HasRoom (z b) s') :
    HasRoom (x >>= z) s :=
  hasRoom_bind.mpr ⟨h.of_bind, fun b s' hx => hyz b s' ((hasRoom_bind.mp h).2 b s' hx)⟩

namespace StepM

variable {sizes : VariableId → ℕ} {s : Setting α} {w w' : Workspace α} {d : Variable}
  {earlier later : List Variable} {r : Registry} {fs : List (Factor α)} {known : Axes}

/-- What is done before the rule of a decision is taken: the utilities are summed, the later decisions
resolved, and hidden variables eliminated. -/
def reduce [Build] (s : Setting α) (later : List Variable) : StepM α Unit := do
  sumUtilities s
  let _ ← later.reverse.mapM (resolve s)
  eliminateHidden s [] [] true

/-- With room for resolving a decision there is room for what is done before its rule is taken. -/
theorem hasRoom_eliminateHidden (h : HasRoom (resolve s d) w) :
    HasRoom (eliminateHidden s [] [] true) w := by
  have hscratch : HasRoom (inScratch (decideHere s d) >>= fun p => do
      insert p.2
      let _ ← onRegistry (Registry.relabelAsChance d)
      return (⟨d, p.1, p.2⟩ : Resolved α)) w := h
  obtain ⟨rest, hrest⟩ : ∃ rest : ∀ [Build], Unit → StepM α (Factor α × Factor α),
      ∀ B : Build, @decideHere α B _ s d = @eliminateHidden α B _ s [] [] true >>= @rest B :=
    ⟨_, fun _ => rfl⟩
  have hhere : HasRoom (decideHere s d) w := hscratch.of_bind
  exact (hhere.congr hrest).of_bind

theorem hasRoom_reduce (h : HasRoom (solveDecisions s) w)
    (hsplit : s.decisionOrder = earlier ++ d :: later) : HasRoom (reduce s later) w := by
  have hstart : HasRoom (sumUtilities s >>= fun _ =>
      s.decisionOrder.reverse.mapM (resolve s) >>= fun rs => pure rs.reverse) w := by
    refine h.congr fun B => ?_
    rw [solveDecisions, if_neg (by simp [hsplit])]
  have hrest : ∀ w, HasRoom (s.decisionOrder.reverse.mapM (resolve s) >>= fun rs => pure rs.reverse) w →
      HasRoom (later.reverse.mapM (resolve s) >>= fun _ => eliminateHidden s [] [] true) w := by
    intro w h
    have hfirst : HasRoom (later.reverse.mapM (resolve s) >>= fun rs => resolve s d >>= fun res =>
        earlier.reverse.mapM (resolve s) >>= fun rs' => pure (rs ++ res :: rs')) w := by
      refine h.of_bind.congr fun B => ?_
      simp [hsplit, List.mapM_append, List.mapM_cons]
    exact hfirst.bind_imp fun rs w h => hasRoom_eliminateHidden h.of_bind
  exact hstart.bind_imp fun _ w h => hrest w h

theorem portable_solveDecisions (s : Setting α) (hfs : ∀ f ∈ fs, f.table.Small sizes)
    (hknown : known.Sized sizes) (hsub : ∀ f ∈ fs, f.axes ⊆ known) (hds : s.decisionOrder ⊆ known) :
    Portable (fun _ _ => True) (solveDecisions s) (.start r fs) := by
  intro B
  exact ((Regime.small B sizes).agree_solveDecisionsBy s (fun d w => (perm_heuristicPick s d w).subset)
    hfs hknown hsub hds).imp (fun _ => id) fun _ _ _ => trivial

theorem portable_reduce (s : Setting α) (hfs : ∀ f ∈ fs, f.table.Small sizes)
    (hknown : known.Sized sizes) (hsub : ∀ f ∈ fs, f.axes ⊆ known) (hds : s.decisionOrder ⊆ known)
    (hlater : later ⊆ s.decisionOrder) : Portable (fun _ _ => True) (reduce s later) (.start r fs) := by
  intro B
  have hgoverns := (Regime.small B sizes).governs_start (r := r) s hfs hknown hsub
  refine Agree.bind ((Discipline.agree_sumUtilities hgoverns).imp (fun _ _ => trivial) fun _ _ => id) ?_
  intro _ w hw
  refine Agree.bind ((Agree.mapM (fun d hd w hw => Discipline.agree_resolve (fun _ hd _ => hds hd)
    (hlater (List.mem_reverse.mp hd)) hw) hw).imp (fun _ _ => trivial) fun _ _ => id) ?_
  intro _ w hw
  exact (Discipline.agree_eliminateHidden hw.1 [] [] true).imp (fun _ _ => trivial) fun _ _ _ => trivial

end StepM

namespace Network

variable {n : Network α} {s : Setting α} {d : Variable} {earlier later : List Variable}
  {rs : List (Resolved α)} {w : Workspace α} {u : PUnit}

omit [Cell α] in
theorem hasRoom_solving {β : Type} {x : ∀ [Build], RegistryM β} (h : HasRoom (NetworkM.solving x) n) :
    HasRoom x n.registry := by
  change isStopped (NetworkM.solving (@x Build.bounded) n).1 = false at h
  unfold HasRoom
  match hx : runFrom (@x Build.bounded) n.registry with
  | (.ok _, _) => rfl
  | (.error _, _) => rwa [NetworkM.solving_of_error (x := @x Build.bounded) hx] at h

/-- With room for resolving the decisions of a network there is room for backward induction. -/
theorem hasRoom_solveDecisions [Build] (hn : n.Compiled) (hs : n.setting = .ok s)
    (hroom : HasRoom NetworkM.solvePolicies n) :
    HasRoom (StepM.solveDecisions s) (.start n.registry n.factors) := by
  by_cases hopen : n.dependencies.isEmpty
  case pos =>
    have hempty := (hn.isEmpty_decisionOrder hs).mpr hopen
    exact HasRoom.congr (x := fun [Build] => pure []) (fun B => (if_pos hempty).symm) rfl
  let cleared : Network α := { n with policies := [] }
  have hcleared : HasRoom (if cleared.dependencies.isEmpty then pure [] else do
      let policies ← NetworkM.solving cleared.resolveAll
      modify fun n => { n with policies }
      return policies) cleared := hroom
  have hsolve : HasRoom (NetworkM.solving cleared.resolveAll >>= fun policies => do
      modify fun n => { n with policies }
      return policies) cleared := hcleared.congr fun B => if_neg hopen
  have hresolve := hasRoom_solving hsolve.of_bind
  unfold HasRoom at hresolve ⊢
  have hset : Returns (@workingSet α Build.bounded _ cleared) n.registry n.factors n.registry :=
    @returns_workingSet_of_nil _ _ cleared _ Build.bounded rfl
  have hrun : runFrom (@resolveAll α Build.bounded _ cleared) n.registry =
      runFrom (Setting.run n.factors (@StepM.solveDecisions α Build.bounded _ s) >>= fun rs =>
        rs.mapM (@policyOf α Build.bounded _ cleared)) n.registry := by
    unfold resolveAll
    rw [runFrom_bind_of_returns hset,
      runFrom_bind_of_returns (returns_except.mpr ⟨show cleared.setting = .ok s from hs, rfl⟩)]
  have hbackward : HasRoom (Setting.run n.factors (StepM.solveDecisions s) >>= fun rs =>
      rs.mapM cleared.policyOf) n.registry := by
    unfold HasRoom
    rwa [← hrun]
  exact hbackward.of_bind

section

variable [Build] (hn : n.Compiled) (hroom : n.HasRoomFor .solvePolicies) (hs : n.setting = .ok s)

include hn hroom hs

/-- Backward induction on the tables of a network does the same in all builds. -/
theorem returns_solveDecisions_iff_of_hasRoom : ∀ B B' : Build,
    Returns (@StepM.solveDecisions α B _ s) (.start n.registry n.factors) rs w ↔
      Returns (@StepM.solveDecisions α B' _ s) (.start n.registry n.factors) rs w := by
  exact (StepM.portable_solveDecisions s (hn.small_factors hroom.tables) hn.sized_handles
    (fun f hf => hn.axes_subset_handles hf) (hn.decisionOrder_subset_handles hs)).returns_iff (hasRoom_solveDecisions hn hs hroom.rules)

theorem returns_reduce_iff_of_hasRoom (hsplit : s.decisionOrder = earlier ++ d :: later) :
    ∀ B B' : Build, Returns (@StepM.reduce α _ B s later) (.start n.registry n.factors) u w ↔
      Returns (@StepM.reduce α _ B' s later) (.start n.registry n.factors) u w := by
  exact (StepM.portable_reduce s (hn.small_factors hroom.tables) hn.sized_handles
    (fun f hf => hn.axes_subset_handles hf) (hn.decisionOrder_subset_handles hs)
      (by simp [hsplit])).returns_iff
      (StepM.hasRoom_reduce (hasRoom_solveDecisions hn hs hroom.rules) hsplit)

end

end Network

end Influence
