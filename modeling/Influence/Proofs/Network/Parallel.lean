import Influence.Proofs.Elimination.Parallel
import Influence.Proofs.Network.Resolution
import Influence.Proofs.Network.Rules

/-! # Policies of networks over the same variables

Two networks have the same diagram if they have the same variables with the same parents
(`Network.SameDiagram`).  One resolves its decisions whenever the other one does if what is found for each
decision has a counterpart (`Follows.policies`), and rules that are alike make the same policy
(`Network.SameDiagram.table_policyFor`). -/

namespace Influence

open scoped Exact

/-! ### Tables over given axes -/

namespace Table

variable {sizes : VariableId → ℕ} {t u : Table ℚ} {axes : Axes} {x : Assignment}

/-- Tables that are alike have the same cells when they are laid out. -/
theorem Alike.cells_layOut (h : Alike sizes t u) (hpos : ∀ id, 0 < sizes id)
    (hnodup : axes.ids.Nodup) (hsized : axes.Sized sizes) (hsub : t.axes.ids ⊆ axes.ids) :
    (u.layOut axes).cells.toList = (t.layOut axes).cells.toList := by
  have harity : ∀ v ∈ axes, 0 < v.arity := fun v hv => by
    rw [hsized v hv]
    exact hpos v.id
  have hsub' : u.axes.ids ⊆ axes.ids := fun id hid => hsub ((h.ids id).mp hid)
  obtain ⟨ht, htids⟩ := h.fits.layOut hnodup harity hsized hsub
  obtain ⟨hu, huids⟩ := h.fits'.layOut hnodup harity hsized hsub'
  refine ht.cells_eq_of_ids hu (huids.trans htids.symm) hpos fun y hy => ?_
  rw [h.fits'.valueAt_layOut hnodup harity hsized hsub' hy,
    h.fits.valueAt_layOut hnodup harity hsized hsub hy, h.value y hy]

end Table

namespace Network

variable {n m : Network ℚ} {v : Node} {p q : Table ℚ × Table ℚ} {s : Setting ℚ}

/-- The networks have the same variables with the same parents. -/
structure SameDiagram (n m : Network ℚ) : Prop where
  nodes : m.nodes = n.nodes
  given : ∀ name, givenOf m.entries name = givenOf n.entries name
  dependencies : m.dependencies = n.dependencies

namespace SameDiagram

variable (h : n.SameDiagram m)

include h

theorem sizes : m.sizes = n.sizes := by
  rw [Network.sizes, Network.sizes, handles, handles, h.nodes]

theorem parentHandles (v : Node) : m.parentHandles v = n.parentHandles v := by
  rw [Network.parentHandles, Network.parentHandles, h.nodes, h.given]

theorem exists_setting (hs : n.setting = .ok s) :
    m.setting = .ok ⟨s.dependencies, s.decisionOrder, m.weights, m.config.heuristic⟩ := by
  obtain ⟨horder, hdeps, -⟩ := setting_eq_ok hs
  rw [setting, Setting.ofDependencies, h.dependencies, horder, hdeps]
  rfl

theorem table_policyFor (hn : n.Compiled) (hv : v ∈ n.nodes) (halike : Table.Alike n.sizes p.2 q.2)
    (hsub : p.2.axes.ids ⊆ Axes.ids (n.parentHandles v ++ [v.handle])) :
    (m.policyFor v q).table = (n.policyFor v p).table := by
  unfold policyFor
  dsimp only
  rw [h.parentHandles]
  exact halike.cells_layOut hn.valid_zero (hn.nodup_family hv)
    (hn.sized_handles.subset (hn.family_subset hv)) hsub

theorem expectedUtility_policyFor (hn : n.Compiled) (hv : v ∈ n.nodes)
    (halike : Table.Alike n.sizes p.1 q.1)
    (hsub : p.1.axes.ids ⊆ Axes.ids (n.parentHandles v ++ [v.handle])) :
    (m.policyFor v q).expectedUtility = (n.policyFor v p).expectedUtility := by
  unfold policyFor
  dsimp only
  rw [h.parentHandles]
  exact halike.cells_layOut hn.valid_zero (hn.nodup_family hv)
    (hn.sized_handles.subset (hn.family_subset hv)) hsub

end SameDiagram

/-- Two policies are made of related tables for the same decision, with a rule that depends on nothing
else than what the decision observes. -/
def PoliciesMatch (V : Table ℚ × Table ℚ → Table ℚ × Table ℚ → Prop) (n m : Network ℚ)
    (a b : Policy ℚ) : Prop :=
  ∃ v ∈ n.nodes, ∃ p q, V p q ∧ Tables.Paired n.sizes p ∧
    p.2.axes.ids ⊆ Axes.ids (n.parentHandles v ++ [v.handle]) ∧
    a = n.policyFor v p ∧ b = m.policyFor v q

/-- The tables at the start of a run mention only variables of the network. -/
theorem Compiled.ids_sumUtilities_subset (hn : n.Compiled) (s : Setting ℚ) :
    (Tables.axes (Tables.sumUtilities s n.registry n.tables)).ids ⊆
      Axes.ids n.registry.handles := by
  intro id hid
  obtain ⟨t, ht, hid, -⟩ :=
    (Tables.mem_ids_sumUtilities s n.registry hn.fits_tables hn.arity_utility).mp hid
  obtain ⟨v, hv, rfl⟩ := Axes.mem_ids.mp hid
  rw [hn.declared.handles]
  exact Axes.mem_ids_of_mem (hn.mem_handles_of_table ht hv)

theorem Compiled.isObserved_of_returns_policyOf (hn : n.Compiled) (hs : n.setting = .ok s)
    {d : Variable} (hd : d ∈ s.decisionOrder) {res : Resolved ℚ} (hres : res.IsFor n.sizes d)
    {a : Policy ℚ} {r r' : Registry} (hpolicy : Returns (n.policyOf res) r a r') :
    res.IsObserved s := by
  obtain ⟨v, hv, hkind, rfl⟩ := hn.exists_decision hs hd
  obtain ⟨hsub, -⟩ := (Ends.policyOf hn hv hres).result (congrArg Prod.fst hpolicy)
  rwa [Resolved.IsObserved, (setting_eq_ok hs).2.1, hres.decision, hn.parents_handle hv hkind]

end Network

namespace Follows

open Network

variable {n m : Network ℚ} {V : Table ℚ × Table ℚ → Table ℚ × Table ℚ → Prop}
  {W : List Variable → Workspace ℚ → Workspace ℚ → Prop} {s s' : Setting ℚ}
  {pick pick' : Setting ℚ → StepM.Pick ℚ} {r r' : Registry} {ds : List Variable}

theorem run {β : Type} {A : β → Prop} {R : β → Workspace ℚ → β → Workspace ℚ → Prop} {x y : StepM ℚ β}
    {fs gs : List (Factor ℚ)}
    (h : Follows A R (runFrom x (.start r fs)) (runFrom y (.start r' gs))) :
    Follows A (fun b _ c _ => ∃ w w', R b w c w') (runFrom (Setting.run fs x) r)
      (runFrom (Setting.run gs y) r') := by
  intro b r₁ hrun hb
  obtain ⟨w, hx, rfl⟩ := Setting.returns_run.mp hrun
  obtain ⟨c, w', hy, hbc⟩ := h b w hx hb
  exact ⟨c, _, Setting.returns_run.mpr ⟨w', hy, rfl⟩, w, w', hbc⟩

/-- Rules over the same variables are put in names in both networks. -/
theorem policyOf {A : Policy ℚ → Prop} (hn : n.Compiled) (hm : m.Compiled) (h : n.SameDiagram m)
    (hs : n.setting = .ok s) (hV : ∀ p q, V p q → ∀ id, id ∈ q.2.axes.ids ↔ id ∈ p.2.axes.ids)
    {res res' : Resolved ℚ} (hres : res.Matches n.sizes s.decisionOrder V res') :
    Follows A (fun a _ b _ => PoliciesMatch V n m a b) (runFrom (n.policyOf res) r)
      (runFrom (m.policyOf res') r') := by
  obtain ⟨v, hv, -, hdecision⟩ := hn.exists_decision hs hres.mem
  have hleft : res.IsFor n.sizes v.handle := hdecision ▸ hres.left
  have hright : res'.IsFor m.sizes v.handle := by
    rw [h.sizes]
    exact hdecision ▸ hres.right
  have hids := hV _ _ hres.tables
  refine ((Ends.policyOf hn hv hleft).follows (Ends.policyOf hm (h.nodes ▸ hv) hright) ?_).imp
    (fun _ => id) ?_
  · rintro a _ ⟨hsub, -⟩ - e ⟨hout, -⟩
    rw [h.parentHandles] at hout
    exact hout fun id hid => hsub ((hids id).mp hid)
  · rintro a _ b _ - ⟨⟨hsub, rfl⟩, -, rfl⟩
    exact ⟨v, hv, _, _, hres.tables, hleft.paired, hsub, rfl, rfl⟩

/-- **The decisions of one network are resolved whenever those of the other one are.** -/
theorem policies {A : List (Policy ℚ) → Prop} (hn : n.Compiled) (hm : m.Compiled)
    (h : n.SameDiagram m) (hps : n.policies = []) (hps' : m.policies = []) (hr : n.registry.Later r)
    (hr' : m.registry.Later r') (hs : n.setting = .ok s) (hs' : m.setting = .ok s')
    (hV : ∀ p q, V p q → ∀ id, id ∈ q.2.axes.ids ↔ id ∈ p.2.axes.ids)
    (hstep : StepM.Counterpart n.sizes V W s s' (pick s) (pick' s'))
    (hstart : ∀ w w', (Workspace.start r n.factors).Reaches w (Tables.sumUtilities s r n.tables) →
      (Workspace.start r' m.factors).Reaches w' (Tables.sumUtilities s' r' m.tables) →
      (∀ id, id ∈ w.eliminated ↔ id ∈ (Tables.summedUtilities s r n.tables).ids) →
      (∀ id, id ∈ w'.eliminated ↔ id ∈ (Tables.summedUtilities s' r' m.tables).ids) →
      W s.decisionOrder.reverse w w') :
    Follows A (fun as _ bs _ => List.Forall₂ (PoliciesMatch V n m) as bs)
      (runFrom (n.resolveAllBy pick) r) (runFrom (m.resolveAllBy pick') r') := by
  have horder : s'.decisionOrder = s.decisionOrder := by
    rw [h.exists_setting hs] at hs'
    rw [← Except.ok.inj hs']
  have hopen := hn.open_start hs hr
  have hopen' := hm.open_start hs' hr'
  rw [h.sizes, horder] at hopen'
  unfold Network.resolveAllBy
  refine bind_returns (returns_workingSet_of_nil hps) (returns_workingSet_of_nil hps') ?_
  refine bind_returns (returns_except.mpr ⟨hs, rfl⟩) (returns_except.mpr ⟨hs', rfl⟩) ?_
  refine bind (run (solveDecisionsBy hstep hopen hopen' horder ?_)) ?_ ?_
  · rw [hn.tables_start, hm.tables_start]
    intro w w' hreach hreach' heliminated heliminated'
    exact hstart w w' hreach hreach' (fun id => (heliminated id).trans (by simp [Workspace.start]))
      fun id => (heliminated' id).trans (by simp [Workspace.start])
  · -- every rule that gets a policy is observed
    intro rs _ ps _ hrs hpolicies _ res hres
    obtain ⟨w, hsolve, -⟩ := Setting.returns_run.mp hrs
    have hfor := (Ends.solveDecisionsBy hopen).result (congrArg Prod.fst hsolve)
    obtain ⟨d, hd, hres'⟩ := exists_left_of_mem hfor hres
    obtain ⟨p, -, r₁, r₂, hpolicy⟩ := exists_right_of_mem (forall₂_of_returns_mapM hpolicies) hres
    exact hn.isObserved_of_returns_policyOf hs hd hres' hpolicy
  · rintro rs _ rs' _ ⟨_, _, hrs⟩
    refine (mapM (A := fun _ => True) (W := fun _ _ _ _ => True)
      (C := Resolved.Matches n.sizes s.decisionOrder V) (fun _ _ _ _ _ _ hres _ => ?_) hrs trivial).imp
      (fun _ _ _ _ => trivial) fun _ _ _ _ _ => id
    exact (policyOf hn hm h hs hV hres).imp (fun _ => id) fun _ _ _ _ _ h => ⟨h, trivial⟩

end Follows

end Influence
