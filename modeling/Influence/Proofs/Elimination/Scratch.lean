import Influence.Proofs.Elimination.Steps
import Influence.Proofs.Keeps
import Influence.Elimination.Induction

/-! # Decisions are resolved in a copy

What is summed out for a decision is summed out in a copy of the pool.  Of the copy only the registry
comes back, which has handed out more numbers (`Keeps.decideHere`), and the rule, which is a new factor
(`StepM.isNew_of_returns_decideHere`).  So the pool gets one factor more and the decision another kind
(`StepM.of_returns_resolve`), whatever the tables are.

The candidates of a decision are multiplied unless there is only one.  For what is found this makes no
difference but in the numbers (`StepM.leads_productOf`). -/

namespace Influence

variable {α : Type}

/-! ### From the candidates to a rule -/

/-- Whether a table bears on a decision. -/
def Tables.bearsOn (decision : Variable) (parents : List Variable) (t : Table α) : Bool :=
  t.mentions decision
    && (parents.isEmpty || t.axes.length == 1 || t.axes.any (Axes.mentions parents))

namespace StepM

theorem returns_candidates {fs : List (Factor α)} {s : Setting α} {d : Variable}
    {w w' : Workspace α} :
    Returns (candidates s d) w fs w' ↔
      fs = w.pool.filter (isRelevant d (s.dependencies.parents d)) ∧ fs ≠ [] ∧
        w' = { w with pool := w.pool.filter (!isRelevant d (s.dependencies.parents d) ·) } := by
  unfold candidates
  simp only [returns_bind, returns_take, returns_guard, returns_pure, List.isEmpty_iff]
  constructor
  · rintro ⟨_, _, ⟨rfl, rfl⟩, hne, rfl, rfl⟩
    exact ⟨rfl, hne, rfl⟩
  · rintro ⟨rfl, hne, rfl⟩
    exact ⟨_, _, ⟨rfl, rfl⟩, hne, rfl, rfl⟩

variable [Build] [Cell α]

/-- The only candidate, or the product of several. -/
def productOf : List (Factor α) → StepM α (Factor α)
  | [f] => pure f
  | fs => onRegistry (Factor.product fs)

/-- Takes the rule of the product of some candidates. -/
def decideOn (s : Setting α) (d : Variable) (fs : List (Factor α)) : StepM α (Factor α × Factor α) := do
  let combined ← productOf fs
  let rule ← onRegistry (combined.rule d)
  dropUnobserved s d combined rule

theorem decideHere_eq (s : Setting α) (d : Variable) : decideHere s d =
    eliminateHidden s [] [] true >>= fun _ => candidates s d >>= decideOn s d := by
  refine congrArg (eliminateHidden s [] [] true >>= ·) (funext fun _ => ?_)
  refine congrArg (candidates s d >>= ·) (funext fun fs => ?_)
  match fs with
  | [f] | [] | f :: g :: fs => rfl

/-- The product is made, or it is the only candidate. -/
theorem leads_productOf (fs : List (Factor α)) (w : Workspace α) :
    Leads (productOf fs) w fun f w' => f.table = .product (fs.map (·.table)) ∧
      ∃ n, w' = { w with registry := w.registry.after n } := by
  have hmade : Leads (onRegistry (Factor.product fs) : StepM α _) w fun f w' =>
      f.table = .product (fs.map (·.table)) ∧
        ∃ n, w' = { w with registry := w.registry.after n } := by
    rw [← bind_pure (onRegistry _)]
    exact leads_onRegistry (Factor.leads_foldAll .product fs) (.pure ⟨rfl, 1, rfl⟩)
  match fs with
  | [f] => exact .pure ⟨rfl, 0, rfl⟩
  | [] | f :: g :: fs => exact hmade

end StepM

/-! ### Registries on the way -/

/-- The registry has at most handed out more numbers. -/
def Workspace.Later (w w' : Workspace α) : Prop := w.registry.Later w'.registry

instance : IsPreorder (Workspace α) Workspace.Later where
  refl w := .refl w.registry
  trans _ _ _ := .trans

namespace Keeps

variable {s : Setting α} {d : Variable}

theorem onRegistry {β : Type} {x : RegistryM β} (h : Keeps Registry.Later x) :
    Keeps Workspace.Later (StepM.onRegistry x : StepM α β) := fun w => h w.registry

theorem take (test : Factor α → Bool) : Keeps Workspace.Later (StepM.take test) :=
  fun w => .refl w.registry

theorem candidates : Keeps Workspace.Later (StepM.candidates s d) :=
  bind (take _) fun _ => guard (pure _)

variable [Build] [Cell α]

theorem eliminate (v : Variable) : Keeps Workspace.Later (StepM.eliminate v : StepM α Unit) := by
  refine bind (take _) fun touched => bind (modify fun w => .refl w.registry) fun _ => ?_
  refine ite (bind (onRegistry (foldAll .product touched)) fun joint => ?_) (pure _)
  exact bind (onRegistry (sumOut joint v)) fun f => modify fun w => .refl w.registry

theorem eliminateHidden (s : Setting α) (evidence : List Observation) (query : List Variable)
    (single : Bool) : Keeps Workspace.Later (StepM.eliminateHidden s evidence query single) :=
  bind get fun _ => forM eliminate _

theorem isConstantFrom (rule : Factor α) (axis : Variable) (first : Factor α) (n outcome : ℕ) :
    Keeps Workspace.Later (StepM.isConstantFrom rule axis first n outcome) := by
  induction n generalizing outcome with
  | zero => exact pure true
  | succ n ih => exact bind (onRegistry (restrict rule axis outcome)) fun _ => ite (ih _) (pure false)

theorem dropAxis (tables : Factor α × Factor α) (axis : Variable) :
    Keeps Workspace.Later (StepM.dropAxis tables axis) := by
  obtain ⟨combined, rule⟩ := tables
  refine bind (onRegistry (restrict rule axis 0)) fun first => ?_
  refine bind (isConstantFrom rule axis first _ _) fun constant => ?_
  exact ite (bind (onRegistry (restrict combined axis 0)) fun _ => pure _) (pure _)

theorem productOf (fs : List (Factor α)) : Keeps Workspace.Later (StepM.productOf fs) := by
  match fs with
  | [f] => exact pure f
  | [] => exact onRegistry (foldAll .product [])
  | f :: g :: fs => exact onRegistry (foldAll .product (f :: g :: fs))

/-- Only numbers are handed out for a decision, also if no rule is found. -/
theorem decideHere (s : Setting α) (d : Variable) : Keeps Workspace.Later (StepM.decideHere s d) := by
  rw [StepM.decideHere_eq]
  exact bind (eliminateHidden s [] [] true) fun _ => bind candidates fun fs =>
    bind (productOf fs) fun f => bind (onRegistry (rule f d)) fun _ => foldlM dropAxis _ _

end Keeps

namespace Workspace

variable {w : Workspace α} {f : Factor α} {r : Registry}

/-- A factor made since comes after the factors of the pool. -/
theorem Numbered.insert_new (hw : w.Numbered) (hf : f.IsNew w.registry r) :
    Workspace.insert { w with registry := r } f =
      { w with registry := r, pool := w.pool ++ [f] } := by
  unfold Workspace.insert
  rw [Pool.insert_of_forall_lt fun g hg => (hw g hg).trans_le hf.le]

/-- Together with a factor made since all numbers of the pool have been handed out. -/
theorem Numbered.append_new (hw : w.Numbered) (hf : f.IsNew w.registry r) :
    Numbered { w with registry := r, pool := w.pool ++ [f] } := by
  intro g hg
  rcases List.mem_append.mp hg with hg | hg
  · exact (hw g hg).trans_le hf.later.le
  · rw [List.mem_singleton.mp hg]
    exact hf.lt

theorem Numbered.pairwise_append_new (hw : w.Numbered) (hf : f.IsNew w.registry r)
    (h : w.pool.Pairwise (·.id < ·.id)) : (w.pool ++ [f]).Pairwise (·.id < ·.id) := by
  refine List.pairwise_append.mpr ⟨h, List.pairwise_singleton _ _, fun g hg k hk => ?_⟩
  rw [List.mem_singleton.mp hk]
  exact (hw g hg).trans_le hf.le

theorem reaches_insert_new (hw : w.Numbered) (hf : f.IsNew w.registry r) :
    w.Reaches (Workspace.insert { w with registry := r } f) (w.tables ++ [f.table]) := by
  obtain ⟨⟨k, rfl⟩, hle, hlt⟩ := hf
  exact StepM.reaches_insert hw hle hlt

end Workspace

namespace StepM

variable {w w' : Workspace α} {s : Setting α} {d : Variable}

/-! ### One decision -/

theorem returns_inScratch {β : Type} {x : StepM α β} {b : β} :
    Returns (inScratch x) w b w' ↔
      ∃ after, Returns x w b after ∧ w' = { w with registry := after.registry } := by
  change (((runFrom x w).1, { w with registry := (runFrom x w).2.registry }) :
    Except Error β × Workspace α) = (.ok b, w') ↔ _
  unfold Returns
  rcases runFrom x w with ⟨result, after⟩
  simp only [Prod.mk.injEq]
  constructor
  · rintro ⟨rfl, rfl⟩
    exact ⟨after, ⟨rfl, rfl⟩, rfl⟩
  · rintro ⟨_, ⟨rfl, rfl⟩, rfl⟩
    exact ⟨rfl, rfl⟩

variable [Build] [Cell α] {r : Registry} {tables tables' : Factor α × Factor α} {res : Resolved α}
  {rs : List (Resolved α)} {ds : List Variable}

/-- Where an axis is dropped, the rule that is left is a new factor as well. -/
theorem isNew_of_returns_dropAxis {axis : Variable} (hnew : tables.2.IsNew r w.registry)
    (h : Returns (dropAxis tables axis) w tables' w') : tables'.2.IsNew r w'.registry := by
  obtain ⟨combined, rule⟩ := tables
  unfold dropAxis at h
  obtain ⟨first, w₁, hfirst, h⟩ := returns_bind.mp h
  obtain ⟨_, hrestrict, rfl⟩ := returns_onRegistry.mp hfirst
  obtain ⟨constant, w₂, hconstant, h⟩ := returns_bind.mp h
  have hlater := (Keeps.isConstantFrom rule axis first _ _).of_returns hconstant
  have hnewFirst : first.IsNew r w₂.registry := by
    obtain ⟨-, -, rfl, rfl⟩ := Factor.of_returns_restrict hrestrict
    exact ((Factor.isNew_after _ w.registry).since hnew.later).later_trans hlater
  split at h
  · obtain ⟨g, w₃, hg, h⟩ := returns_bind.mp h
    obtain ⟨rfl, rfl⟩ := returns_pure.mp h
    exact hnewFirst.later_trans ((Keeps.onRegistry (.restrict combined axis 0)).of_returns hg)
  · obtain ⟨rfl, rfl⟩ := returns_pure.mp h
    exact hnew.later_trans (((Keeps.restrict rule axis 0).of_returns hrestrict).trans hlater)

theorem isNew_of_returns_dropAxes {vars : List Variable} (hnew : tables.2.IsNew r w.registry)
    (h : Returns (vars.foldlM dropAxis tables) w tables' w') : tables'.2.IsNew r w'.registry := by
  induction vars generalizing tables w with
  | nil =>
      obtain ⟨rfl, rfl⟩ := returns_pure.mp h
      exact hnew
  | cons v vars ih =>
      obtain ⟨tables₁, w₁, hfirst, hrest⟩ := returns_foldlM_cons.mp h
      exact ih (isNew_of_returns_dropAxis hnew hfirst) hrest

/-- The rule found for a decision is a new factor. -/
theorem isNew_of_returns_decideHere (h : Returns (decideHere s d) w tables w') :
    tables.2.IsNew w.registry w'.registry := by
  rw [decideHere_eq] at h
  obtain ⟨_, w₁, hreduce, h⟩ := returns_bind.mp h
  obtain ⟨fs, w₂, hfs, h⟩ := returns_bind.mp h
  have hlater : w.Later w₂ := trans_of Workspace.Later
    ((Keeps.eliminateHidden s [] [] true).of_returns hreduce) (Keeps.candidates.of_returns hfs)
  obtain ⟨f, w₃, hf, h⟩ := returns_bind.mp h
  have hlater := hlater.trans ((Keeps.productOf fs).of_returns hf)
  obtain ⟨rule, _, hstep, hdrop⟩ := returns_bind.mp h
  obtain ⟨_, hrule, rfl⟩ := returns_onRegistry.mp hstep
  obtain ⟨-, -, hnew⟩ := Factor.of_returns_rule hrule
  exact isNew_of_returns_dropAxes (hnew.since hlater) hdrop

/-- **A resolved decision adds its rule to the pool and becomes a chance variable.**  Nothing else of the
workspace changes but the numbers handed out. -/
theorem of_returns_resolve (hw : w.Numbered) (h : Returns (resolve s d) w res w') :
    res.decision = d ∧ w.registry.kindOf d = .decision ∧ d.id ∈ Axes.ids w.registry.handles ∧
      ∃ after, Returns (decideHere s d) w (res.combined, res.rule) after ∧
        w' = { w with registry := after.registry.withChance d, pool := w.pool ++ [res.rule] } := by
  unfold resolve at h
  obtain ⟨⟨combined, rule⟩, w₁, hscratch, h⟩ := returns_bind.mp h
  obtain ⟨after, hdecide, rfl⟩ := returns_inScratch.mp hscratch
  have hnew := isNew_of_returns_decideHere hdecide
  simp only [returns_bind, returns_insert, returns_onRegistry, returns_pure] at h
  obtain ⟨_, _, rfl, _, _, ⟨_, hrelabel, rfl⟩, rfl, rfl⟩ := h
  obtain ⟨hkind, hmem, rfl⟩ := Registry.returns_relabelAsChance hrelabel
  rw [hw.insert_new hnew] at hkind hmem ⊢
  refine ⟨rfl, ?_, ?_, after, hdecide, rfl⟩
  · rw [← hnew.later.kindOf]
    exact hkind
  · rw [← hnew.later.handles]
    exact hmem

/-! ### All decisions -/

/-- Decisions are resolved in the order in which they are given. -/
theorem decision_of_returns_resolveAll (h : Returns (ds.mapM (resolve s)) w rs w') :
    rs.map (·.decision) = ds := by
  have hall : List.Forall₂ (fun d (res : Resolved α) => res.decision = d) ds rs := by
    refine (forall₂_of_returns_mapM h).imp fun d res h => ?_
    obtain ⟨_, _, hresolve⟩ := h
    unfold resolve at hresolve
    simp only [returns_bind, returns_pure] at hresolve
    obtain ⟨⟨combined, rule⟩, _, -, _, _, -, _, _, -, rfl, -⟩ := hresolve
    rfl
  exact List.forall₂_eq_eq_eq ▸ (List.forall₂_map_left_iff.mpr hall.flip)

/-- The decisions have been resolved in their order. -/
theorem decision_of_returns_solveDecisions (h : Returns (solveDecisions s) w rs w') :
    rs.map (·.decision) = s.decisionOrder := by
  unfold solveDecisions at h
  split at h
  next hempty =>
    obtain ⟨rfl, -⟩ := returns_pure.mp h
    exact (List.isEmpty_iff.mp hempty).symm
  next =>
    simp only [returns_bind, returns_pure] at h
    obtain ⟨_, _, -, found, _, hfound, rfl, -⟩ := h
    rw [List.map_reverse, decision_of_returns_resolveAll hfound, List.reverse_reverse]

end StepM

end Influence
