import Influence.Proofs.Elimination.Axes
import Influence.Proofs.Elimination.Insertion
import Influence.Proofs.Elimination.Scratch
import Influence.Proofs.Table.Shape

/-! # Disciplines

A `Discipline` is an invariant of elimination runs.  It is about two runs at once, which may be in
different builds and add factors to the pool in different ways: the first run may be stopped for the causes
`stops`, and otherwise both do the same.

Whatever the discipline is, the numbers of the pool ascend and have been handed out, and its factors have
distinct axes, all of them known, and none eliminated that is not exempt (`Discipline.Governs`).  A
discipline adds what holds of every table (`base`), and that an operation on factors which gets such tables
makes such a table, the same in both builds (`MakesSame`).

`Discipline.Accepts` is what a factor has to satisfy to be added to the pool.

* **Step lemmas.** `Discipline.agree_…`: from a governed workspace a step does the same in both runs and
  leaves a governed workspace, also when it fails.
* **Operations.** `Discipline.agree_run` puts them together for each `Operation`, and
  `Discipline.Governs.afterOperations` is the induction over a list of operations. -/

namespace Influence

variable {α : Type}

/-! ### Relabelled decisions -/

/-- Relabelling keeps what holds when a variable that has been issued becomes a chance variable. -/
theorem Registry.keeps_relabelAsChance_of {P : Registry → Registry → Prop} [IsPreorder Registry P]
    {d : Variable} (h : ∀ r : Registry, d.id ∈ Axes.ids r.handles → P r (r.withChance d)) :
    Keeps P (relabelAsChance d) := by
  intro r
  unfold relabelAsChance
  rw [runFrom_bind, show runFrom get r = (.ok r, r) from rfl]
  cases hfind : r.find? d.id with
  | none =>
      simp only [hfind]
      exact refl_of P r
  | some w =>
      have hmem : d.id ∈ Axes.ids r.handles := by
        rw [← show w.id = d.id by simpa using List.find?_some hfind]
        exact Axes.mem_ids_of_mem (List.mem_of_find?_eq_some hfind)
      simp only [hfind]
      split
      · exact refl_of P r
      · exact h r hmem

/-! ### Pools -/

namespace Pool

variable {f : Factor α} {pool fs : List (Factor α)}

theorem pairwise_insert (h : pool.Pairwise (·.id < ·.id)) :
    (insert f pool).Pairwise (·.id < ·.id) := by
  induction pool with
  | nil => exact List.pairwise_singleton _ _
  | cons g pool ih =>
      obtain ⟨hg, hpool⟩ := List.pairwise_cons.mp h
      rw [insert]
      split
      next hlt => exact List.pairwise_cons.mpr ⟨List.forall_mem_cons.mpr
        ⟨hlt, fun k hk => Nat.lt_trans hlt (hg k hk)⟩, h⟩
      next =>
        split
        next heq => exact List.pairwise_cons.mpr ⟨fun k hk => heq ▸ hg k hk, hpool⟩
        next hlt hne =>
          refine List.pairwise_cons.mpr ⟨fun k hk => ?_, ih hpool⟩
          rcases mem_insert hk with rfl | hk
          · omega
          · exact hg k hk

theorem perm_insert (h : ∀ g ∈ pool, f.id ≠ g.id) : (insert f pool).Perm (f :: pool) := by
  induction pool with
  | nil => exact .refl _
  | cons g pool ih =>
      obtain ⟨hg, hpool⟩ := List.forall_mem_cons.mp h
      rw [insert, if_neg hg]
      split
      · exact .refl _
      · exact ((ih hpool).cons g).trans (.swap f g pool)

theorem pairwise_ofList (fs : List (Factor α)) : (ofList fs).Pairwise (·.id < ·.id) := by
  have hfold : ∀ (rest pool : List (Factor α)), pool.Pairwise (·.id < ·.id) →
      (rest.foldl (fun pool f => insert f pool) pool).Pairwise (·.id < ·.id) := by
    intro rest
    induction rest with
    | nil => exact fun _ h => h
    | cons f rest ih => exact fun pool h => ih _ (pairwise_insert h)
  exact hfold fs [] .nil

/-- Distinct factors all get into the pool. -/
theorem perm_ofList (h : (fs.map (·.id)).Nodup) : (ofList fs).Perm fs := by
  have hfold : ∀ (rest pool : List (Factor α)), ((pool ++ rest).map (·.id)).Nodup →
      (rest.foldl (fun pool f => insert f pool) pool).Perm (pool ++ rest) := by
    intro rest
    induction rest with
    | nil => exact fun pool _ => .of_eq (List.append_nil pool).symm
    | cons f rest ih =>
        intro pool h
        have hmiddle : (f :: (pool ++ rest)).Perm (pool ++ f :: rest) := List.perm_middle.symm
        obtain ⟨hf, hrest⟩ := List.nodup_cons.mp ((hmiddle.map (·.id)).nodup_iff.mpr h)
        have hinsert : (insert f pool).Perm (f :: pool) := perm_insert fun g hg heq =>
          hf (List.mem_map.mpr ⟨g, List.mem_append_left _ hg, heq.symm⟩)
        refine (ih _ ?_).trans ((hinsert.append_right rest).trans hmiddle)
        exact ((hinsert.append_right rest).map (·.id)).nodup_iff.mpr (List.nodup_cons.mpr ⟨hf, hrest⟩)
  exact hfold fs [] h

end Pool

/-! ### The invariant -/

/-- Numbers that have been handed out and variables that have been eliminated stay so. -/
structure Workspace.Precedes (w w' : Workspace α) : Prop where
  le : w.registry.nextFactor ≤ w'.registry.nextFactor
  subset : w.eliminated ⊆ w'.eliminated

/-- Unless the first one is stopped, two operations make the same factor, with a table as it should be. -/
def MakesSame (stops : Error → Prop) (base : Table α → Prop) (x y : RegistryM (Factor α)) : Prop :=
  ∀ r, Agree stops (fun _ => True) (fun g _ => base g.table) (runFrom x r) (runFrom y r)

theorem MakesSame.of_returns {stops : Error → Prop} {base : Table α → Prop}
    {x : RegistryM (Factor α)} (h : ∀ g r r', Returns x r g r' → base g.table) :
    MakesSame stops base x x :=
  fun r => Agree.of_run (fun _ _ _ => trivial) fun g r' hx => h g r r' hx

/-- What two runs keep, the first in the build `B₁` with the insertion `put`, the second in the build
`B₂`. -/
structure Discipline [Cell α] (B₁ B₂ : Build) (s : Setting α) (put : Factor α → StepM α Unit) where
  /-- The causes for which the first run may be stopped. -/
  stops : Error → Prop
  /-- The handles that may get into a table. -/
  known : Axes
  /-- The variables that may be summed out or observed. -/
  knows : Variable → Prop
  knows_of_mem : ∀ v ∈ known, knows v
  /-- Factors of the pool that the registry of the run has not made. -/
  foreign : Pool α
  /-- The variables that a factor may mention after they have been eliminated. -/
  exempt : VariableId → Prop
  /-- What holds of the registry. -/
  holds : Registry → Prop
  /-- What holds of every table. -/
  base : Table α → Prop
  holds_after : ∀ {r r' : Registry}, r.Later r' → holds r → holds r'
  holds_withChance : ∀ {r : Registry} {d : Variable}, d.id ∈ Axes.ids r.handles → holds r →
    holds (r.withChance d)
  /-- A utility is summed out although a factor has a handle of it that is no utility. -/
  exempt_of_utility : ∀ {r : Registry} {u v : Variable}, holds r → u ∈ known → v ∈ known →
    v.id = u.id → r.kindOf u = .utility → r.kindOf v ≠ .utility → exempt u.id
  runFrom_put : ∀ (f : Factor α) (w : Workspace α), (∀ g ∈ w.pool, g.id < f.id ∨ g ∈ foreign) →
    runFrom (put f) w = runFrom (StepM.insert f) w
  restrict : ∀ {f : Factor α} {v : Variable} (k : ℕ), base f.table → knows v →
    MakesSame stops base (@Factor.restrict α B₁ _ f v k) (@Factor.restrict α B₂ _ f v k)
  sumOut : ∀ {f : Factor α} {v : Variable}, base f.table → knows v →
    MakesSame stops base (@Factor.sumOut α B₁ _ f v) (@Factor.sumOut α B₂ _ f v)
  foldAll : ∀ (op : Fold) {fs : List (Factor α)}, (∀ f ∈ fs, base f.table) →
    MakesSame stops base (@Factor.foldAll α B₁ _ op fs) (@Factor.foldAll α B₂ _ op fs)
  scale : ∀ {f : Factor α} (c : α), base f.table →
    MakesSame stops base (@Factor.scale α B₁ _ f c) (@Factor.scale α B₂ _ f c)
  rule : ∀ {f : Factor α} {d : Variable}, base f.table → (f.mentions d → d ∈ known) →
    MakesSame stops base (@Factor.rule α B₁ _ f d) (@Factor.rule α B₂ _ f d)

namespace Discipline

variable [Cell α] {B₂ B₁ : Build} {s : Setting α} {put : Factor α → StepM α Unit}

/-- A decision whose variable is known is known by its handle. -/
def IsClosed (D : Discipline B₁ B₂ s put) : Prop :=
  ∀ d ∈ s.decisionOrder, d.id ∈ D.known.ids → d ∈ D.known

/-- Axes are distinct and known, and none of them is gone that is not exempt. -/
structure Covers (D : Discipline B₁ B₂ s put) (gone : List VariableId) (axes : Axes) : Prop where
  distinct : axes.ids.Nodup
  known : axes ⊆ D.known
  exempt : ∀ id ∈ axes.ids, id ∈ gone → D.exempt id

/-- A table may be one of the pool when some variables are gone. -/
structure Admits (D : Discipline B₁ B₂ s put) (gone : List VariableId) (t : Table α) : Prop where
  base : D.base t
  covers : D.Covers gone t.axes

/-- What holds at every point of a run that began at `w₀`. -/
structure Governs (D : Discipline B₁ B₂ s put) (w₀ w : Workspace α) : Prop where
  since : w₀.Precedes w
  ascending : w.pool.Pairwise (·.id < ·.id)
  made : ∀ f ∈ w.pool, f.id < w.registry.nextFactor ∨ f ∈ D.foreign
  admits : ∀ f ∈ w.pool, D.Admits w.eliminated f.table
  holds : D.holds w.registry

/-- A factor may be added to the workspace: it has been made since the run began, and comes after the
factors that the run has made. -/
structure Accepts (D : Discipline B₁ B₂ s put) (w₀ w : Workspace α) (f : Factor α) : Prop extends
    D.Governs w₀ w where
  admitted : D.Admits w.eliminated f.table
  le : w₀.registry.nextFactor ≤ f.id
  lt : f.id < w.registry.nextFactor
  last : ∀ g ∈ w.pool, g.id < f.id ∨ g ∈ D.foreign

/-- A decision has been resolved by tables as they should be. -/
structure Settles (D : Discipline B₁ B₂ s put) (res : Resolved α) : Prop where
  decision : res.decision ∈ s.decisionOrder
  combined : D.base res.combined.table
  rule : D.base res.rule.table

variable {D : Discipline B₁ B₂ s put} {gone gone' : List VariableId} {axes axes' : Axes}
  {t t' : Table α} {ts : List (Table α)} {w₀ w w' : Workspace α} {f : Factor α} {r : Registry}
  {u v d : Variable}

/-! ### Axes -/

namespace Covers

theorem anti (h : D.Covers gone' axes) (hsub : gone ⊆ gone') : D.Covers gone axes :=
  ⟨h.distinct, h.known, fun id hid hgone => h.exempt id hid (hsub hgone)⟩

theorem sublist (h : D.Covers gone axes) (hsub : axes'.Sublist axes) : D.Covers gone axes' where
  distinct := h.distinct.sublist (hsub.map _)
  known := List.Subset.trans hsub.subset h.known
  exempt := fun id hid => h.exempt id ((hsub.map _).subset hid)

theorem mark (h : D.Covers w.eliminated axes) (hv : v.id ∈ axes.ids → D.exempt v.id) :
    D.Covers (w.markEliminated v).eliminated axes := by
  refine ⟨h.distinct, h.known, fun id hid hgone => ?_⟩
  rcases Workspace.mem_eliminated_markEliminated.mp hgone with hgone | rfl
  · exact h.exempt id hid hgone
  · exact hv hid

theorem notMem_ids_without (h : D.Covers gone axes) (v : Variable) : v.id ∉ (axes.without v).ids :=
  fun hv => ((Axes.mem_ids_without h.distinct).mp hv).2 rfl

theorem foldAll [Build] {op : Fold} (hts : ∀ t ∈ ts, D.Covers gone t.axes) :
    D.Covers gone (Table.foldAll op ts).axes where
  distinct := Table.nodup_foldAll fun t ht => (hts t ht).distinct
  known := by
    intro v hv
    obtain ⟨t, ht, hvt⟩ := Table.axes_foldAll_subset hv
    exact (hts t ht).known hvt
  exempt := by
    intro id hid
    obtain ⟨t, ht, hidt⟩ := Table.mem_ids_foldAll.mp hid
    exact (hts t ht).exempt id hidt

theorem scale [Build] (h : D.Covers gone t.axes) (c : α) : D.Covers gone (t.scale c).axes := by
  have hscalar : D.Covers gone (Table.scalar c).axes :=
    ⟨List.nodup_nil, List.nil_subset _, fun _ => nofun⟩
  exact foldAll (List.forall_mem_cons.mpr ⟨h, List.forall_mem_singleton.mpr hscalar⟩)

/-- The handle with which a rule is asked for may get into its axes. -/
theorem rule [Build] (h : D.Covers gone t.axes) (hv : t.mentions v) (hmem : v ∈ D.known)
    (hrule : t.rule v = .ok t') : D.Covers gone t'.axes := by
  rw [Table.axes_of_rule hrule, Table.moveLast, Table.rearrange]
  split
  · exact h
  · have hperm := Table.perm_ids_moveLast hv
    refine ⟨hperm.nodup_iff.mpr h.distinct, fun u hu => ?_,
      fun id hid => h.exempt id (hperm.mem_iff.mp hid)⟩
    rcases List.mem_append.mp hu with hu | hu
    · exact h.known (Axes.mem_of_mem_without hu)
    · rwa [List.mem_singleton.mp hu]

end Covers

/-! ### Workspaces -/

namespace Governs

theorem restart (h : D.Governs w₀ w) : D.Governs w w :=
  { h with since := ⟨Nat.le_refl _, List.Subset.refl _⟩ }

theorem filter (h : D.Governs w₀ w) (test : Factor α → Bool) :
    D.Governs w₀ { w with pool := w.pool.filter test } where
  since := ⟨h.since.le, h.since.subset⟩
  ascending := h.ascending.filter test
  made := fun f hf => h.made f (List.mem_of_mem_filter hf)
  admits := fun f hf => h.admits f (List.mem_of_mem_filter hf)
  holds := h.holds

theorem goesOn (h : D.Governs w₀ w) (hle : w.registry.nextFactor ≤ r.nextFactor)
    (hr : D.holds r) : D.Governs w₀ { w with registry := r } where
  since := ⟨h.since.le.trans hle, h.since.subset⟩
  ascending := h.ascending
  made := fun f hf => (h.made f hf).imp_left fun hlt => hlt.trans_le hle
  admits := h.admits
  holds := hr

theorem later (h : D.Governs w₀ w) (hr : w.registry.Later r) :
    D.Governs w₀ { w with registry := r } := h.goesOn hr.le (D.holds_after hr h.holds)

theorem mark (h : D.Governs w₀ w) (hv : ∀ f ∈ w.pool, v.id ∈ f.axes.ids → D.exempt v.id) :
    D.Governs w₀ (w.markEliminated v) where
  since := ⟨h.since.le, fun _ hid =>
    Workspace.mem_eliminated_markEliminated.mpr (.inl (h.since.subset hid))⟩
  ascending := h.ascending
  made := h.made
  admits := fun f hf => ⟨(h.admits f hf).base, (h.admits f hf).covers.mark (hv f hf)⟩
  holds := h.holds

theorem accepts (h : D.Governs w₀ w) (hf : f.IsNew w.registry r)
    (hadmits : D.Admits w.eliminated f.table) : D.Accepts w₀ { w with registry := r } f where
  toGoverns := h.later hf.later
  admitted := hadmits
  le := h.since.le.trans hf.le
  lt := hf.lt
  last := fun g hg => (h.made g hg).imp_left fun hlt => hlt.trans_le hf.le

theorem covers_product [Build] (h : D.Governs w₀ w) (test : Factor α → Bool) :
    D.Covers w.eliminated (Table.product ((w.pool.filter test).map (·.table))).axes :=
  Covers.foldAll (List.forall_mem_map.mpr fun f hf => (h.admits f (List.mem_of_mem_filter hf)).covers)

end Governs

namespace Accepts

theorem later (h : D.Accepts w₀ w f) (hr : w.registry.Later r) :
    D.Accepts w₀ { w with registry := r } f :=
  { h with
    toGoverns := h.toGoverns.later hr
    lt := h.lt.trans_le hr.le }

theorem mark (h : D.Accepts w₀ w f) (hf : v.id ∉ f.axes.ids)
    (hv : ∀ g ∈ w.pool, v.id ∈ g.axes.ids → D.exempt v.id) : D.Accepts w₀ (w.markEliminated v) f :=
  { h with
    toGoverns := h.toGoverns.mark hv
    admitted := ⟨h.admitted.base, h.admitted.covers.mark fun hmem => absurd hmem hf⟩ }

theorem insert (h : D.Accepts w₀ w f) : D.Governs w₀ (w.insert f) where
  since := ⟨h.since.le, h.since.subset⟩
  ascending := Pool.pairwise_insert h.ascending
  made := by
    intro g hg
    rcases Pool.mem_insert hg with rfl | hg
    · exact .inl h.lt
    · exact h.made g hg
  admits := by
    intro g hg
    rcases Pool.mem_insert hg with rfl | hg
    · exact h.admitted
    · exact h.admits g hg
  holds := h.holds

/-- A factor made in a copy of the workspace may be added to the workspace. -/
theorem leave (h : D.Accepts w w' f) (hw : D.Governs w₀ w) :
    D.Accepts w₀ { w with registry := w'.registry } f where
  toGoverns := hw.goesOn h.since.le h.holds
  admitted := ⟨h.admitted.base, h.admitted.covers.anti h.since.subset⟩
  le := hw.since.le.trans h.le
  lt := h.lt
  last := fun g hg => (hw.made g hg).imp_left fun hlt => hlt.trans_le h.le

end Accepts

/-! ### Steps on the registry -/

open StepM

omit [Cell α] in
theorem agree_onRegistry {β : Type} {E : Error → Prop} {P' : Registry → Prop}
    {Q' : β → Registry → Prop} {P : Workspace α → Prop} {Q : β → Workspace α → Prop}
    {x y : RegistryM β} (h : Agree E P' Q' (runFrom x w.registry) (runFrom y w.registry))
    (hP : ∀ r, P' r → P { w with registry := r })
    (hQ : ∀ b r, Q' b r → Q b { w with registry := r }) :
    Agree E P Q (runFrom (onRegistry x) w) (runFrom (onRegistry y) w) := by
  change Agree E P Q ((runFrom x w.registry).1, { w with registry := (runFrom x w.registry).2 })
    ((runFrom y w.registry).1, { w with registry := (runFrom y w.registry).2 })
  revert h
  generalize runFrom x w.registry = p
  generalize runFrom y w.registry = q
  intro h
  cases h with
  | ok h => exact .ok (hQ _ _ h)
  | error h => exact .error (hP _ h)
  | stop h => exact .stop h

theorem agree_made {x y : RegistryM (Factor α)} {R : Factor α → Registry → Prop}
    (hw : D.Governs w₀ w) (hxy : MakesSame D.stops D.base x y) (hx : Keeps Registry.Later x)
    (hR : ∀ g r, Returns x w.registry g r → R g r) :
    Agree D.stops (D.Governs w₀) (fun g w' => D.base g.table ∧ ∃ r, w.registry.Later r ∧ R g r ∧
        w' = { w with registry := r })
      (runFrom (onRegistry x) w) (runFrom (onRegistry y) w) := by
  refine agree_onRegistry ((hxy w.registry).and_keeps hx) (fun r hr => hw.later hr.2) ?_
  rintro g r ⟨hbase, hlater, hreturns⟩
  exact ⟨hbase, r, hlater, hR g r hreturns, rfl⟩

/-- A factor is made that may be added to the pool, and only the registry changes. -/
theorem agree_make {x y : RegistryM (Factor α)} (hw : D.Governs w₀ w)
    (hxy : MakesSame D.stops D.base x y) (hx : Keeps Registry.Later x)
    (hnew : ∀ g r, Returns x w.registry g r →
      g.IsNew w.registry r ∧ D.Covers w.eliminated g.axes) :
    Agree D.stops (D.Governs w₀) (fun g w' => D.Accepts w₀ w' g ∧ ∃ r, w.registry.Later r ∧
        w' = { w with registry := r })
      (runFrom (onRegistry x) w) (runFrom (onRegistry y) w) := by
  refine (agree_made hw hxy hx hnew).imp (fun _ => id) ?_
  rintro g _ ⟨hbase, r, hlater, ⟨hisNew, hcovers⟩, rfl⟩
  exact ⟨hw.accepts hisNew ⟨hbase, hcovers⟩, r, hlater, rfl⟩

theorem agree_put (hf : D.Accepts w₀ w f) :
    Agree D.stops (D.Governs w₀) (fun _ w' => D.Governs w₀ w' ∧ w' = w.insert f)
      (runFrom (put f) w) (runFrom (StepM.insert f) w) := by
  rw [D.runFrom_put f w hf.last]
  exact .ok ⟨hf.insert, rfl⟩

/-- A copy of the workspace is left with the factor that has been made there. -/
theorem agree_inScratch {x y : StepM α (Factor α × Factor α)} (hw : D.Governs w₀ w)
    (h : Agree D.stops (D.Governs w) (fun p w' => D.base p.1.table ∧ D.Accepts w w' p.2)
      (runFrom x w) (runFrom y w)) :
    Agree D.stops (D.Governs w₀) (fun p w' => D.base p.1.table ∧ D.Accepts w₀ w' p.2)
      (runFrom (inScratch x) w) (runFrom (inScratch y) w) := by
  change Agree _ _ _ ((runFrom x w).1, { w with registry := (runFrom x w).2.registry })
    ((runFrom y w).1, { w with registry := (runFrom y w).2.registry })
  revert h
  generalize runFrom x w = p
  generalize runFrom y w = q
  intro h
  cases h with
  | ok h => exact .ok ⟨h.1, h.2.leave hw⟩
  | error h => exact .error (hw.goesOn h.since.le h.holds)
  | stop h => exact .stop h

theorem agree_restrict (hw : D.Governs w₀ w) (hf : D.Admits w.eliminated f.table) (hv : D.knows v)
    (k : ℕ) :
    Agree D.stops (D.Governs w₀) (fun g w' => D.Accepts w₀ w' g ∧ ∃ r, w.registry.Later r ∧
        w' = { w with registry := r })
      (runFrom (onRegistry (@Factor.restrict α B₁ _ f v k)) w)
      (runFrom (onRegistry (@Factor.restrict α B₂ _ f v k)) w) := by
  refine agree_make hw (D.restrict k hf.base hv) (Keeps.restrict f v k) fun g r h => ?_
  obtain ⟨-, -, rfl, rfl⟩ := Factor.of_returns_restrict h
  exact ⟨Factor.isNew_after _ _, hf.covers.sublist (Axes.without_sublist _ v)⟩

/-! ### Steps of an elimination -/

theorem agree_dropUtilities (hw : D.Governs w₀ w) (keep : Option Variable) :
    Agree D.stops (D.Governs w₀) (fun _ => D.Governs w₀) (runFrom (dropUtilities keep) w)
      (runFrom (dropUtilities keep) w) :=
  Agree.get (.after (returns_take.mpr ⟨rfl, rfl⟩) (.pure (hw.filter _)))

theorem agree_observe (hw : D.Governs w₀ w) {evidence : List Observation}
    (hknows : ∀ o ∈ evidence, D.knows o.subject) :
    Agree D.stops (D.Governs w₀) (fun _ => D.Governs w₀)
      (runFrom (@observeWith α B₁ _ put evidence) w) (runFrom (@observe α B₂ _ evidence) w) := by
  refine Agree.forM (fun o ho w hw => ?_) hw
  refine Agree.after (returns_take.mpr ⟨rfl, rfl⟩) ?_
  -- what has been taken out stays admitted while one after the other is put back
  refine (Agree.forM (I := fun w' => D.Governs w₀ w' ∧ w'.eliminated = w.eliminated) ?_
    ⟨hw.filter _, rfl⟩).imp (fun _ => id) fun _ _ h => h.1
  rintro f hf w' ⟨hw', heliminated⟩
  have hadmits : D.Admits w'.eliminated f.table := by
    rw [heliminated]
    exact hw.admits f (List.mem_of_mem_filter hf)
  refine Agree.bind (agree_restrict hw' hadmits (hknows o ho) o.outcome) ?_
  rintro g _ ⟨hg, r, -, rfl⟩
  refine (agree_put hg).imp (fun _ => id) ?_
  rintro _ _ ⟨hinsert, rfl⟩
  exact ⟨hinsert, heliminated⟩

/-- Utilities are summed out and eliminated.  Where the pool mentions them they are exempt. -/
theorem agree_sumOutUtilities {us : Axes} (hf : D.Accepts w₀ w f) (hknown : us ⊆ D.known)
    (hus : ∀ u ∈ us, ∀ g ∈ w.pool, u.id ∈ g.axes.ids → D.exempt u.id) :
    Agree D.stops (D.Governs w₀) (fun g w' => D.Accepts w₀ w' g)
      (runFrom (us.foldlM (@sumOutUtility α B₁ _) f) w)
      (runFrom (us.foldlM (@sumOutUtility α B₂ _) f) w) := by
  refine (Agree.foldlM (I := fun us f w' => D.Accepts w₀ w' f ∧ us ⊆ D.known ∧
    ∀ u ∈ us, ∀ g ∈ w'.pool, u.id ∈ g.axes.ids → D.exempt u.id) ?_ ⟨hf, hknown, hus⟩).imp
      (fun _ => id) fun _ _ h => h.1
  rintro u us f w ⟨hf, hknown, hus⟩
  obtain ⟨hu, hknown⟩ := List.cons_subset.mp hknown
  obtain ⟨hexempt, hus⟩ := List.forall_mem_cons.mp hus
  refine Agree.bind (agree_made (R := fun g r => g.IsNew w.registry r ∧
    g.axes = f.axes.without u) hf.toGoverns (D.sumOut hf.admitted.base (D.knows_of_mem u hu))
      (Keeps.sumOut f u) fun g r h => ?_) ?_
  · obtain ⟨-, rfl, rfl⟩ := Factor.of_returns_sumOut h
    exact ⟨Factor.isNew_after _ _, rfl⟩
  · rintro g _ ⟨hbase, r, -, ⟨hnew, haxes⟩, rfl⟩
    have hcovers : D.Covers w.eliminated g.axes := by
      rw [haxes]
      exact hf.admitted.covers.sublist (Axes.without_sublist _ u)
    have hgone : u.id ∉ g.axes.ids := by
      rw [haxes]
      exact hf.admitted.covers.notMem_ids_without u
    exact Agree.after (returns_modify (u := ⟨⟩).mpr rfl)
      (.pure ⟨(hf.toGoverns.accepts hnew ⟨hbase, hcovers⟩).mark hgone hexempt, hknown, hus⟩)

theorem agree_weigh (hw : D.Governs w₀ w) (hf : D.Admits w.eliminated f.table) :
    Agree D.stops (D.Governs w₀)
      (fun g w' => (∃ r, w.registry.Later r ∧ w' = { w with registry := r }) ∧
        D.Admits w.eliminated g.table)
      (runFrom (@weigh α B₁ _ s f) w) (runFrom (@weigh α B₂ _ s f) w) := by
  unfold weigh
  dsimp only
  split
  · exact .pure ⟨⟨w.registry, .refl _, rfl⟩, hf⟩
  · refine (agree_made (R := fun g _ => D.Covers w.eliminated g.axes) hw
      (D.scale (s.weightOf f.axes) hf.base) (Keeps.scale f _) fun g r h => ?_).imp (fun _ => id) ?_
    · obtain ⟨rfl, -⟩ := Factor.of_returns_scale h
      exact hf.covers.scale _
    · rintro g _ ⟨hbase, r, hlater, hcovers, rfl⟩
      exact ⟨⟨r, hlater, rfl⟩, hbase, hcovers⟩

theorem agree_sumUtilities (hw : D.Governs w₀ w) :
    Agree D.stops (D.Governs w₀) (fun _ => D.Governs w₀) (runFrom (@sumUtilitiesWith α B₁ _ put s) w)
      (runFrom (@sumUtilities α B₂ _ s) w) := by
  refine Agree.get (.after (returns_take.mpr ⟨rfl, rfl⟩) ?_)
  let rest : Workspace α := { w with pool := w.pool.filter (!w.mentionsUtility ·) }
  have hrest : D.Governs w₀ rest := hw.filter _
  split
  case isFalse => exact .pure hrest
  case isTrue =>
    refine Agree.bind (.mapM (I := fun w' => ∃ r, w.registry.Later r ∧
      w' = { rest with registry := r }) (T := fun g => D.Admits w.eliminated g.table) ?_
        ⟨w.registry, .refl _, rfl⟩) ?_
    · rintro f hf _ ⟨r, hr, rfl⟩
      refine (agree_weigh (hrest.later hr) (hw.admits f (List.mem_of_mem_filter hf))).imp
        (fun _ => id) ?_
      rintro g _ ⟨⟨r', hr', rfl⟩, hg⟩
      exact ⟨⟨r', hr.trans hr', rfl⟩, hg⟩
    rintro weighed _ ⟨⟨r, hr, rfl⟩, hweighed⟩
    refine Agree.bind (agree_make (hrest.later hr)
      (D.foldAll .sum fun g hg => (hweighed g hg).base) (Keeps.foldAll .sum weighed)
        fun g r h => ?_) ?_
    · obtain ⟨rfl, rfl⟩ := Factor.of_returns_sum h
      exact ⟨Factor.isNew_after _ _,
        Covers.foldAll (List.forall_mem_map.mpr fun f hf => (hweighed f hf).covers)⟩
    · rintro combined _ ⟨hcombined, r', hr', rfl⟩
      have hsub : Workspace.utilitiesOf { rest with registry := r' } combined.axes ⊆ combined.axes :=
        List.filter_sublist.subset
      refine Agree.get (.bind (agree_sumOutUtilities hcombined
        (List.Subset.trans hsub hcombined.admitted.covers.known) ?_) fun g w' hg =>
          (agree_put hg).imp (fun _ => id) fun _ _ h => h.1)
      -- a factor that is left has no handle of a utility, but perhaps another one of that variable
      intro u hu g hg hug
      obtain ⟨hu, hkind⟩ := List.mem_filter.mp hu
      obtain ⟨hgpool, hno⟩ := List.mem_filter.mp hg
      obtain ⟨v, hv, hvu⟩ := Axes.mem_ids.mp hug
      rw [Bool.not_eq_true', ← Bool.not_eq_true] at hno
      have hkinds : ∀ v, r'.kindOf v = w.registry.kindOf v := (hr.trans hr').kindOf
      refine D.exempt_of_utility hw.holds (hcombined.admitted.covers.known hu)
        ((hw.admits g hgpool).covers.known hv) hvu ?_ fun hother => ?_
      · rw [← hkinds]
        simpa using hkind
      · exact hno (List.any_eq_true.mpr ⟨v, hv, by simpa using hother⟩)

theorem agree_eliminate (hw : D.Governs w₀ w) (hv : D.knows v) :
    Agree D.stops (D.Governs w₀) (fun _ => D.Governs w₀) (runFrom (@eliminateWith α B₁ _ put v) w)
      (runFrom (@eliminate α B₂ _ v) w) := by
  refine Agree.after (returns_take.mpr ⟨rfl, rfl⟩) (.after (returns_modify (u := ⟨⟩).mpr rfl) ?_)
  have hrest := (hw.filter (!·.mentions v)).mark (v := v) fun f hf hmem => by
    have hno := (List.mem_filter.mp hf).2
    rw [Bool.not_eq_true', ← Bool.not_eq_true] at hno
    exact absurd (Table.mentions_iff.mpr hmem) hno
  split
  case isFalse => exact .pure hrest
  case isTrue =>
    refine Agree.bind (agree_made (R := fun g _ => D.Covers w.eliminated g.axes) hrest
      (D.foldAll .product fun f hf => (hw.admits f (List.mem_of_mem_filter hf)).base)
        (Keeps.foldAll .product _) fun g r h => ?_) ?_
    · obtain ⟨rfl, -⟩ := Factor.of_returns_product h
      exact hw.covers_product _
    · rintro joint _ ⟨hbase, r, hr, hcovers, rfl⟩
      refine Agree.bind (agree_make (hrest.later hr) (D.sumOut hbase hv) (Keeps.sumOut joint v)
        fun g r h => ?_) fun g w' hg => (agree_put hg.1).imp (fun _ => id) fun _ _ h => h.1
      obtain ⟨-, rfl, rfl⟩ := Factor.of_returns_sumOut h
      exact ⟨Factor.isNew_after _ _, (hcovers.sublist (Axes.without_sublist _ v)).mark
        fun hmem => absurd hmem (hcovers.notMem_ids_without v)⟩

theorem agree_eliminateAll {vars : List Variable} (hvars : ∀ v ∈ vars, D.knows v)
    (hw : D.Governs w₀ w) :
    Agree D.stops (D.Governs w₀) (fun _ => D.Governs w₀)
      (runFrom (vars.forM (@eliminateWith α B₁ _ put)) w) (runFrom (vars.forM (@eliminate α B₂ _)) w) :=
  .forM (fun v hv _ hw => agree_eliminate hw (hvars v hv)) hw

theorem Governs.knows_of_mem_hidden (hw : D.Governs w₀ w) {evidence : List Observation}
    {query : List Variable} {single : Bool} (hv : v ∈ w.hidden s evidence query single) :
    D.knows v := by
  obtain ⟨f, hf, hvf⟩ := List.mem_flatMap.mp
    ((Axes.mem_of_mem_union (List.mem_of_mem_filter hv)).resolve_left List.not_mem_nil)
  exact D.knows_of_mem v ((hw.admits f hf).covers.known hvf)

theorem agree_eliminateHidden (hw : D.Governs w₀ w) (evidence : List Observation)
    (query : List Variable) (single : Bool) :
    Agree D.stops (D.Governs w₀) (fun _ => D.Governs w₀)
      (runFrom (@eliminateHiddenWith α B₁ _ put s evidence query single) w)
      (runFrom (@eliminateHidden α B₂ _ s evidence query single) w) :=
  Agree.get (agree_eliminateAll
    (fun _ hv => hw.knows_of_mem_hidden ((s.heuristic.perm_order _ _).mem_iff.mp hv)) hw)

theorem agree_collapse (hw : D.Governs w₀ w) :
    Agree D.stops (D.Governs w₀) (fun f w' => D.Governs w₀ w' ∧ D.Admits w'.eliminated f.table)
      (runFrom (@collapseWith α B₁ _ put) w) (runFrom (@collapse α B₂ _) w) := by
  refine Agree.after (returns_take.mpr ⟨rfl, rfl⟩) ?_
  refine Agree.bind (agree_make (hw.filter _)
    (D.foldAll .product fun f hf => (hw.admits f (List.mem_of_mem_filter hf)).base)
      (Keeps.foldAll .product _) fun g r h => ?_) fun g w' hg => .bind (agree_put hg.1) ?_
  · obtain ⟨rfl, rfl⟩ := Factor.of_returns_product h
    exact ⟨Factor.isNew_after _ _, hw.covers_product _⟩
  · rintro _ _ ⟨hinsert, rfl⟩
    exact .pure ⟨hinsert, hg.1.admitted⟩

theorem agree_prepare (hw : D.Governs w₀ w) (target : Target) :
    Agree D.stops (D.Governs w₀) (fun _ => D.Governs w₀)
      (runFrom (@prepareWith α B₁ _ put s target) w) (runFrom (@prepare α B₂ _ s target) w) := by
  cases target with
  | probability => exact agree_dropUtilities hw none
  | totalUtility => exact agree_sumUtilities hw
  | utilityTerm v => exact agree_dropUtilities hw (some v)

theorem agree_solve (hw : D.Governs w₀ w) {evidence : List Observation}
    (hknows : ∀ o ∈ evidence, D.knows o.subject) (query : List Variable) (target : Target) :
    Agree D.stops (D.Governs w₀) (fun f w' => D.Governs w₀ w' ∧ D.Admits w'.eliminated f.table)
      (runFrom (@solveWith α B₁ _ put s evidence query target) w)
      (runFrom (@solve α B₂ _ s evidence query target) w) :=
  .bind (agree_observe hw hknows) fun _ _ hw =>
  .bind (agree_prepare hw target) fun _ _ hw =>
  .bind (agree_eliminateHidden hw evidence query false) fun _ _ hw => agree_collapse hw

/-! ### Decisions -/

theorem agree_candidates (hw : D.Governs w₀ w) :
    Agree D.stops (D.Governs w₀) (fun fs w' => D.Governs w₀ w' ∧
        ∀ f ∈ fs, D.Admits w'.eliminated f.table)
      (runFrom (candidates s d) w) (runFrom (candidates s d) w) := by
  refine Agree.after (returns_take.mpr ⟨rfl, rfl⟩) (.guard (hw.filter _) fun _ => .pure ?_)
  exact ⟨hw.filter _, fun f hf => hw.admits f (List.mem_of_mem_filter hf)⟩

theorem agree_productOf {fs : List (Factor α)} (hw : D.Governs w₀ w)
    (hfs : ∀ f ∈ fs, D.Admits w.eliminated f.table) :
    Agree D.stops (D.Governs w₀) (fun f w' => D.Governs w₀ w' ∧ D.Admits w'.eliminated f.table)
      (runFrom (@productOf α B₁ _ fs) w) (runFrom (@productOf α B₂ _ fs) w) := by
  have hmade : Agree D.stops (D.Governs w₀)
      (fun f w' => D.Governs w₀ w' ∧ D.Admits w'.eliminated f.table)
      (runFrom (onRegistry (@Factor.product α B₁ _ fs)) w)
      (runFrom (onRegistry (@Factor.product α B₂ _ fs)) w) := by
    refine (agree_make hw (D.foldAll .product fun f hf => (hfs f hf).base)
      (Keeps.foldAll .product fs) fun g r h => ?_).imp (fun _ => id) fun _ _ h =>
        ⟨h.1.toGoverns, h.1.admitted⟩
    obtain ⟨rfl, rfl⟩ := Factor.of_returns_product h
    exact ⟨Factor.isNew_after _ _, Covers.foldAll (List.forall_mem_map.mpr fun f hf => (hfs f hf).covers)⟩
  match fs, hfs, hmade with
  | [f], hfs, _ => exact .pure ⟨hw, hfs f (List.mem_singleton_self f)⟩
  | [], _, hmade | f :: g :: fs, _, hmade => exact hmade

/-- Comparing an axis of a rule with its first outcome keeps what numbers that are handed out keep. -/
theorem agree_isConstantFrom {I : Workspace α → Prop} {rule first : Factor α}
    (hI : ∀ w r, I w → w.registry.Later r → I { w with registry := r }) (hrule : D.base rule.table)
    (hv : D.knows v) (n outcome : ℕ) (hw : I w) :
    Agree D.stops I (fun _ => I) (runFrom (@isConstantFrom α B₁ _ rule v first n outcome) w)
      (runFrom (@isConstantFrom α B₂ _ rule v first n outcome) w) := by
  induction n generalizing w outcome with
  | zero => exact .pure hw
  | succ n ih =>
      refine Agree.bind (agree_onRegistry (Q := fun _ => I)
        ((D.restrict outcome hrule hv w.registry).and_keeps (Keeps.restrict rule v outcome))
        (fun r hr => hI w r hw hr.2) fun g r hg => hI w r hw hg.2.1) fun other w hw => ?_
      split
      · exact ih (outcome + 1) hw
      · exact .pure hw

theorem agree_dropAxis {tables : Factor α × Factor α} (hleft : D.base tables.1.table)
    (hw : D.Accepts w₀ w tables.2) (hv : D.knows v) :
    Agree D.stops (D.Governs w₀) (fun p w' => D.base p.1.table ∧ D.Accepts w₀ w' p.2)
      (runFrom (@dropAxis α B₁ _ tables v) w) (runFrom (@dropAxis α B₂ _ tables v) w) := by
  obtain ⟨combined, rule⟩ := tables
  refine Agree.bind (agree_restrict hw.toGoverns hw.admitted hv 0) ?_
  rintro first _ ⟨hfirst, r, hr, rfl⟩
  refine Agree.bind ((agree_isConstantFrom (I := fun w' => D.Accepts w₀ w' first ∧
    D.Accepts w₀ w' rule) (fun w r h hr => ⟨h.1.later hr, h.2.later hr⟩) hw.admitted.base hv _ _
    ⟨hfirst, hw.later hr⟩).imp (fun _ h => h.1.toGoverns) fun _ _ => id) ?_
  rintro constant w ⟨hfirst, hrule⟩
  split
  · refine Agree.bind (agree_onRegistry (Q := fun g w' => D.base g.table ∧ D.Accepts w₀ w' first)
      ((D.restrict 0 hleft hv w.registry).and_keeps (Keeps.restrict combined v 0))
      (fun r hr => hfirst.toGoverns.later hr.2) fun g r hg => ⟨hg.1, hfirst.later hg.2.1⟩)
      fun _ _ h => .pure h
  · exact .pure ⟨hleft, hrule⟩

theorem agree_dropUnobserved {combined rule : Factor α} (hleft : D.base combined.table)
    (hw : D.Accepts w₀ w rule) :
    Agree D.stops (D.Governs w₀) (fun p w' => D.base p.1.table ∧ D.Accepts w₀ w' p.2)
      (runFrom (@dropUnobserved α B₁ _ s d combined rule) w)
      (runFrom (@dropUnobserved α B₂ _ s d combined rule) w) := by
  refine (Agree.foldlM (I := fun (vars : Axes) (p : Factor α × Factor α) w' => D.base p.1.table ∧
    D.Accepts w₀ w' p.2 ∧ vars ⊆ D.known) ?_ ⟨hleft, hw, ?_⟩).imp (fun _ => id)
      fun _ _ h => ⟨h.1, h.2.1⟩
  · rintro v vars tables w ⟨hleft, hw, hknown⟩
    obtain ⟨hv, hknown⟩ := List.cons_subset.mp hknown
    exact (agree_dropAxis hleft hw (D.knows_of_mem v hv)).imp (fun _ => id)
      fun _ _ h => ⟨h.1, h.2, hknown⟩
  · exact List.Subset.trans List.filter_sublist.subset hw.admitted.covers.known

theorem decideHereWith_eq [Build] (put : Factor α → StepM α Unit) (s : Setting α) (d : Variable) :
    decideHereWith put s d =
      eliminateHiddenWith put s [] [] true >>= fun _ => candidates s d >>= decideOn s d := by
  refine congrArg (eliminateHiddenWith put s [] [] true >>= ·) (funext fun _ => ?_)
  refine congrArg (candidates s d >>= ·) (funext fun fs => ?_)
  match fs with
  | [f] | [] | f :: g :: fs => rfl

/-- The rule of what is left after some variables have been eliminated. -/
theorem agree_decideAfter (hclosed : D.IsClosed) (hd : d ∈ s.decisionOrder) {vars : List Variable}
    (hvars : ∀ v ∈ vars, D.knows v) (hw : D.Governs w₀ w) :
    Agree D.stops (D.Governs w₀) (fun p w' => D.base p.1.table ∧ D.Accepts w₀ w' p.2)
      (runFrom (vars.forM (@eliminateWith α B₁ _ put) >>= fun _ =>
        candidates s d >>= @decideOn α B₁ _ s d) w)
      (runFrom (vars.forM (@eliminate α B₂ _) >>= fun _ =>
        candidates s d >>= @decideOn α B₂ _ s d) w) := by
  refine Agree.bind (agree_eliminateAll hvars hw) fun _ _ hw => ?_
  refine Agree.bind (agree_candidates hw) ?_
  rintro fs w ⟨hw, hfs⟩
  refine Agree.bind (agree_productOf hw hfs) ?_
  rintro f w ⟨hw, hf⟩
  have hmem : f.mentions d → d ∈ D.known := fun hmentions =>
    hclosed d hd (List.map_subset _ hf.covers.known (Table.mentions_iff.mp hmentions))
  refine Agree.bind (agree_make hw (D.rule hf.base hmem) (Keeps.rule f d) fun g r h => ?_)
    fun rule w' hrule => agree_dropUnobserved hf.base hrule.1
  obtain ⟨hmentions, hg, hnew⟩ := Factor.of_returns_rule h
  exact ⟨hnew, hf.covers.rule hmentions (hmem hmentions) hg⟩

theorem agree_decideHere (hclosed : D.IsClosed) (hd : d ∈ s.decisionOrder) (hw : D.Governs w₀ w) :
    Agree D.stops (D.Governs w₀) (fun p w' => D.base p.1.table ∧ D.Accepts w₀ w' p.2)
      (runFrom (@decideHereWith α B₁ _ put s d) w) (runFrom (@decideHere α B₂ _ s d) w) := by
  rw [decideHereWith_eq, @decideHere_eq α B₂ _ s d]
  exact agree_decideAfter hclosed hd
    (fun _ hv => hw.knows_of_mem_hidden ((s.heuristic.perm_order _ _).mem_iff.mp hv)) hw

/-- A decision is made in a copy, of which only the registry and the tables come back, and the rule is
added to the pool. -/
theorem agree_settle {x y : StepM α (Factor α × Factor α)} (hd : d ∈ s.decisionOrder)
    (hw : D.Governs w₀ w)
    (h : Agree D.stops (D.Governs w) (fun p w' => D.base p.1.table ∧ D.Accepts w w' p.2)
      (runFrom x w) (runFrom y w)) :
    Agree D.stops (D.Governs w₀)
      (fun res w' => D.Governs w₀ w' ∧ D.Settles res)
      (runFrom (do
        let (combined, rule) ← inScratch x
        put rule
        let _ ← onRegistry (Registry.relabelAsChance d)
        return (⟨d, combined, rule⟩ : Resolved α)) w)
      (runFrom (do
        let (combined, rule) ← inScratch y
        StepM.insert rule
        let _ ← onRegistry (Registry.relabelAsChance d)
        return (⟨d, combined, rule⟩ : Resolved α)) w) := by
  refine Agree.bind (agree_inScratch hw h) ?_
  rintro ⟨combined, rule⟩ w ⟨hcombined, hrule⟩
  refine Agree.bind (agree_put hrule) ?_
  rintro _ _ ⟨hw, rfl⟩
  have hrelabel : Keeps (fun r r' : Registry => r.nextFactor ≤ r'.nextFactor ∧
      (D.holds r → D.holds r')) (Registry.relabelAsChance d) := by
    have : IsPreorder Registry fun r r' : Registry =>
        r.nextFactor ≤ r'.nextFactor ∧ (D.holds r → D.holds r') :=
      { refl := fun _ => ⟨Nat.le_refl _, id⟩
        trans := fun _ _ _ h h' => ⟨h.1.trans h'.1, h'.2 ∘ h.2⟩ }
    exact Registry.keeps_relabelAsChance_of fun r hmem => ⟨Nat.le_refl _, D.holds_withChance hmem⟩
  refine Agree.bind (agree_onRegistry (Q := fun _ => D.Governs w₀)
    (Agree.of_keeps hrelabel (fun r h => h) fun _ r h => h)
    (fun r hr => hw.goesOn hr.1 (hr.2 hw.holds)) fun _ r hr => hw.goesOn hr.1 (hr.2 hw.holds)) ?_
  exact fun _ _ h => .pure ⟨h, hd, hcombined, hrule.admitted.base⟩

theorem agree_resolve (hclosed : D.IsClosed) (hd : d ∈ s.decisionOrder) (hw : D.Governs w₀ w) :
    Agree D.stops (D.Governs w₀)
      (fun res w' => D.Governs w₀ w' ∧ D.Settles res)
      (runFrom (@resolveWith α B₁ _ put s d) w) (runFrom (@resolve α B₂ _ s d) w) :=
  agree_settle hd hw (agree_decideHere hclosed hd hw.restart)

theorem agree_solveDecisions (hclosed : D.IsClosed) (hw : D.Governs w₀ w) :
    Agree D.stops (D.Governs w₀) (fun rs w' => D.Governs w₀ w' ∧ ∀ res ∈ rs, D.Settles res)
      (runFrom (@solveDecisionsWith α B₁ _ put s) w) (runFrom (@solveDecisions α B₂ _ s) w) := by
  unfold solveDecisionsWith solveDecisions
  split
  · exact .pure ⟨hw, by simp⟩
  · refine Agree.bind (agree_sumUtilities hw) fun _ w hw => ?_
    refine Agree.bind (.mapM (fun d hd w hw => agree_resolve hclosed (List.mem_reverse.mp hd) hw) hw)
      ?_
    exact fun rs _ h => .pure ⟨h.1, fun res hres => h.2 res (List.mem_reverse.mp hres)⟩

/-! ### Operations -/

/-- **An operation keeps the discipline.** -/
theorem agree_run (hclosed : D.IsClosed) (hall : ∀ v, D.knows v) (c : Operation) (hw : D.Governs w₀ w) :
    Agree D.stops (D.Governs w₀) (fun _ => D.Governs w₀) (runFrom (@Operation.runWith α B₁ _ put s c) w)
      (runFrom (@Operation.run α B₂ _ s c) w) := by
  cases c with
  | observe evidence => exact .bind (agree_observe hw fun _ _ => hall _) fun _ _ h => .pure h
  | dropUtilities keep => exact .bind (agree_dropUtilities hw keep) fun _ _ h => .pure h
  | sumUtilities => exact .bind (agree_sumUtilities hw) fun _ _ h => .pure h
  | eliminate v => exact .bind (agree_eliminate hw (hall v)) fun _ _ h => .pure h
  | eliminateHidden evidence query single =>
      exact .bind (agree_eliminateHidden hw evidence query single) fun _ _ h => .pure h
  | collapse => exact .bind (agree_collapse hw) fun _ _ h => .pure h.1
  | solve evidence query target =>
      exact .bind (agree_solve hw (fun _ _ => hall _) query target) fun _ _ h => .pure h.1
  | solveDecisions => exact .bind (agree_solveDecisions hclosed hw) fun _ _ h => .pure h.1

/-- A run of the second build that nothing stops keeps the discipline. -/
theorem Governs.afterOperations (hclosed : D.IsClosed) (hall : ∀ v, D.knows v)
    (hstops : ∀ e, ¬D.stops e) (h : D.Governs w₀ w) (cs : List Operation) :
    D.Governs w₀ (@Workspace.afterOperations α B₂ _ s w cs) := by
  induction cs generalizing w with
  | nil => exact h
  | cons c cs ih => exact ih ((agree_run hclosed hall c h).state (fun e _ => hstops e) fun _ _ h => h)

end Discipline

end Influence
