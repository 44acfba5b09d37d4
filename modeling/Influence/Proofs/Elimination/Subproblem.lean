import Influence.Proofs.Elimination.Beside
import Influence.Proofs.Elimination.Shift

/-! # Several problems in one run

A run may resolve the decisions of several unrelated problems.  Each of these could be solved in a run
by itself (`Subproblem`), with other identities for its variables.

The larger run resolves all decisions if each of the runs does, and finds the same rules for them
(`Subproblem.exists_returns_resolveAll`).  It may take the decisions of different problems in any order. -/

namespace Influence

open scoped Exact

variable {sizes rank : VariableId → ℕ}

/-- A problem with a run by itself, and the number that is added to its identities in a larger run. -/
structure Subproblem where
  offset : VariableId
  /-- The variables of the problem. -/
  handles : Axes
  setting : Setting ℚ
  /-- What is eliminated before a decision is resolved. -/
  pick : StepM.Pick ℚ
  /-- The utility at the start of the run, if there is one. -/
  utilities : List (Table ℚ)

/-! ### Laws -/

namespace Law

variable {laws : List Law} {kept vars vars' : Axes} {k : VariableId} {d : Variable} {t t' : Table ℚ}

theorem HeadsBut.of_perm (h : HeadsBut sizes laws kept vars) (hperm : vars'.Perm vars) :
    HeadsBut sizes laws kept vars' where
  nodup := (hperm.map _).nodup_iff.mpr h.nodup
  sized := h.sized.subset hperm.subset
  mem_iff := fun id => ((hperm.map _).mem_iff).trans (h.mem_iff id)

theorem HeadsBut.perm_laws {laws' : List Law} (h : HeadsBut sizes laws kept vars)
    (hperm : laws.Perm laws') : HeadsBut sizes laws' kept vars where
  nodup := h.nodup
  sized := h.sized
  mem_iff := fun id => by
    have hmem : id ∈ (heads laws').ids ↔ id ∈ (heads laws).ids :=
      (((hperm.map (·.head)).map (·.id)).mem_iff).symm
    rw [hmem, h.mem_iff]

theorem HeadsBut.shift (h : HeadsBut (fun id => sizes (id + k)) laws kept vars) :
    HeadsBut sizes (laws.map (Law.shift k)) (kept.shift k) (vars.shift k) where
  nodup := Axes.nodup_ids_shift h.nodup
  sized := fun v hv => by
    obtain ⟨w, hw, rfl⟩ := List.mem_map.mp hv
    exact h.sized w hw
  mem_iff := fun id => by
    rw [heads_map_shift, Axes.mem_ids_shift, Axes.mem_ids_shift, Axes.mem_ids_shift, h.mem_iff]

theorem Normal.of_alike (h : Law.Normal sizes rank ⟨d, t⟩) (halike : Table.Alike sizes t' t) :
    Law.Normal sizes rank ⟨d, t'⟩ where
  fits := halike.fits
  arity := h.arity
  mem := (halike.ids _).mp h.mem
  sum_one := fun x hx => by
    rw [← h.sum_one x hx]
    refine Finset.sum_congr rfl fun j hj => (halike.value _ (hx.set ?_)).symm
    rw [← h.arity]
    exact Finset.mem_range.mp hj
  rank_lt := fun id hid => h.rank_lt id ((halike.ids id).mpr hid)

/-- A law whose shift is one. -/
theorem Normal.of_shift {l : Law} (h : (l.shift k).Normal sizes rank) :
    l.Normal (fun id => sizes (id + k)) fun id => rank (id + k) where
  fits := ⟨⟨(List.Nodup.of_map _ (Axes.ids_shift k _ ▸ h.fits.wellFormed.nodup)),
    fun v hv => h.fits.wellFormed.arity_pos (v.shift k) (List.mem_map_of_mem hv),
    h.fits.wellFormed.size_cells.trans (Axes.count_shift k _), rfl⟩,
    fun v hv => h.fits.sized (v.shift k) (List.mem_map_of_mem hv)⟩
  arity := h.arity
  mem := Axes.add_mem_ids_shift.mp h.mem
  sum_one := fun x hx => by
    have hy : Assignment.Valid sizes fun id => x (id - k) := fun id => by
      simpa only [UInt32.sub_add_cancel] using hx (id - k)
    rw [← h.sum_one _ hy]
    refine Finset.sum_congr rfl fun j _ => ?_
    rw [Law.shift, Table.valueAt_shift]
    refine congrArg _ (funext fun id => ?_)
    simp only [Assignment.set, Variable.id_shift, Function.update_apply, UInt32.add_left_inj,
      UInt32.add_sub_cancel]
  rank_lt := fun id hid hne => h.rank_lt (id + k) (Axes.add_mem_ids_shift.mpr hid)
    fun heq => hne ((UInt32.add_left_inj k).mp heq)

end Law

/-! ### The larger run -/

/-- A workspace holds the utilities of several problems and the laws found so far. -/
structure Workspace.Gathers (sizes rank : VariableId → ℕ) (s : Setting ℚ) (us : List (Table ℚ))
    (ds : List Variable) (laws : List Law) (w : Workspace ℚ) : Prop where
  isOpen : w.Open sizes ds
  hasLaws : w.HasLaws sizes rank s ds laws
  tables : Tables.Alike sizes w.tables (us ++ Law.tables laws)
  issued : (Tables.axes w.tables).ids ⊆ Axes.ids w.registry.handles

namespace Workspace.Gathers

variable {s : Setting ℚ} {us : List (Table ℚ)} {d : Variable} {ds : List Variable} {laws : List Law}
  {w w' : Workspace ℚ} {rule t : Table ℚ}

theorem heads_subset (h : w.Gathers sizes rank s us ds laws) :
    (Law.heads laws).ids ⊆ (Tables.axes w.tables).ids := fun _ hid =>
  h.tables.mem_ids_axes.mp (Tables.mem_ids_axes_append.mpr
    (.inr (Law.ids_heads_subset h.hasLaws.normal hid)))

theorem headsBut (h : w.Gathers sizes rank s us (d :: ds) laws) :
    Law.HeadsBut sizes laws (s.dependencies.parents d) (w.hidden s [] [] true) :=
  h.hasLaws.headsBut h.isOpen h.issued h.heads_subset

theorem resolves (h : w.Gathers sizes rank s us (d :: ds) laws) (hres : w.Resolves d rule w')
    (hrule : Law.Normal sizes rank ⟨d, rule⟩) (halike : Table.Alike sizes t rule)
    (hsub : rule.axes.ids ⊆ (Tables.axes w.tables).ids) :
    w'.Gathers sizes rank s us ds (laws ++ [⟨d, t⟩]) where
  isOpen := h.isOpen.resolves hres halike.fits'
  hasLaws := h.hasLaws.resolves h.isOpen hres (hrule.of_alike halike)
  tables := by
    rw [hres.tables, Law.tables_append, ← List.append_assoc]
    exact h.tables.append (Tables.alike_singleton halike.symm)
  issued := by
    intro id hid
    rw [hres.tables, Tables.mem_ids_axes_append] at hid
    rw [hres.handles, Registry.ids_withChance]
    refine h.issued (hid.elim (fun hid => hid) fun hid => hsub ?_)
    simpa [Tables.axes] using hid

end Workspace.Gathers

namespace Subproblem

variable {m : Subproblem} {s : Setting ℚ} {pick : StepM.Pick ℚ} {us : List (Table ℚ)} {d : Variable}
  {ds ds₀ : List Variable} {laws laws₀ : List Law} {w w' w₀ w₁ : Workspace ℚ} {p q : Table ℚ × Table ℚ}
  {rs : List (Resolved ℚ)} {l : Law}

/-- The variables of the problem in the larger run. -/
def own (m : Subproblem) : Axes := m.handles.shift m.offset

/-- The larger run is about the same variables, which its decisions observe in the same way, and the
utility of the problem is added to those of others. -/
structure IsPartOf (m : Subproblem) (sizes : VariableId → ℕ) (s : Setting ℚ) (us : List (Table ℚ)) :
    Prop where
  known : ∀ d ∈ m.setting.decisionOrder,
    Axes.ids (d :: m.setting.dependencies.parents d) ⊆ m.handles.ids
  parents : ∀ d ∈ m.setting.decisionOrder, s.dependencies.parents (d.shift m.offset) =
    Axes.shift m.offset (m.setting.dependencies.parents d)
  pick : ∀ d w, (m.pick d w).Perm (w.hidden m.setting [] [] true)
  added : Tables.Added sizes m.own (m.utilities.map (Table.shift m.offset)) us

/-- The run on the problem by itself holds its utility and its laws, which are among those of the larger
run. -/
structure Keeps (m : Subproblem) (sizes rank : VariableId → ℕ) (ds : List Variable)
    (laws₀ laws : List Law) (w : Workspace ℚ) : Prop where
  isOpen : w.Open (fun id => sizes (id + m.offset)) ds
  hasLaws : w.HasLaws (fun id => sizes (id + m.offset)) (fun id => rank (id + m.offset)) m.setting ds laws₀
  tables : w.tables.Perm (m.utilities ++ Law.tables laws₀)
  handles : Axes.ids w.registry.handles = m.handles.ids
  subset : (Tables.axes w.tables).ids ⊆ m.handles.ids
  laws : ∃ others, laws.Perm (laws₀.map (Law.shift m.offset) ++ others) ∧
    Law.Beside m.own (laws₀.map (Law.shift m.offset)) others

/-- What the run by itself hides before it resolves a decision is, shifted, all own heads but those that the
decision observes. -/
theorem Keeps.headsBut (h : m.Keeps sizes rank (d :: ds₀) laws₀ laws w₀)
    (hm : m.IsPartOf sizes s us) :
    Law.HeadsBut sizes (laws₀.map (Law.shift m.offset)) (s.dependencies.parents (d.shift m.offset))
      (Axes.shift m.offset (m.pick d w₀)) := by
  have hissued : (Tables.axes w₀.tables).ids ⊆ Axes.ids w₀.registry.handles := by
    rw [h.handles]
    exact h.subset
  have hmem : (Law.heads laws₀).ids ⊆ (Tables.axes w₀.tables).ids := fun id hid => by
    refine ((h.tables.flatMap_right _).map _).mem_iff.mpr ?_
    exact Tables.mem_ids_axes_append.mpr (.inr (Law.ids_heads_subset h.hasLaws.normal hid))
  rw [hm.parents d h.hasLaws.mem_decisionOrder]
  exact ((h.hasLaws.headsBut h.isOpen hissued hmem).of_perm (hm.pick d w₀)).shift

/-- **A decision finds the rule that it finds in the run on its problem alone.** -/
theorem Keeps.exists_decide (h : m.Keeps sizes rank (d :: ds₀) laws₀ laws w₀)
    (hm : m.IsPartOf sizes s us) (hpos : ∀ id, 0 < sizes id)
    (hw : w.Gathers sizes rank s us (d.shift m.offset :: ds) laws)
    (hpick : (pick (d.shift m.offset) w).Perm (w.hidden s [] [] true))
    (hrank : ∀ v ∈ s.dependencies.parents (d.shift m.offset), rank v.id < rank (d.id + m.offset))
    (hdecide : Tables.decide m.setting d (Tables.eliminateAll (m.pick d w₀) w₀.tables) = .ok p)
    (hobserved : p.2.axes.ids ⊆ Axes.ids (d :: m.setting.dependencies.parents d))
    (hmore : m.setting.dependencies.parents d ≠ [] →
      ∀ t ∈ Tables.eliminateAll (m.pick d w₀) w₀.tables, t.axes.ids ≠ [d.id]) :
    ∃ q, Tables.decide s (d.shift m.offset) (Tables.eliminateAll (pick (d.shift m.offset) w) w.tables) =
      .ok q ∧ Table.Alike sizes (p.2.shift m.offset) q.2 := by
  obtain ⟨others, hperm, hbeside⟩ := h.laws
  have hd := h.hasLaws.mem_decisionOrder
  have hparents := hm.parents d hd
  have hvars := h.headsBut hm
  have hvars' := (hw.headsBut.of_perm hpick).perm_laws hperm
  have hheads : (Law.heads laws).ids.Perm
      (Law.heads (laws₀.map (Law.shift m.offset) ++ others)).ids := (hperm.map _).map _
  have hnotMem : (d.shift m.offset).id ∉ (Law.heads (laws₀.map (Law.shift m.offset))).ids := by
    intro hmem
    refine hw.hasLaws.notMem_heads hw.isOpen (hheads.mem_iff.mpr ?_)
    rw [Law.heads_append, Axes.ids_append]
    exact List.mem_append_left _ hmem
  have hshift : ∀ t ∈ w₀.tables.map (Table.shift m.offset), t.Fits sizes := by
    intro t ht
    obtain ⟨t₀, ht₀, rfl⟩ := List.mem_map.mp ht
    exact (h.isOpen.fits t₀ ht₀).shift
  have htables : (w₀.tables.map (Table.shift m.offset)).Perm
      (m.utilities.map (Table.shift m.offset) ++ Law.tables (laws₀.map (Law.shift m.offset))) := by
    rw [Law.tables_map_shift, ← List.map_append]
    exact h.tables.map _
  have hpool : (us ++ Law.tables laws).Perm
      (us ++ Law.tables (laws₀.map (Law.shift m.offset) ++ others)) := (hperm.map _).append_left _
  refine hbeside.exists_decide (p := (p.1.shift m.offset, p.2.shift m.offset))
    (fun l hl => hw.hasLaws.normal l (hperm.mem_iff.mpr hl)) (hheads.nodup_iff.mp hw.hasLaws.nodup)
    hm.added hpos (hw.isOpen.sized _ (by simp)) ?_ hvars hvars' (hvars.covers hnotMem hrank)
    ((Tables.Alike.of_perm hshift htables).eliminateAll hvars.sized)
    ((hw.tables.trans (.of_perm (fun t ht => hw.tables.symm.fits ht) hpool)).eliminateAll hvars'.sized)
    ?_ ?_ ?_
  · rw [hparents, ← Axes.shift_cons]
    intro id hid
    exact Axes.mem_ids_shift.mpr (hm.known d hd (Axes.mem_ids_shift.mp hid))
  · rw [Tables.eliminateAll_shift]
    exact Tables.decide_shift hparents hdecide
  · rw [hparents, ← Axes.shift_cons]
    intro id hid
    exact Axes.mem_ids_shift.mpr (hobserved (Axes.mem_ids_shift.mp hid))
  · rw [Tables.eliminateAll_shift]
    intro hne t ht hids
    obtain ⟨t₀, ht₀, rfl⟩ := List.mem_map.mp ht
    rw [Table.axes_shift, Axes.ids_shift, Variable.id_shift] at hids
    obtain ⟨id, hid, heq⟩ := List.map_eq_singleton_iff.mp hids
    refine hmore (fun hnil => hne (by rw [hparents, hnil]; rfl)) t₀ ht₀ ?_
    rw [hid, (UInt32.add_left_inj m.offset).mp heq]

/-- The rule of a decision of the problem is one more law of it. -/
theorem Keeps.resolves (h : m.Keeps sizes rank (d :: ds₀) laws₀ laws w₀) (hres : w₀.Resolves d p.2 w₁)
    (hrule : Law.Normal sizes rank (Law.shift m.offset ⟨d, p.2⟩)) (hsub : p.2.axes.ids ⊆ m.handles.ids) :
    m.Keeps sizes rank ds₀ (laws₀ ++ [⟨d, p.2⟩]) (laws ++ [Law.shift m.offset ⟨d, p.2⟩]) w₁ where
  isOpen := h.isOpen.resolves hres hrule.of_shift.fits
  hasLaws := h.hasLaws.resolves h.isOpen hres hrule.of_shift
  tables := by
    rw [hres.tables, Law.tables_append, ← List.append_assoc]
    exact h.tables.append_right _
  handles := by rw [hres.handles, Registry.ids_withChance, h.handles]
  subset := by
    intro id hid
    rw [hres.tables, Tables.mem_ids_axes_append] at hid
    refine hid.elim (fun hid => h.subset hid) fun hid => hsub ?_
    simpa [Tables.axes] using hid
  laws := by
    obtain ⟨others, hperm, hbeside⟩ := h.laws
    refine ⟨others, ?_, ?_, hbeside.outside⟩
    · rw [List.map_append, List.append_assoc]
      refine (hperm.append_right _).trans ?_
      rw [List.append_assoc]
      exact List.perm_append_comm.append_left _
    · intro id hid
      rw [List.map_append, Law.tables_append, Tables.mem_ids_axes_append] at hid
      refine hid.elim (fun hid => hbeside.inside hid) fun hid => Axes.mem_ids_shift.mpr (hsub ?_)
      simpa [Law.tables, Tables.axes, Law.shift, Axes.mem_ids_shift] using hid

theorem Keeps.append (h : m.Keeps sizes rank ds₀ laws₀ laws w₀)
    (hl : ∀ id ∈ l.table.axes.ids, id ∉ m.own.ids) :
    m.Keeps sizes rank ds₀ laws₀ (laws ++ [l]) w₀ where
  isOpen := h.isOpen
  hasLaws := h.hasLaws
  tables := h.tables
  handles := h.handles
  subset := h.subset
  laws := by
    obtain ⟨others, hperm, hbeside⟩ := h.laws
    refine ⟨others ++ [l], ?_, hbeside.inside, ?_⟩
    · rw [← List.append_assoc]
      exact hperm.append_right _
    · intro id hid
      rw [Law.tables_append, Tables.mem_ids_axes_append] at hid
      exact hid.elim (hbeside.outside id) fun hid => hl id (by simpa [Law.tables, Tables.axes] using hid)

/-! ### Runs -/

/-- The problem can be solved by itself: each decision has a rule that is observed, and if it observes
something then no table over nothing but the decision is left. -/
inductive Solves (m : Subproblem) : List Variable → Workspace ℚ → List (Resolved ℚ) → Prop where
  | nil {w : Workspace ℚ} : Solves m [] w []
  | cons {d : Variable} {ds : List Variable} {w w₁ : Workspace ℚ} {res : Resolved ℚ}
      {rs : List (Resolved ℚ)} :
      res.decision = d →
      Tables.decide m.setting d (Tables.eliminateAll (m.pick d w) w.tables) =
        .ok (res.combined.table, res.rule.table) →
      res.IsObserved m.setting →
      (m.setting.dependencies.parents d ≠ [] →
        ∀ t ∈ Tables.eliminateAll (m.pick d w) w.tables, t.axes.ids ≠ [d.id]) →
      w.Resolves d res.rule.table w₁ → Solves m ds w₁ rs → Solves m (d :: ds) w (res :: rs)

/-- A run that finds a rule for each decision solves the problem. -/
theorem Solves.of_returns {m : Subproblem} {w' : Workspace ℚ} (hw : w.Open sizes ds)
    (h : Returns (ds.mapM (StepM.resolveBy m.pick m.setting)) w rs w')
    (hobserved : ∀ res ∈ rs, res.IsObserved m.setting)
    (hmore : ∀ before d after qs w₁, ds = before ++ d :: after →
      Returns (before.mapM (StepM.resolveBy m.pick m.setting)) w qs w₁ → w₁.Numbered →
      m.setting.dependencies.parents d ≠ [] →
      ∀ t ∈ Tables.eliminateAll (m.pick d w₁) w₁.tables, t.axes.ids ≠ [d.id]) : m.Solves ds w rs := by
  induction ds generalizing w rs with
  | nil =>
      obtain ⟨rfl, rfl⟩ := returns_mapM_nil.mp h
      exact .nil
  | cons d ds ih =>
      obtain ⟨res, w₁, rest, hfirst, hrest, rfl⟩ := returns_mapM_cons.mp h
      obtain ⟨hres, hobserved⟩ := List.forall_mem_cons.mp hobserved
      obtain ⟨hfor, hdecide, hresolves⟩ := (Ends.resolveBy hw).result (congrArg Prod.fst hfirst)
      rw [show (runFrom (StepM.resolveBy m.pick m.setting d) w).2 = w₁ from congrArg Prod.snd hfirst]
        at hresolves
      refine .cons hfor.decision hdecide hres
        (hmore [] d ds [] w rfl (returns_mapM_nil.mpr ⟨rfl, rfl⟩) hw.numbered) hresolves
        (ih (hw.resolves hresolves hfor.paired.right) hrest hobserved ?_)
      rintro before d' after qs w₂ rfl hbefore
      exact hmore (d :: before) d' after (res :: qs) w₂ rfl
        (returns_mapM_cons.mpr ⟨res, w₁, qs, hfirst, hbefore, rfl⟩)

/-- The decisions of the problem are still to be resolved, and the run by itself finds the given rules. -/
def Waits (m : Subproblem) (sizes rank : VariableId → ℕ) (ds : List Variable) (laws : List Law)
    (rs : List (Resolved ℚ)) : Prop :=
  ∃ ds₀ laws₀ w₀, ds.filter m.own.mentions = Axes.shift m.offset ds₀ ∧
    m.Keeps sizes rank ds₀ laws₀ laws w₀ ∧ m.Solves ds₀ w₀ rs

/-- The rule of the larger run is the one of the run by itself. -/
structure SameRule (m : Subproblem) (sizes : VariableId → ℕ) (res res' : Resolved ℚ) : Prop where
  decision : res'.decision = res.decision.shift m.offset
  isFor : res'.IsFor sizes res'.decision
  rule : Table.Alike sizes (res.rule.table.shift m.offset) res'.rule.table

theorem Waits.append (h : m.Waits sizes rank (d :: ds) laws rs) (hd : ¬m.own.mentions d)
    (hl : ∀ id ∈ l.table.axes.ids, id ∉ m.own.ids) : m.Waits sizes rank ds (laws ++ [l]) rs := by
  obtain ⟨ds₀, laws₀, w₀, hds, hkeeps, hsolves⟩ := h
  rw [List.filter_cons_of_neg hd] at hds
  exact ⟨ds₀, laws₀, w₀, hds, hkeeps.append hl, hsolves⟩

/-- The next decision of the problem is resolved. -/
theorem Waits.exists_decide (h : m.Waits sizes rank (d :: ds) laws rs) (hm : m.IsPartOf sizes s us)
    (hd : m.own.mentions d) (hpos : ∀ id, 0 < sizes id) (hw : w.Gathers sizes rank s us (d :: ds) laws)
    (hpick : (pick d w).Perm (w.hidden s [] [] true))
    (hrank : ∀ v ∈ s.dependencies.parents d, rank v.id < rank d.id) :
    ∃ res rs₁ q, rs = res :: rs₁ ∧ d = res.decision.shift m.offset ∧
      Tables.decide s d (Tables.eliminateAll (pick d w) w.tables) = .ok q ∧
      Table.Alike sizes (res.rule.table.shift m.offset) q.2 ∧ Law.Normal sizes rank ⟨d, q.2⟩ ∧
      (res.rule.table.shift m.offset).axes.ids ⊆ m.own.ids ∧
      m.Waits sizes rank ds (laws ++ [⟨d, res.rule.table.shift m.offset⟩]) rs₁ := by
  obtain ⟨ds₀, laws₀, w₀, hds, hkeeps, hsolves⟩ := h
  rw [List.filter_cons_of_pos hd] at hds
  cases hsolves with
  | nil => cases hds
  | @cons d₀ ds₀ _ w₁ res rs hdecision hdecide hobserved hmore hres hrest =>
      obtain ⟨rfl, hds'⟩ := List.cons.inj hds
      subst hdecision
      have hd₀ := hkeeps.hasLaws.mem_decisionOrder
      have hobserved' : res.rule.table.axes.ids ⊆
          Axes.ids (res.decision :: m.setting.dependencies.parents res.decision) := fun id hid => by
        have := hobserved hid
        rw [Axes.ids_append, List.mem_append] at this
        simpa [or_comm] using this
      obtain ⟨q, hq, hrule⟩ := hkeeps.exists_decide hm hpos hw hpick hrank hdecide hobserved' hmore
      have hsub : res.rule.table.axes.ids ⊆ m.handles.ids :=
        List.Subset.trans hobserved' (hm.known _ hd₀)
      have hnormal : Law.Normal sizes rank ⟨res.decision.shift m.offset, q.2⟩ := by
        refine Law.normal_of_decide hpos (Tables.fits_eliminateAll hw.isOpen.fits _)
          (hw.isOpen.sized _ (by simp)) hq (fun id hid => ?_) hrank
        have hid := Axes.mem_ids_shift.mp ((hrule.ids id).mp hid)
        rw [hm.parents _ hd₀, ← Axes.shift_nil m.offset, ← Axes.shift_cons, ← Axes.shift_append]
        exact Axes.mem_ids_shift.mpr (hobserved hid)
      refine ⟨res, rs, q, rfl, rfl, hq, hrule, hnormal, fun id hid =>
        Axes.mem_ids_shift.mpr (hsub (Axes.mem_ids_shift.mp hid)), ds₀,
        laws₀ ++ [⟨res.decision, res.rule.table⟩], w₁, hds', ?_, hrest⟩
      exact hkeeps.resolves (p := (res.combined.table, res.rule.table)) hres (hnormal.of_alike hrule) hsub

theorem exists_returns_resolveBy (hw : w.Open sizes (d :: ds))
    (hdecide : Tables.decide s d (Tables.eliminateAll (pick d w) w.tables) = .ok q) :
    ∃ res w₁, Returns (StepM.resolveBy pick s d) w res w₁ ∧ res.IsFor sizes d ∧
      res.rule.table = q.2 ∧ w.Resolves d q.2 w₁ := by
  obtain ⟨res, w₁, hreturns, hfor, hsame, hres⟩ := (Ends.resolveBy hw).exists_returns fun e he => by
    rw [hdecide] at he
    cases he
  obtain rfl := Except.ok.inj (hdecide.symm.trans hsame)
  exact ⟨res, w₁, hreturns, hfor, rfl, hres⟩

/-- **Problems that share no variable can be solved in one run.**  It returns if each of the runs by
themselves does, with the same rules. -/
theorem exists_returns_resolveAll {ι : Type} [DecidableEq ι] {m : ι → Subproblem}
    (hm : ∀ i, (m i).IsPartOf sizes s us)
    (hdisjoint : ∀ i j, i ≠ j → (m i).own.ids.Disjoint (m j).own.ids) (hpos : ∀ id, 0 < sizes id)
    (hpick : ∀ d w, (pick d w).Perm (w.hidden s [] [] true))
    (hrank : ∀ d ∈ s.decisionOrder, ∀ v ∈ s.dependencies.parents d, rank v.id < rank d.id)
    {rs : ι → List (Resolved ℚ)} (hw : w.Gathers sizes rank s us ds laws)
    (hds : ∀ d ∈ ds, ∃ i, (m i).own.mentions d) (hwaits : ∀ i, (m i).Waits sizes rank ds laws (rs i)) :
    ∃ qs w', Returns (ds.mapM (StepM.resolveBy pick s)) w qs w' ∧
      ∀ i, List.Forall₂ ((m i).SameRule sizes) (rs i)
        (qs.filter fun res => (m i).own.mentions res.decision) := by
  induction ds generalizing w laws rs with
  | nil =>
      refine ⟨[], w, returns_mapM_nil.mpr ⟨rfl, rfl⟩, fun i => ?_⟩
      obtain ⟨ds₀, _, _, hds₀, -, hsolves⟩ := hwaits i
      generalize rs i = own at hsolves
      cases hsolves with
      | nil => exact .nil
      | cons => cases hds₀
  | cons d ds ih =>
      obtain ⟨⟨i, hi⟩, hrestDs⟩ := List.forall_mem_cons.mp hds
      obtain ⟨res, rs₁, q, hrs, rfl, hq, hrule, hnormal, hsub, hnext⟩ := (hwaits i).exists_decide
        (hm i) hi hpos hw (hpick _ w) (hrank _ hw.hasLaws.mem_decisionOrder)
      obtain ⟨res', w₁, hreturns, hfor, hsame, hres⟩ := exists_returns_resolveBy hw.isOpen hq
      have hwaits' : ∀ j, (m j).Waits sizes rank ds
          (laws ++ [⟨res.decision.shift (m i).offset, res.rule.table.shift (m i).offset⟩])
          (Function.update rs i rs₁ j) := fun j => by
        by_cases hj : j = i
        · subst hj
          rwa [Function.update_self]
        · rw [Function.update_of_ne hj]
          exact (hwaits j).append (fun hmem => hdisjoint i j (Ne.symm hj) (Axes.mentions_iff.mp hi)
            (Axes.mentions_iff.mp hmem)) fun id hid => hdisjoint i j (Ne.symm hj) (hsub hid)
      have hsize := hw.isOpen.sized (res.decision.shift (m i).offset) (by simp)
      obtain ⟨qs, w', hrest, hall⟩ := ih (hw.resolves hres hnormal hrule
        (Tables.ids_subset_of_decide_eliminateAll hpos hw.isOpen.fits hsize hq)) hrestDs hwaits'
      refine ⟨res' :: qs, w', returns_mapM_cons.mpr ⟨res', w₁, qs, hreturns, hrest, rfl⟩, fun j => ?_⟩
      have hdecision := hfor.decision
      by_cases hj : j = i
      · subst hj
        have hrules := hall j
        rw [Function.update_self] at hrules
        rw [hrs, List.filter_cons_of_pos (by rwa [hdecision])]
        exact .cons ⟨hdecision, hdecision ▸ hfor, hsame ▸ hrule⟩ hrules
      · have hrules := hall j
        rw [Function.update_of_ne hj] at hrules
        rwa [List.filter_cons_of_neg]
        rw [hdecision]
        exact fun hmem => hdisjoint i j (Ne.symm hj) (Axes.mentions_iff.mp hi) (Axes.mentions_iff.mp hmem)

end Subproblem

end Influence
