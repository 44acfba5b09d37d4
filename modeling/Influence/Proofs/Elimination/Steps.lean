import Influence.Proofs.Table.Value
import Influence.Proofs.Run
import Influence.Elimination.Basic

/-! # The steps of an elimination run on tables

A step of a run takes factors out of the pool and appends others with new creation numbers.  What it
does to the tables is a function on lists of tables (`Tables`), in which neither numbers nor failures
occur.

`Workspace.Reaches w w' ts` says that `w'` holds the tables `ts` in the order of its pool, that its
creation numbers are in order, and that its registry is that of `w` with more numbers handed out.
The `leads_` lemmas say that each step reaches the tables of its function, unless the build stops it.
A workspace whose numbers are in order is all that they ask for (`Workspace.Numbered`). -/

namespace Influence

variable {α : Type}

/-! ### Steps on tables -/

namespace Tables

/-- The axes of all tables. -/
def axes (ts : List (Table α)) : Axes := ts.flatMap (·.axes)

/-- Whether a table mentions a utility. -/
def isUtility (r : Registry) (t : Table α) : Bool := t.axes.any fun v => r.kindOf v == .utility

/-- Whether `dropUtilities` drops a table. -/
def isDropped (r : Registry) (keep : Option Variable) (t : Table α) : Bool :=
  let utilities : Axes := t.axes.filter fun v => r.kindOf v == .utility
  !utilities.isEmpty && !keep.any (Axes.mentions utilities)

section

variable [Build] [Cell α]

/-- Restricts the tables that mention an observed variable, which become the last ones. -/
def observe (o : Observation) (ts : List (Table α)) : List (Table α) :=
  ts.filter (!·.mentions o.subject) ++
    (ts.filter (·.mentions o.subject)).map (·.restrict o.subject o.outcome)

/-- Restricts the tables to all observations, one after the other. -/
def observeAll (evidence : List Observation) (ts : List (Table α)) : List (Table α) :=
  evidence.foldl (fun ts o => observe o ts) ts

/-- The product of the tables that mention a variable, with the variable summed out. -/
def summand (v : Variable) (ts : List (Table α)) : Table α :=
  (Table.product (ts.filter (·.mentions v))).sumOut v

/-- Replaces the tables that mention a variable by their product, with the variable summed out. -/
def eliminate (v : Variable) (ts : List (Table α)) : List (Table α) :=
  ts.filter (!·.mentions v) ++ if ts.any (·.mentions v) then [summand v ts] else []

/-- Eliminates variables from first to last. -/
def eliminateAll (vars : List Variable) (ts : List (Table α)) : List (Table α) :=
  vars.foldl (fun ts v => eliminate v ts) ts

/-- The table multiplied by the weights of its utilities. -/
def weigh (s : Setting α) (t : Table α) : Table α :=
  if s.weightOf t.axes == 1 then t else t.scale (s.weightOf t.axes)

/-- The weighted sum of the tables that mention a utility. -/
def utilitySum (s : Setting α) (r : Registry) (ts : List (Table α)) : Table α :=
  Table.sum ((ts.filter (isUtility r)).map (weigh s))

/-- The utilities among the axes of that sum. -/
def summedUtilities (s : Setting α) (r : Registry) (ts : List (Table α)) : Axes :=
  (utilitySum s r ts).axes.filter fun v => r.kindOf v == .utility

/-- Replaces the tables that mention a utility by their weighted sum without the utility axes. -/
def sumUtilities (s : Setting α) (r : Registry) (ts : List (Table α)) : List (Table α) :=
  ts.filter (!isUtility r ·) ++
    if ts.any (isUtility r) then
      [(summedUtilities s r ts).foldl Table.sumOut (utilitySum s r ts)]
    else []

/-- Handles the utilities as a target asks. -/
def prepare (s : Setting α) (r : Registry) (ts : List (Table α)) : Target → List (Table α)
  | .probability => ts.filter (!isDropped r none ·)
  | .totalUtility => sumUtilities s r ts
  | .utilityTerm v => ts.filter (!isDropped r (some v) ·)

@[simp] theorem eliminateAll_nil (ts : List (Table α)) : eliminateAll [] ts = ts := rfl

@[simp] theorem eliminateAll_cons (v : Variable) (vars : List Variable) (ts : List (Table α)) :
    eliminateAll (v :: vars) ts = eliminateAll vars (eliminate v ts) := rfl

@[simp] theorem observeAll_nil (ts : List (Table α)) : observeAll [] ts = ts := rfl

@[simp] theorem observeAll_cons (o : Observation) (os : List Observation) (ts : List (Table α)) :
    observeAll (o :: os) ts = observeAll os (observe o ts) := rfl

end

end Tables

/-! ### Workspaces -/

namespace Workspace

/-- The tables of the pool, in its order. -/
def tables (w : Workspace α) : List (Table α) := w.pool.map (·.table)

/-- The creation numbers of the pool have all been handed out. -/
def Numbered (w : Workspace α) : Prop := ∀ f ∈ w.pool, f.id < w.registry.nextFactor

/-- A later workspace holds given tables. -/
structure Reaches (w w' : Workspace α) (ts : List (Table α)) : Prop where
  numbered : w'.Numbered
  registry : ∃ n, w'.registry = w.registry.after n
  tables_eq : w'.tables = ts

theorem Reaches.refl {w : Workspace α} (hw : w.Numbered) : w.Reaches w w.tables :=
  ⟨hw, ⟨0, rfl⟩, rfl⟩

theorem Reaches.trans {w w' w'' : Workspace α} {ts us : List (Table α)} (h : w.Reaches w' ts)
    (h' : w'.Reaches w'' us) : w.Reaches w'' us := by
  obtain ⟨m, hm⟩ := h.registry
  obtain ⟨n, hn⟩ := h'.registry
  exact ⟨h'.numbered, ⟨m + n, by rw [hn, hm, Registry.after_after]⟩, h'.tables_eq⟩

theorem Reaches.handles {w w' : Workspace α} {ts : List (Table α)} (h : w.Reaches w' ts) :
    w'.registry.handles = w.registry.handles := by
  obtain ⟨n, hn⟩ := h.registry
  rw [hn, Registry.after_handles]

theorem Reaches.kindOf {w w' : Workspace α} {ts : List (Table α)} (h : w.Reaches w' ts)
    (v : Variable) : w'.registry.kindOf v = w.registry.kindOf v := by
  obtain ⟨n, hn⟩ := h.registry
  rw [hn, Registry.kindOf_after]

/-- What is computed from current kinds is the same in a later workspace. -/
theorem Reaches.kindOf_eq {w w' : Workspace α} {ts : List (Table α)} (h : w.Reaches w' ts) :
    w'.registry.kindOf = w.registry.kindOf := funext h.kindOf

theorem filter_tables (p : Table α → Bool) (w : Workspace α) :
    w.tables.filter p = (w.pool.filter fun f => p f.table).map (·.table) := List.filter_map

theorem any_tables (p : Table α → Bool) (w : Workspace α) :
    w.tables.any p = !(w.pool.filter fun f => p f.table).isEmpty := by
  rw [Bool.eq_iff_iff, List.any_eq_true, Bool.not_eq_true', ← Bool.not_eq_true, List.isEmpty_iff,
    ← List.map_eq_nil_iff (f := (·.table)), ← filter_tables, List.filter_eq_nil_iff]
  simp

theorem mem_eliminated_markEliminated {w : Workspace α} {v : Variable} {id : VariableId} :
    id ∈ (w.markEliminated v).eliminated ↔ id ∈ w.eliminated ∨ id = v.id := by
  unfold markEliminated isEliminated
  split
  next h =>
    constructor
    · exact .inl
    · rintro (hid | rfl)
      · exact hid
      · simpa using h
  next => simp

theorem numbered_start {r : Registry} {fs : List (Factor α)}
    (h : ∀ f ∈ fs, f.id < r.nextFactor) : (start r fs).Numbered :=
  fun f hf => h f (Pool.mem_ofList hf)

/-- The tables of a started workspace are tables of its factors. -/
theorem mem_tables_start {r : Registry} {fs : List (Factor α)} {t : Table α}
    (h : t ∈ (start r fs).tables) : ∃ f ∈ fs, f.table = t := by
  obtain ⟨f, hf, rfl⟩ := List.mem_map.mp h
  exact ⟨f, Pool.mem_ofList hf, rfl⟩

theorem forall_tables_start {P : Table α → Prop} {fs : List (Factor α)} (h : ∀ f ∈ fs, P f.table)
    (r : Registry) : ∀ t ∈ (start r fs).tables, P t := by
  intro t ht
  obtain ⟨f, hf, rfl⟩ := mem_tables_start ht
  exact h f hf

end Workspace

namespace StepM

open Workspace

/-! ### Primitive steps -/

variable {w w' : Workspace α}

theorem returns_onRegistry {β : Type} {x : RegistryM β} {b : β} :
    Returns (onRegistry x : StepM α β) w b w' ↔
      ∃ r, Returns x w.registry b r ∧ w' = { w with registry := r } := by
  change (((runFrom x w.registry).1, { w with registry := (runFrom x w.registry).2 }) :
    Except Error β × Workspace α) = (.ok b, w') ↔ _
  unfold Returns
  rcases runFrom x w.registry with ⟨result, r⟩
  simp only [Prod.mk.injEq]
  constructor
  · rintro ⟨rfl, rfl⟩
    exact ⟨r, ⟨rfl, rfl⟩, rfl⟩
  · rintro ⟨r, ⟨rfl, rfl⟩, rfl⟩
    exact ⟨rfl, rfl⟩

/-- A step on the registry whose result is known, and then the rest. -/
theorem leads_onRegistry {β γ : Type} [Build] {x : RegistryM β} {f : β → StepM α γ} {b : β}
    {r : Registry} {Q : γ → Workspace α → Prop}
    (hx : Leads x w.registry fun c r' => c = b ∧ r' = r)
    (hf : Leads (f b) { w with registry := r } Q) : Leads (onRegistry x >>= f) w Q := by
  unfold Leads at hx
  split at hx
  next c r' hrun =>
    obtain ⟨rfl, rfl⟩ := hx
    exact .after (returns_onRegistry.mpr ⟨r', hrun, rfl⟩) hf
  next e r' hrun =>
    have hstop : runFrom (onRegistry x) w = (.error e, { w with registry := r' }) := by
      change ((runFrom x w.registry).1, { w with registry := (runFrom x w.registry).2 }) = _
      rw [hrun]
    rw [Leads, runFrom_bind_of_error hstop]
    exact hx

theorem returns_insert {f : Factor α} {u : Unit} :
    Returns (StepM.insert f) w u w' ↔ w' = w.insert f := by
  unfold StepM.insert
  exact returns_modify

theorem returns_take {test : Factor α → Bool} {fs : List (Factor α)} :
    Returns (take test) w fs w' ↔
      fs = w.pool.filter test ∧ w' = { w with pool := w.pool.filter (!test ·) } := by
  unfold take
  simp only [returns_bind, returns_get, returns_set, returns_pure, List.partition_eq_filter_filter]
  constructor
  · rintro ⟨_, _, ⟨rfl, rfl⟩, _, _, rfl, rfl, rfl⟩
    exact ⟨rfl, rfl⟩
  · rintro ⟨rfl, rfl⟩
    exact ⟨w, w, ⟨rfl, rfl⟩, ⟨⟩, _, rfl, rfl, rfl⟩

/-- Taking factors out by a test of their tables leaves the other tables. -/
theorem reaches_filter (hw : w.Numbered) {p : Table α → Bool}
    (hpool : w'.pool = w.pool.filter fun f => p f.table) (hregistry : w'.registry = w.registry) :
    w.Reaches w' (w.tables.filter p) := by
  refine ⟨fun f hf => ?_, ⟨0, hregistry⟩, ?_⟩
  · rw [hpool] at hf
    rw [hregistry]
    exact hw f (List.mem_of_mem_filter hf)
  · rw [filter_tables, Workspace.tables, hpool]

/-- A factor with a new creation number becomes the last one. -/
theorem reaches_insert (hw : w.Numbered) {f : Factor α} {n : ℕ} (hid : w.registry.nextFactor ≤ f.id)
    (hn : f.id < w.registry.nextFactor + n) :
    w.Reaches (Workspace.insert { w with registry := w.registry.after n } f)
      (w.tables ++ [f.table]) := by
  have hpool : w.pool.insert f = w.pool ++ [f] :=
    Pool.insert_of_forall_lt fun g hg => Nat.lt_of_lt_of_le (hw g hg) hid
  refine ⟨fun g hg => ?_, ⟨n, rfl⟩, ?_⟩
  · rcases Pool.mem_insert hg with rfl | hg
    · exact hn
    · exact Nat.lt_of_lt_of_le (hw g hg) (Nat.le_add_right _ _)
  · change (w.pool.insert f).map (·.table) = _
    rw [hpool, List.map_append]
    rfl

/-- A loop of steps reaches the tables of the fold of their functions. -/
theorem leads_forM {β : Type} [Build] {f : β → StepM α PUnit}
    {g : List (Table α) → β → List (Table α)} {e : List VariableId → β → List VariableId}
    {l : List β}
    (hstep : ∀ b ∈ l, ∀ w : Workspace α, w.Numbered → Leads (f b) w fun _ w' =>
      w.Reaches w' (g w.tables b) ∧ w'.eliminated = e w.eliminated b)
    (hw : w.Numbered) :
    Leads (l.forM f) w fun _ w' =>
      w.Reaches w' (l.foldl g w.tables) ∧ w'.eliminated = l.foldl e w.eliminated := by
  induction l generalizing w with
  | nil => exact .pure ⟨.refl hw, rfl⟩
  | cons b l ih =>
      refine Leads.bind (hstep b (by simp) w hw) fun _ w₁ ⟨hreach₁, helim₁⟩ => ?_
      refine (ih (fun c hc => hstep c (by simp [hc])) hreach₁.numbered).imp
        fun _ w₂ ⟨hreach₂, helim₂⟩ => ⟨?_, ?_⟩
      · rw [hreach₁.tables_eq] at hreach₂
        exact hreach₁.trans hreach₂
      · rw [helim₂, helim₁]
        rfl

/-! ### Steps of a run -/

theorem leads_insert_new [Build] (hw : w.Numbered) {x : RegistryM (Factor α)} {t : Table α}
    (hx : Leads x w.registry fun f r => f = ⟨w.registry.nextFactor, t⟩ ∧ r = w.registry.after 1) :
    Leads (onRegistry x >>= StepM.insert : StepM α Unit) w fun _ w' =>
      w.Reaches w' (w.tables ++ [t]) ∧ w'.eliminated = w.eliminated :=
  leads_onRegistry hx (.intro (returns_insert (u := ()).mpr rfl)
    ⟨reaches_insert hw (Nat.le_refl _) (Nat.lt_succ_self _), rfl⟩)

theorem returns_dropUtilities (hw : w.Numbered) (keep : Option Variable) :
    ∃ w', Returns (dropUtilities keep) w () w' ∧
      w.Reaches w' (w.tables.filter (!Tables.isDropped w.registry keep ·)) ∧
      w'.eliminated = w.eliminated := by
  refine ⟨{ w with pool := w.pool.filter fun f => !Tables.isDropped w.registry keep f.table }, ?_,
    reaches_filter hw rfl rfl, rfl⟩
  unfold dropUtilities
  simp only [returns_bind, returns_get, returns_take, returns_pure]
  exact ⟨w, w, ⟨rfl, rfl⟩, _, _, ⟨rfl, rfl⟩, ⟨⟩, rfl⟩

section

variable [Build] [Cell α]

theorem mentions_product {fs : List (Factor α)} {v : Variable} (h : ∃ f ∈ fs, f.mentions v) :
    (Table.product (fs.map (·.table))).mentions v := by
  obtain ⟨f, hf, hv⟩ := h
  exact Table.mentions_iff.mpr (Table.mem_ids_foldAll.mpr
    ⟨f.table, List.mem_map_of_mem hf, Table.mentions_iff.mp hv⟩)

theorem leads_eliminate (hw : w.Numbered) (v : Variable) :
    Leads (eliminate v) w fun _ w' => w.Reaches w' (Tables.eliminate v w.tables) ∧
      w'.eliminated = (w.markEliminated v).eliminated := by
  let touched := w.pool.filter (·.mentions v)
  let rest : Workspace α :=
    { w.markEliminated v with pool := w.pool.filter fun f => !f.table.mentions v }
  have hrest : w.Reaches rest (w.tables.filter (!·.mentions v)) := reaches_filter hw rfl rfl
  have htables : touched.map (·.table) = w.tables.filter (·.mentions v) :=
    (filter_tables (·.mentions v) w).symm
  have hany : w.tables.any (·.mentions v) = !touched.isEmpty := any_tables (·.mentions v) w
  rw [Tables.eliminate, hany]
  refine Leads.after (returns_take.mpr ⟨rfl, rfl⟩)
    (Leads.after (t := rest) (returns_modify (u := ⟨⟩).mpr rfl) ?_)
  split
  case isFalse hempty =>
    rw [List.append_nil]
    exact .pure ⟨hrest, rfl⟩
  case isTrue hne =>
    rw [Tables.summand, ← htables]
    refine leads_onRegistry (Factor.leads_foldAll .product touched) ?_
    obtain ⟨g, hg⟩ := List.exists_mem_of_ne_nil touched
      (List.isEmpty_eq_false_iff.mp (Bool.not_eq_true' _ ▸ hne))
    refine leads_onRegistry
      (Factor.leads_sumOut (mentions_product ⟨g, hg, (List.mem_filter.mp hg).2⟩)) ?_
    refine .intro (returns_insert (u := ()).mpr rfl) ⟨?_, rfl⟩
    have hinsert := reaches_insert hrest.numbered (n := 2)
      (f := ⟨w.registry.nextFactor + 1, (Table.product (touched.map (·.table))).sumOut v⟩)
      (Nat.le_add_right _ _) (Nat.lt_succ_self _)
    rw [hrest.tables_eq] at hinsert
    exact hrest.trans hinsert

/-- Eliminating variables one after the other. -/
theorem leads_eliminateAll (hw : w.Numbered) (vars : List Variable) :
    Leads (vars.forM eliminate) w fun _ w' => w.Reaches w' (Tables.eliminateAll vars w.tables) :=
  (leads_forM (g := fun ts v => Tables.eliminate v ts)
    (e := fun l v => if l.contains v.id then l else l ++ [v.id])
    (fun v _ _ hw => leads_eliminate hw v) hw).imp fun _ _ h => h.1

theorem leads_observe (hw : w.Numbered) {evidence : List Observation}
    (houtcome : ∀ o ∈ evidence, o.outcome < o.subject.arity) :
    Leads (observe evidence) w fun _ w' =>
      w.Reaches w' (Tables.observeAll evidence w.tables) ∧ w'.eliminated = w.eliminated := by
  refine (leads_forM (g := fun ts o => Tables.observe o ts) (e := fun l _ => l)
    (fun o ho w hw => ?_) hw).imp fun _ _ h => ⟨h.1, by rw [h.2, List.foldl_fixed]⟩
  -- one observation: the factors that mention its subject are taken out and put back restricted
  have hrest : w.Reaches { w with pool := w.pool.filter fun f => !f.table.mentions o.subject }
      (w.tables.filter (!·.mentions o.subject)) := reaches_filter hw rfl rfl
  refine Leads.after (returns_take.mpr ⟨rfl, rfl⟩) ?_
  refine (leads_forM (g := fun ts f => ts ++ [f.table.restrict o.subject o.outcome])
    (e := fun l _ => l) (fun f hf w hw => ?_) hrest.numbered).imp fun _ w' ⟨hreach, helim⟩ => ⟨?_, ?_⟩
  · exact leads_insert_new hw (Factor.leads_restrict (List.mem_filter.mp hf).2 (houtcome o ho))
  · rw [hrest.tables_eq, List.foldl_append_eq_append, ← List.flatMap_def,
      ← List.map_eq_flatMap] at hreach
    rw [Tables.observe, filter_tables (·.mentions o.subject), List.map_map]
    exact hrest.trans hreach
  · rw [helim, List.foldl_fixed]

/-! ### Summing the utilities -/

theorem leads_weigh (s : Setting α) (f : Factor α) :
    Leads (weigh s f) w fun g w' => g.table = Tables.weigh s f.table ∧
      ∃ n, w' = { w with registry := w.registry.after n } := by
  unfold Tables.weigh
  by_cases h : s.weightOf f.table.axes == 1
  · rw [show weigh s f = pure f from if_pos h, if_pos h]
    exact .pure ⟨rfl, 0, rfl⟩
  · rw [show weigh s f = onRegistry (f.scale (s.weightOf f.table.axes)) from if_neg h, if_neg h,
      ← bind_pure (onRegistry _)]
    exact leads_onRegistry (Factor.leads_scale f _) (.pure ⟨rfl, 2, rfl⟩)

theorem leads_weighAll (s : Setting α) (fs : List (Factor α)) :
    Leads (fs.mapM (weigh s)) w fun gs w' =>
      gs.map (·.table) = (fs.map (·.table)).map (Tables.weigh s) ∧
      ∃ n, w' = { w with registry := w.registry.after n } := by
  induction fs generalizing w with
  | nil =>
      rw [List.mapM_nil]
      exact .pure ⟨rfl, 0, rfl⟩
  | cons f fs ih =>
      rw [List.mapM_cons]
      refine Leads.bind (leads_weigh s f) ?_
      rintro g _ ⟨htable, m, rfl⟩
      refine Leads.bind ih ?_
      rintro gs _ ⟨htables, n, rfl⟩
      refine .pure ⟨by rw [List.map_cons, htable, htables]; rfl, m + n, ?_⟩
      rw [← Registry.after_after]

theorem nodup_weigh (s : Setting α) {t : Table α} (ht : t.axes.ids.Nodup) :
    (Tables.weigh s t).axes.ids.Nodup := by
  unfold Tables.weigh
  split
  · exact ht
  · exact Table.nodup_foldAll (by simpa using ⟨ht, by simp [Table.scalar]⟩)

/-- Summing out utilities that a factor mentions, one after the other. -/
theorem leads_sumOutUtilities {us : Axes} (hus : us.ids.Nodup) {f : Factor α}
    (hf : f.axes.ids.Nodup) (hmem : us.ids ⊆ f.axes.ids) (hid : f.id < w.registry.nextFactor) :
    Leads (us.foldlM sumOutUtility f) w fun g w' => g.table = us.foldl Table.sumOut f.table ∧
      ∃ n e, w' = { w with registry := w.registry.after n, eliminated := e } ∧
        f.id ≤ g.id ∧ g.id < w.registry.nextFactor + n ∧
        ∀ id, id ∈ e ↔ id ∈ w.eliminated ∨ id ∈ us.ids := by
  induction us generalizing w f with
  | nil => exact .pure ⟨rfl, 0, w.eliminated, rfl, Nat.le_refl _, hid, by simp⟩
  | cons u us ih =>
      obtain ⟨hu, hus⟩ := Axes.nodup_ids_cons.mp hus
      rw [Axes.ids_cons, List.cons_subset] at hmem
      let w₁ : Workspace α := { w.markEliminated u with registry := w.registry.after 1 }
      have hfirst : Leads (sumOutUtility f u) w fun g w' =>
          g = ⟨w.registry.nextFactor, f.table.sumOut u⟩ ∧ w' = w₁ :=
        leads_onRegistry (Factor.leads_sumOut (Table.mentions_iff.mpr hmem.1))
          (.after (returns_modify (u := ⟨⟩).mpr rfl) (.pure ⟨rfl, rfl⟩))
      have hrest : Axes.ids us ⊆ (f.axes.without u).ids := fun id hid =>
        (Axes.mem_ids_without hf).mpr ⟨hmem.2 hid, fun h => hu (by rw [← h]; exact hid)⟩
      rw [List.foldlM_cons]
      refine Leads.bind hfirst ?_
      rintro _ _ ⟨rfl, rfl⟩
      refine (ih (w := w₁) (f := ⟨w.registry.nextFactor, f.table.sumOut u⟩) hus
        (Axes.nodup_without hf u) hrest (Nat.lt_succ_self _)).imp ?_
      rintro g _ ⟨htable, n, e, rfl, hlow, hhigh, helim⟩
      refine ⟨htable, 1 + n, e, ?_, Nat.le_trans (Nat.le_of_lt hid) hlow, ?_, fun id => ?_⟩
      · rw [← Registry.after_after]
        rfl
      · rw [← Nat.add_assoc]
        exact hhigh
      · rw [helim, Axes.ids_cons, List.mem_cons, mem_eliminated_markEliminated (w := w), or_assoc]

theorem leads_sumUtilities (hw : w.Numbered) (s : Setting α)
    (hnodup : ∀ t ∈ w.tables, t.axes.ids.Nodup) :
    Leads (sumUtilities s) w fun _ w' =>
      w.Reaches w' (Tables.sumUtilities s w.registry w.tables) ∧
      ∀ id, id ∈ w'.eliminated ↔ id ∈ w.eliminated ∨
        id ∈ (Tables.summedUtilities s w.registry w.tables).ids := by
  let terms := w.pool.filter w.mentionsUtility
  let rest : Workspace α :=
    { w with pool := w.pool.filter fun f => !Tables.isUtility w.registry f.table }
  have hrest : w.Reaches rest (w.tables.filter (!Tables.isUtility w.registry ·)) :=
    reaches_filter hw rfl rfl
  have hterms : terms.map (·.table) = w.tables.filter (Tables.isUtility w.registry) :=
    (filter_tables (Tables.isUtility w.registry) w).symm
  have hany : w.tables.any (Tables.isUtility w.registry) = !terms.isEmpty :=
    any_tables (Tables.isUtility w.registry) w
  rw [Tables.sumUtilities, hany]
  refine Leads.after (returns_get.mpr ⟨rfl, rfl⟩)
    (Leads.after (t := rest) (returns_take.mpr ⟨rfl, rfl⟩) ?_)
  split
  case isFalse hempty =>
    rw [List.append_nil]
    have hnone : w.tables.filter (Tables.isUtility w.registry) = [] := by
      rw [← hterms, show terms = [] by simpa [terms] using hempty, List.map_nil]
    refine .pure ⟨hrest, fun id => ?_⟩
    have hsum : Tables.summedUtilities s w.registry w.tables = [] := by
      rw [Tables.summedUtilities, Tables.utilitySum, hnone]
      rfl
    simp [hsum, rest]
  case isTrue hne =>
    refine Leads.bind (leads_weighAll s terms) ?_
    rintro gs _ ⟨htables, n, rfl⟩
    let combined : Factor α := ⟨w.registry.nextFactor + n, Tables.utilitySum s w.registry w.tables⟩
    have hsum : Table.sum (gs.map (·.table)) = Tables.utilitySum s w.registry w.tables := by
      rw [htables, hterms]
      rfl
    have hdistinct : combined.axes.ids.Nodup := by
      refine Table.nodup_foldAll fun t ht => ?_
      obtain ⟨u, hu, rfl⟩ := List.mem_map.mp ht
      exact nodup_weigh s (hnodup u (List.mem_of_mem_filter hu))
    have hcombined := Factor.leads_foldAll .sum gs (r := w.registry.after n)
    rw [show Table.foldAll .sum (gs.map (·.table)) = _ from hsum] at hcombined
    refine leads_onRegistry hcombined (Leads.after (returns_get.mpr ⟨rfl, rfl⟩) ?_)
    let us := Tables.summedUtilities s w.registry w.tables
    refine Leads.bind (leads_sumOutUtilities (f := combined)
      (show us.ids.Nodup from Axes.nodup_ids_filter hdistinct _) hdistinct
      (Axes.ids_filter_sublist _ _).subset (Nat.lt_succ_self _)) ?_
    rintro g _ ⟨htable, m, e, rfl, hlow, hhigh, helim⟩
    refine .intro (returns_insert (u := ()).mpr rfl) ⟨?_, helim⟩
    have hinsert := reaches_insert hrest.numbered (f := g) (n := n + 1 + m)
      (Nat.le_trans (Nat.le_add_right _ _) hlow) (by rw [← Nat.add_assoc]; exact hhigh)
    rw [hrest.tables_eq, htable] at hinsert
    have hregistry : ((w.registry.after n).after 1).after m = w.registry.after (n + 1 + m) := by
      rw [Registry.after_after, Registry.after_after, Nat.add_assoc]
    exact hrest.trans ⟨fun f hf => (hinsert.numbered f hf).trans_eq
      (congrArg Registry.nextFactor hregistry.symm), ⟨_, hregistry⟩, hinsert.tables_eq⟩

/-! ### The whole run -/

theorem leads_prepare (hw : w.Numbered) (s : Setting α) (target : Target)
    (hnodup : ∀ t ∈ w.tables, t.axes.ids.Nodup) :
    Leads (prepare s target) w fun _ w' =>
      w.Reaches w' (Tables.prepare s w.registry w.tables target) ∧
      ∀ id, id ∈ w'.eliminated ↔ id ∈ w.eliminated ∨
        target = .totalUtility ∧ id ∈ (Tables.summedUtilities s w.registry w.tables).ids := by
  cases target with
  | probability =>
      obtain ⟨w', hreturns, hreach, helim⟩ := returns_dropUtilities hw none
      exact .intro hreturns ⟨hreach, by simp [helim]⟩
  | totalUtility => exact (leads_sumUtilities hw s hnodup).imp fun _ _ h => ⟨h.1, by simpa using h.2⟩
  | utilityTerm v =>
      obtain ⟨w', hreturns, hreach, helim⟩ := returns_dropUtilities hw (some v)
      exact .intro hreturns ⟨hreach, by simp [helim]⟩

theorem leads_eliminateHidden (hw : w.Numbered) (s : Setting α) (evidence : List Observation)
    (query : List Variable) (single : Bool) :
    Leads (eliminateHidden s evidence query single) w fun _ w' =>
      w.Reaches w' (Tables.eliminateAll
        (s.heuristic.order (w.hidden s evidence query single) w.pool) w.tables) :=
  .after (returns_get.mpr ⟨rfl, rfl⟩) (leads_eliminateAll hw _)

theorem leads_collapse (w : Workspace α) :
    Leads collapse w fun f _ => f.table = Table.product w.tables := by
  refine Leads.after (returns_take.mpr ⟨rfl, rfl⟩) (leads_onRegistry (Factor.leads_foldAll .product _) ?_)
  refine .after (returns_insert (u := ⟨⟩).mpr rfl) (.pure ?_)
  simp only [List.filter_true]
  rfl

end

end StepM

end Influence
