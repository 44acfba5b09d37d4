import Influence.Proofs.Elimination.Renumbering
import Influence.Proofs.Outcome

/-! # Deciding on tables

What a run does to resolve a decision is a function of the tables that are left once the hidden
variables have been eliminated (`Tables.decide`).  It fails only if no table bears on the decision or a
row has no best cell.

`Ends.decideAfter`: a run that eliminates given variables and then takes the rule of what remains gives
the tables of this function, or fails for its cause.  `Ends.resolveBy` and `Ends.resolveAllBy` say so for
a run that chooses by itself which variables to eliminate for each decision; the heuristics are such
choices (`StepM.heuristicPick`). -/

namespace Influence

open scoped Exact

variable {α : Type} [Cell α] {sizes : VariableId → ℕ}

/-! ### Rules of tables -/

namespace Table

variable {t t' : Table α} {v : Variable}

theorem Fits.rule (ht : t.Fits sizes) (hv : t.mentions v) (hsize : v.arity = sizes v.id)
    (h : t.rule v = .ok t') : t'.Fits sizes ∧ t'.axes.ids.Perm t.axes.ids := by
  obtain ⟨hmoved, -⟩ := ht.moveLast hv hsize
  obtain ⟨front, -, -, -, -, -, hpos, -⟩ := exists_axes_moveLast ht hv hsize
  have haxes := axes_of_rule h
  refine ⟨⟨(ht.wellFormed.shaped.of_rule hv hpos h).wellFormed, ?_⟩, ?_⟩
  · rw [haxes]
    exact hmoved.sized
  · rw [haxes, Table.moveLast, ids_rearrange]
    exact perm_ids_moveLast hv

/-- Whether a table has the same cells at all outcomes of a variable. -/
def isConstantAlong (t : Table α) (v : Variable) : Bool :=
  (List.range' 1 (v.arity - 1)).all fun k => (t.restrict v k).sameCells (t.restrict v 0)

end Table

/-! ### Decisions -/

namespace Tables

variable {s : Setting α} {d v : Variable} {ts : List (Table α)} {p : Table α × Table α}

/-- Drops an axis along which the rule, the second table, is constant. -/
def dropAxis (p : Table α × Table α) (v : Variable) : Table α × Table α :=
  if p.2.isConstantAlong v then (p.1.restrict v 0, p.2.restrict v 0) else p

/-- The axes of a rule that its decision does not observe. -/
def unobserved (s : Setting α) (d : Variable) (rule : Table α) : Axes :=
  rule.axes.filter fun v => !Axes.mentions (d :: s.dependencies.parents d) v

/-- Drops the axes that the decision does not observe and along which the rule is constant. -/
def dropUnobserved (s : Setting α) (d : Variable) (p : Table α × Table α) : Table α × Table α :=
  (unobserved s d p.2).foldl dropAxis p

/-- The tables that bear on a decision. -/
def bearing (s : Setting α) (d : Variable) (ts : List (Table α)) : List (Table α) :=
  ts.filter (bearsOn d (s.dependencies.parents d))

/-- The table from which the rule of a decision is taken, and the rule. -/
def decide (s : Setting α) (d : Variable) (ts : List (Table α)) :
    Except Error (Table α × Table α) :=
  if (bearing s d ts).isEmpty then .error (.noRelevantFactor d)
  else match (Table.product (bearing s d ts)).rule d with
    | .error state => .error (.noCandidate d state)
    | .ok rule => .ok (dropUnobserved s d (.product (bearing s d ts), rule))

theorem family_of_decide {e : Error} (h : decide s d ts = .error e) : e.family = .noSolution := by
  unfold decide at h
  split at h
  · cases h
    rfl
  · split at h
    · cases h
      rfl
    · cases h

omit [Cell α] in
theorem mentions_of_mem_bearing {t : Table α} (h : t ∈ bearing s d ts) : d.id ∈ t.axes.ids := by
  have hbears := (List.mem_filter.mp h).2
  rw [bearsOn, Bool.and_eq_true] at hbears
  exact Table.mentions_iff.mp hbears.1

theorem mentions_product_bearing (h : ¬(bearing s d ts).isEmpty) :
    (Table.product (bearing s d ts)).mentions d := by
  obtain ⟨t, ht⟩ := List.exists_mem_of_ne_nil _ (List.isEmpty_iff.not.mp h)
  exact Table.mentions_iff.mpr (Table.mem_ids_foldAll.mpr ⟨t, ht, mentions_of_mem_bearing ht⟩)

/-- Two tables over the same variables that fit. -/
structure Paired (sizes : VariableId → ℕ) (p : Table α × Table α) : Prop where
  left : p.1.Fits sizes
  right : p.2.Fits sizes
  perm : p.1.axes.ids.Perm p.2.axes.ids

theorem Paired.restrict (h : Paired sizes p) (v : Variable) :
    Paired sizes (p.1.restrict v 0, p.2.restrict v 0) where
  left := h.left.restrict v 0
  right := h.right.restrict v 0
  perm := by
    refine (List.perm_ext_iff_of_nodup (Axes.nodup_without h.left.wellFormed.nodup v)
      (Axes.nodup_without h.right.wellFormed.nodup v)).mpr fun id => ?_
    rw [Axes.mem_ids_without h.left.wellFormed.nodup, Axes.mem_ids_without h.right.wellFormed.nodup,
      h.perm.mem_iff]

theorem Paired.dropAxis (h : Paired sizes p) (v : Variable) : Paired sizes (dropAxis p v) := by
  unfold Tables.dropAxis
  split
  · exact h.restrict v
  · exact h

theorem Paired.mem_dropAxis (h : Paired sizes p) {id : VariableId} (hid : id ∈ p.2.axes.ids)
    (hne : id ≠ v.id) : id ∈ (Tables.dropAxis p v).2.axes.ids := by
  unfold Tables.dropAxis
  split
  · exact (Axes.mem_ids_without h.right.wellFormed.nodup).mpr ⟨hid, hne⟩
  · exact hid

theorem Paired.dropAxes (h : Paired sizes p) (vars : Axes) :
    Paired sizes (vars.foldl Tables.dropAxis p) := by
  induction vars generalizing p with
  | nil => exact h
  | cons v vars ih => exact ih (h.dropAxis v)

theorem Paired.mem_dropAxes (h : Paired sizes p) {vars : Axes} {id : VariableId}
    (hid : id ∈ p.2.axes.ids) (hfree : id ∉ vars.ids) :
    id ∈ (vars.foldl Tables.dropAxis p).2.axes.ids := by
  induction vars generalizing p with
  | nil => exact hid
  | cons v vars ih =>
      obtain ⟨hne, hfree⟩ := not_or.mp (List.mem_cons.not.mp hfree)
      exact ih (h.dropAxis v) (h.mem_dropAxis hid hne) hfree

/-- The tables found for a decision fit, and the decision is an axis of both. -/
theorem paired_of_decide (hts : ∀ t ∈ ts, t.Fits sizes) (hsize : d.arity = sizes d.id)
    (h : decide s d ts = .ok p) : Paired sizes p ∧ d.id ∈ p.2.axes.ids := by
  have hproduct : (Table.product (bearing s d ts)).Fits sizes :=
    Table.fits_foldAll fun t ht => hts t (List.mem_of_mem_filter ht)
  unfold decide at h
  split at h
  · cases h
  next hne =>
    have hmentions := mentions_product_bearing hne
    split at h
    · cases h
    next rule hrule =>
      obtain ⟨hfits, hperm⟩ := hproduct.rule hmentions hsize hrule
      have hpaired : Paired sizes (Table.product (bearing s d ts), rule) :=
        ⟨hproduct, hfits, hperm.symm⟩
      obtain rfl := Except.ok.inj h
      refine ⟨hpaired.dropAxes _, hpaired.mem_dropAxes (hperm.mem_iff.mpr
        (Table.mentions_iff.mp hmentions)) ?_⟩
      rw [unobserved, Axes.mem_ids_filter_mentions]
      simp

end Tables

/-! ### Runs -/

namespace StepM

/-- A way to choose the variables that are eliminated before a decision is resolved. -/
abbrev Pick (α : Type) := Variable → Workspace α → List Variable

/-- The choice that a heuristic makes. -/
def heuristicPick (s : Setting α) : Pick α := fun _ w =>
  s.heuristic.order (w.hidden s [] [] true) w.pool

section

variable [Build]

/-- Eliminates given variables and takes the rule of what remains. -/
def decideAfter (s : Setting α) (d : Variable) (vars : List Variable) :
    StepM α (Factor α × Factor α) := do
  vars.forM eliminate
  let combined ← match ← candidates s d with
    | [f] => pure f
    | fs => onRegistry (Factor.product fs)
  let rule ← onRegistry (combined.rule d)
  dropUnobserved s d combined rule

theorem decideAfter_eq (s : Setting α) (d : Variable) (vars : List Variable) : decideAfter s d vars =
    vars.forM eliminate >>= fun _ => candidates s d >>= decideOn s d := by
  refine congrArg (vars.forM eliminate >>= ·) (funext fun _ => ?_)
  refine congrArg (candidates s d >>= ·) (funext fun fs => ?_)
  match fs with
  | [f] | [] | f :: g :: fs => rfl

/-- Resolves one decision, eliminating what is picked. -/
def resolveBy (pick : Pick α) (s : Setting α) (d : Variable) : StepM α (Resolved α) := do
  let w ← get
  let (combined, rule) ← inScratch (decideAfter s d (pick d w))
  insert rule
  let _ ← onRegistry (Registry.relabelAsChance d)
  return ⟨d, combined, rule⟩

/-- Resolves every decision, the last one first, eliminating what is picked. -/
def solveDecisionsBy (pick : Pick α) (s : Setting α) : StepM α (List (Resolved α)) := do
  if s.decisionOrder.isEmpty then return []
  sumUtilities s
  let resolved ← s.decisionOrder.reverse.mapM (resolveBy pick s)
  return resolved.reverse

end

omit [Cell α] in
theorem perm_heuristicPick (s : Setting α) (d : Variable) (w : Workspace α) :
    (heuristicPick s d w).Perm (w.hidden s [] [] true) :=
  s.heuristic.perm_order _ _

end StepM

/-- Some variables are decisions that are open. -/
structure Registry.Open (ds : List Variable) (r : Registry) : Prop where
  nodup : (Axes.ids ds).Nodup
  kind : ∀ d ∈ ds, r.kindOf d = .decision
  issued : ∀ d ∈ ds, d.id ∈ Axes.ids r.handles

namespace Registry.Open

variable {r r' : Registry} {d : Variable} {ds : List Variable}

theorem of_handles (h : r.Open ds) (hhandles : r'.handles = r.handles) : r'.Open ds where
  nodup := h.nodup
  kind := by
    rw [kindOf_congr hhandles]
    exact h.kind
  issued := by
    rw [hhandles]
    exact h.issued

theorem reverse (h : r.Open ds) : r.Open ds.reverse where
  nodup := by
    rw [Axes.ids, List.map_reverse, List.nodup_reverse]
    exact h.nodup
  kind := fun d hd => h.kind d (List.mem_reverse.mp hd)
  issued := fun d hd => h.issued d (List.mem_reverse.mp hd)

theorem withChance (h : r.Open (d :: ds)) : (r.withChance d).Open ds where
  nodup := (Axes.nodup_ids_cons.mp h.nodup).2
  kind := fun e he => by
    have hne : e.id ≠ d.id := fun hid =>
      (Axes.nodup_ids_cons.mp h.nodup).1 (hid ▸ Axes.mem_ids_of_mem he)
    rw [kindOf_withChance (h.issued d (by simp)), if_neg hne]
    exact h.kind e (by simp [he])
  issued := fun e he => by
    rw [ids_withChance]
    exact h.issued e (by simp [he])

end Registry.Open

namespace Workspace

variable {w w' : Workspace α} {d : Variable} {ds : List Variable} {rule : Table α}
  {ts : List (Table α)}

/-- The later workspace is the earlier one in which a decision has been resolved by a rule. -/
structure Resolves (w : Workspace α) (d : Variable) (rule : Table α) (w' : Workspace α) : Prop where
  numbered : w'.Numbered
  tables : w'.tables = w.tables ++ [rule]
  eliminated : w'.eliminated = w.eliminated
  handles : w'.registry.handles = (w.registry.withChance d).handles

/-- Some decisions are open in the workspace, and its tables fit. -/
structure Open (sizes : VariableId → ℕ) (ds : List Variable) (w : Workspace α) : Prop where
  numbered : w.Numbered
  fits : ∀ t ∈ w.tables, t.Fits sizes
  sized : Axes.Sized sizes ds
  decisions : w.registry.Open ds

omit [Cell α] in
theorem Open.reaches (h : w.Open sizes ds) (hreach : w.Reaches w' ts)
    (hts : ∀ t ∈ ts, t.Fits sizes) : w'.Open sizes ds where
  numbered := hreach.numbered
  fits := by rwa [hreach.tables_eq]
  sized := h.sized
  decisions := h.decisions.of_handles hreach.handles

omit [Cell α] in
theorem Open.reverse (h : w.Open sizes ds) : w.Open sizes ds.reverse where
  numbered := h.numbered
  fits := h.fits
  sized := fun d hd => h.sized d (List.mem_reverse.mp hd)
  decisions := h.decisions.reverse

omit [Cell α] in
theorem Open.resolves (h : w.Open sizes (d :: ds)) (hres : w.Resolves d rule w')
    (hrule : rule.Fits sizes) : w'.Open sizes ds where
  numbered := hres.numbered
  fits := by
    rw [hres.tables]
    intro t ht
    rcases List.mem_append.mp ht with ht | ht
    · exact h.fits t ht
    · rwa [List.mem_singleton.mp ht]
  sized := (Axes.sized_cons.mp h.sized).2
  decisions := h.decisions.withChance.of_handles hres.handles

end Workspace

/-- The rule has been found for a decision, together with the table from which it was taken. -/
structure Resolved.IsFor (sizes : VariableId → ℕ) (d : Variable) (res : Resolved α) : Prop where
  decision : res.decision = d
  paired : Tables.Paired sizes (res.combined.table, res.rule.table)
  mem : d.id ∈ res.rule.axes.ids

/-- The tables found for a decision are those that some tables decide. -/
structure Resolved.IsDecided (sizes : VariableId → ℕ) (s : Setting α) (d : Variable)
    (res : Resolved α) : Prop extends res.IsFor sizes d where
  decide : ∃ ts, (∀ t ∈ ts, t.Fits sizes) ∧
    Tables.decide s d ts = .ok (res.combined.table, res.rule.table)

namespace Ends

open StepM

variable {β : Type} {E : Error → Prop} {r₀ r : Registry} {f g combined first : Factor α}
  {v d : Variable} {s : Setting α} {w : Workspace α} {ts : List (Table α)} {n k : ℕ}

omit [Cell α] in
theorem onRegistry {R : β → Registry → Prop} {x : RegistryM β}
    (h : Ends E R (runFrom x w.registry)) :
    Ends E (fun b w' => ∃ r, R b r ∧ w' = { w with registry := r })
      (runFrom (StepM.onRegistry x) w) := by
  change Ends _ _ ((runFrom x w.registry).1, { w with registry := (runFrom x w.registry).2 })
  revert h
  generalize runFrom x w.registry = p
  intro h
  cases h with
  | ok h => exact .ok ⟨_, h, rfl⟩
  | error h => exact .error h

omit [Cell α] in
theorem inScratch {R : β → Workspace α → Prop} {x : StepM α β} (h : Ends E R (runFrom x w)) :
    Ends E (fun b w' => ∃ after, R b after ∧ w' = { w with registry := after.registry })
      (runFrom (StepM.inScratch x) w) := by
  change Ends _ _ ((runFrom x w).1, { w with registry := (runFrom x w).2.registry })
  revert h
  generalize runFrom x w = p
  intro h
  cases h with
  | ok h => exact .ok ⟨_, h, rfl⟩
  | error h => exact .error h

theorem rule (hf : f.table.Fits sizes) (hd : f.mentions d) :
    Ends (fun e => ∃ state, f.table.rule d = .error state ∧ e = .noCandidate d state)
      (fun g r' => f.table.rule d = .ok g.table ∧ g.IsNew r r') (runFrom (f.rule d) r) := by
  unfold Factor.rule
  refine bind (of_returns ((Factor.returns_moveLast hf.wellFormed.nodup).mpr ⟨hd, rfl, rfl⟩)
    (R := fun _ r' => r' = r.after 1) rfl) ?_
  rintro _ _ rfl
  cases hrule : f.table.rule d with
  | error state => exact throw ⟨state, rfl, rfl⟩
  | ok t =>
      refine of_returns (Factor.returns_make.mpr ⟨rfl, rfl⟩) ⟨rfl, ⟨2, by simp⟩, ?_, ?_⟩
      · exact Nat.le_succ _
      · exact Nat.lt_succ_self _

/-- Whether a rule is constant along an axis is found out. -/
theorem isConstantFrom (hv : f.mentions v) (hle : k + n ≤ v.arity) :
    Ends (fun _ => False) (fun b w' =>
        b = (List.range' k n).all (fun j => (f.table.restrict v j).sameCells first.table) ∧
          ∃ m, w' = { w with registry := w.registry.after m })
      (runFrom (StepM.isConstantFrom f v first n k) w) := by
  induction n generalizing k w with
  | zero => exact pure ⟨rfl, 0, rfl⟩
  | succ n ih =>
      unfold StepM.isConstantFrom
      refine bind (onRegistry (of_returns (R := fun g r => g.table = f.table.restrict v k ∧
        r = w.registry.after 1) (Factor.returns_restrict.mpr ⟨hv, by omega, rfl, rfl⟩)
          ⟨rfl, rfl⟩)) ?_
      rintro g _ ⟨_, ⟨hg, rfl⟩, rfl⟩
      rw [hg, List.range'_succ, List.all_cons]
      split
      next hsame =>
        rw [hsame, Bool.true_and]
        refine (ih (by omega)).imp (fun _ => id) ?_
        rintro b _ ⟨hb, m, rfl⟩
        exact ⟨hb, 1 + m, by rw [← Registry.after_after]⟩
      next hsame =>
        rw [Bool.not_eq_true] at hsame
        exact pure ⟨by rw [hsame, Bool.false_and], 1, rfl⟩

/-- An axis is dropped in the tables. -/
theorem dropAxis (hpaired : Tables.Paired sizes (combined.table, f.table)) (hv : v ∈ f.axes)
    (hf : f.IsNew r₀ w.registry) :
    Ends (fun _ => False) (fun p w' =>
        (p.1.table, p.2.table) = Tables.dropAxis (combined.table, f.table) v ∧
          p.2.IsNew r₀ w'.registry ∧ ∃ m, w' = { w with registry := w.registry.after m })
      (runFrom (StepM.dropAxis (combined, f) v) w) := by
  have hmentions : f.mentions v := Table.mentions_iff.mpr (Axes.mem_ids_of_mem hv)
  have hmentions' : combined.mentions v :=
    Table.mentions_iff.mpr (hpaired.perm.mem_iff.mpr (Axes.mem_ids_of_mem hv))
  have hpos : 0 < v.arity := hpaired.right.wellFormed.arity_pos v hv
  unfold StepM.dropAxis
  refine bind (onRegistry (of_returns (R := fun g r => g.table = f.table.restrict v 0 ∧
    g.IsNew r₀ r ∧ r = w.registry.after 1)
      (Factor.returns_restrict.mpr ⟨hmentions, hpos, rfl, rfl⟩)
      ⟨rfl, ⟨hf.later.after 1, hf.later.le, Nat.lt_succ_self _⟩, rfl⟩)) ?_
  rintro first _ ⟨_, ⟨hfirst, hnew, rfl⟩, rfl⟩
  refine bind (isConstantFrom hmentions (by omega)) ?_
  rintro b _ ⟨hb, m, rfl⟩
  have hconstant : b = f.table.isConstantAlong v := by rw [hb, hfirst, Table.isConstantAlong]
  rw [Tables.dropAxis, ← hconstant]
  cases b with
  | true =>
      refine bind (onRegistry (of_returns (R := fun g r => g.table = combined.table.restrict v 0 ∧
        r = (w.registry.after 1).after (m + 1))
          (Factor.returns_restrict.mpr ⟨hmentions', hpos, rfl, rfl⟩)
          ⟨rfl, Registry.after_after _ _ _⟩)) ?_
      rintro g _ ⟨_, ⟨hg, rfl⟩, rfl⟩
      refine pure ⟨?_, ?_, 1 + (m + 1), by rw [Registry.after_after]⟩
      · rw [hg, hfirst]
        rfl
      · exact hnew.later_trans ⟨m + 1, rfl⟩
  | false =>
      refine pure ⟨rfl, ?_, 1 + m, by rw [Registry.after_after]⟩
      exact hf.later_trans ⟨1 + m, Registry.after_after _ _ _⟩

/-- Axes are dropped in the tables, one after the other. -/
theorem dropAxes {vars : Axes} (hpaired : Tables.Paired sizes (combined.table, f.table))
    (hnodup : vars.ids.Nodup) (hsub : vars ⊆ f.axes) (hf : f.IsNew r₀ w.registry) :
    Ends (fun _ => False) (fun p w' =>
        (p.1.table, p.2.table) = vars.foldl Tables.dropAxis (combined.table, f.table) ∧
          p.2.IsNew r₀ w'.registry)
      (runFrom (vars.foldlM StepM.dropAxis (combined, f)) w) := by
  induction vars generalizing combined f w with
  | nil => exact pure ⟨rfl, hf⟩
  | cons v vars ih =>
      obtain ⟨hv, hnodup⟩ := Axes.nodup_ids_cons.mp hnodup
      obtain ⟨hmem, hsub⟩ := List.cons_subset.mp hsub
      rw [List.foldlM_cons]
      refine bind (dropAxis hpaired hmem hf) ?_
      rintro ⟨combined', f'⟩ _ ⟨htables, hnew, m, rfl⟩
      rw [List.foldl_cons, ← htables]
      refine ih (by simpa only [htables] using hpaired.dropAxis v) hnodup (fun u hu => ?_) hnew
      have hne : u.id ≠ v.id := fun hid => hv (hid ▸ Axes.mem_ids_of_mem hu)
      have htable : f'.table = (Tables.dropAxis (combined.table, f.table) v).2 :=
        congrArg Prod.snd htables
      rw [Factor.axes, htable, Tables.dropAxis]
      split
      · rw [Table.axes_restrict, Axes.without_eq_filter hpaired.right.wellFormed.nodup]
        exact List.mem_filter.mpr ⟨hsub hu, by simpa using hne⟩
      · exact hsub hu

theorem dropUnobserved (hpaired : Tables.Paired sizes (combined.table, f.table))
    (hf : f.IsNew r₀ w.registry) :
    Ends (fun _ => False) (fun p w' =>
        (p.1.table, p.2.table) = Tables.dropUnobserved s d (combined.table, f.table) ∧
          p.2.IsNew r₀ w'.registry)
      (runFrom (StepM.dropUnobserved s d combined f) w) :=
  dropAxes hpaired (Axes.nodup_ids_filter hpaired.right.wellFormed.nodup _)
    List.filter_sublist.subset hf

omit [Cell α] in
theorem candidates (hw : w.tables = ts) :
    Ends (fun e => (Tables.bearing s d ts).isEmpty ∧ e = .noRelevantFactor d)
      (fun fs w' => fs.map (·.table) = Tables.bearing s d ts ∧ ¬(Tables.bearing s d ts).isEmpty ∧
        w'.registry = w.registry)
      (runFrom (StepM.candidates s d) w) := by
  have htables : (w.pool.filter (isRelevant d (s.dependencies.parents d))).map (·.table) =
      Tables.bearing s d ts := by
    rw [← hw, Tables.bearing, Workspace.filter_tables]
    rfl
  unfold StepM.candidates
  refine bind (of_returns (StepM.returns_take.mpr ⟨rfl, rfl⟩)
    (R := fun fs w' => fs.map (·.table) = Tables.bearing s d ts ∧ w'.registry = w.registry)
    ⟨htables, rfl⟩) ?_
  rintro fs w' ⟨hfs, hregistry⟩
  have hempty : fs.isEmpty ↔ (Tables.bearing s d ts).isEmpty := by rw [← hfs, List.isEmpty_map]
  exact guard (fun h => ⟨hempty.mp h, rfl⟩) fun h => pure ⟨hfs, hempty.not.mp h, hregistry⟩

/-- What is left is decided on as its tables are. -/
theorem decideAfter (hw : w.Numbered) (hts : ∀ t ∈ w.tables, t.Fits sizes)
    (hsize : d.arity = sizes d.id) (vars : List Variable) :
    Ends (fun e => Tables.decide s d (Tables.eliminateAll vars w.tables) = .error e)
      (fun p w' => Tables.decide s d (Tables.eliminateAll vars w.tables) =
        .ok (p.1.table, p.2.table) ∧ p.2.IsNew w.registry w'.registry)
      (runFrom (StepM.decideAfter s d vars) w) := by
  rw [StepM.decideAfter_eq]
  refine bind (of_leads (StepM.leads_eliminateAll hw vars)) fun _ w₁ hreach => ?_
  have hfits := Tables.fits_eliminateAll hts vars
  generalize Tables.eliminateAll vars w.tables = ts at hreach hfits
  refine bind ((candidates hreach.tables_eq).imp (fun e h => ?_) fun _ _ => id) ?_
  · rw [Tables.decide, if_pos h.1, h.2]
  rintro fs w₂ ⟨hfs, hne, hregistry⟩
  refine bind (of_leads (StepM.leads_productOf fs w₂)) ?_
  rintro f _ ⟨hf, n, rfl⟩
  rw [hfs] at hf
  have hproduct : f.table.Fits sizes := by
    rw [hf]
    exact Table.fits_foldAll fun t ht => hfits t (List.mem_of_mem_filter ht)
  have hmentions : f.table.mentions d := hf ▸ Tables.mentions_product_bearing hne
  have hlater : w.registry.Later (w₂.registry.after n) := by
    rw [hregistry]
    exact Registry.Later.after hreach.registry n
  refine bind ((onRegistry (rule hproduct hmentions)).imp ?_ fun _ _ => id) ?_
  · rintro _ ⟨state, hstate, rfl⟩
    rw [Tables.decide, if_neg hne, ← hf, hstate]
  · rintro g _ ⟨r, ⟨hg, hnew⟩, rfl⟩
    obtain ⟨hfits', hperm⟩ := hproduct.rule hmentions hsize hg
    refine (dropUnobserved ⟨hproduct, hfits', hperm.symm⟩ (hnew.since hlater)).imp
      (fun _ => False.elim) fun p w' h => ⟨?_, h.2⟩
    rw [Tables.decide, if_neg hne, ← hf, hg, h.1]

omit [Cell α] in
theorem relabelAsChance {ds : List Variable} (h : r.Open (d :: ds)) :
    Ends E (fun _ r' => r' = r.withChance d) (runFrom (Registry.relabelAsChance d) r) := by
  obtain ⟨w, hw⟩ :=
    Registry.exists_returns_relabelAsChance (h.kind d (by simp)) (h.issued d (by simp))
  exact of_returns hw rfl

/-- A decision that is open is resolved as the tables decide. -/
theorem resolveBy {pick : Pick α} {ds : List Variable} (h : w.Open sizes (d :: ds)) :
    Ends (fun e => Tables.decide s d (Tables.eliminateAll (pick d w) w.tables) = .error e)
      (fun res w' => res.IsFor sizes d ∧
        Tables.decide s d (Tables.eliminateAll (pick d w) w.tables) =
          .ok (res.combined.table, res.rule.table) ∧ w.Resolves d res.rule.table w')
      (runFrom (StepM.resolveBy pick s d) w) := by
  obtain ⟨hsize, -⟩ := Axes.sized_cons.mp h.sized
  unfold StepM.resolveBy
  refine get (bind (inScratch (decideAfter h.numbered h.fits hsize (pick d w))) ?_)
  rintro ⟨combined, rule⟩ _ ⟨after, ⟨hdecide, hnew⟩, rfl⟩
  obtain ⟨hpaired, hmem⟩ :=
    Tables.paired_of_decide (Tables.fits_eliminateAll h.fits (pick d w)) hsize hdecide
  obtain ⟨hnumbered, -, htables⟩ := Workspace.reaches_insert_new h.numbered hnew
  refine bind (of_returns (StepM.returns_insert (u := ()).mpr rfl)
    (R := fun _ w' => w' = Workspace.insert { w with registry := after.registry } rule) rfl) ?_
  rintro _ _ rfl
  have hhandles : after.registry.handles = w.registry.handles := hnew.later.handles
  refine bind (onRegistry (relabelAsChance (h.decisions.of_handles hhandles))) ?_
  rintro _ _ ⟨_, rfl, rfl⟩
  refine pure ⟨⟨rfl, hpaired, hmem⟩, hdecide, ?_⟩
  constructor
  case numbered => exact hnumbered
  case tables => exact htables
  case eliminated => rfl
  case handles => exact congrArg (List.map _) hhandles

/-- **Open decisions are resolved one after the other**, or one of them has no rule. -/
theorem resolveAllBy {pick : Pick α} {ds : List Variable} (h : w.Open sizes ds) :
    Ends (fun e => e.family = .noSolution)
      (fun rs _ => List.Forall₂ (fun d res => res.IsDecided sizes s d) ds rs)
      (runFrom (ds.mapM (StepM.resolveBy pick s)) w) := by
  refine (mapM (W := fun ds w => w.Open sizes ds) (fun d ds w h => ?_) h).imp (fun _ => id)
    fun _ _ h => h.1
  refine (resolveBy h).imp (fun _ => Tables.family_of_decide) ?_
  rintro res w' ⟨hfor, hdecide, hres⟩
  exact ⟨⟨hfor, _, Tables.fits_eliminateAll h.fits _, hdecide⟩, h.resolves hres hfor.paired.right⟩

theorem decideDecisionsBy {pick : Pick α} (h : w.Open sizes s.decisionOrder) :
    Ends (fun e => e.family = .noSolution)
      (fun rs _ => List.Forall₂ (fun d res => res.IsDecided sizes s d) s.decisionOrder rs)
      (runFrom (StepM.solveDecisionsBy pick s) w) := by
  unfold StepM.solveDecisionsBy
  split
  next hempty =>
    rw [List.isEmpty_iff.mp hempty]
    exact pure .nil
  refine bind (of_leads (StepM.leads_sumUtilities h.numbered s (Tables.distinct_of_fits h.fits))) ?_
  rintro _ w₁ ⟨hreach, -⟩
  have hopen := h.reaches hreach (Tables.fits_sumUtilities s w.registry h.fits)
  refine bind (resolveAllBy hopen.reverse) fun rs _ hrs => pure ?_
  simpa using List.rel_reverse hrs

theorem solveDecisionsBy {pick : Pick α} (h : w.Open sizes s.decisionOrder) :
    Ends (fun e => e.family = .noSolution)
      (fun rs _ => List.Forall₂ (fun d res => res.IsFor sizes d) s.decisionOrder rs)
      (runFrom (StepM.solveDecisionsBy pick s) w) :=
  (decideDecisionsBy h).imp (fun _ => id) fun _ _ hrs => hrs.imp fun _ _ h => h.toIsFor

end Ends

end Influence
