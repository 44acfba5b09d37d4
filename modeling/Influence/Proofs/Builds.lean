import Influence.Proofs.Agree
import Influence.Proofs.Elimination.Regime
import Influence.Proofs.SmallFactors

/-! # Runs in all builds

In the build `Build.bounded` sizes are numbers, and a run is stopped where it would make a table of
`Build.room` cells or more.  `HasRoom` says of a computation that this run is not stopped.  What the
computation then does it does in every build (`eq_of_hasRoom`), provided that it is `Portable`: up to the
point where the bounded run is stopped, it takes the same steps in all builds.

* **Factors.** From small tables (`Table.Small`) the operations make the same small table in every build
  (`Factor.makesSame_…`).
* **Elimination.** So small tables are a regime (`Regime.small`), under which the runs of an elimination are
  the same in every build. -/

namespace Influence

variable {σ β : Type}

/-- A run that has been stopped for want of room. -/
def isStopped : Except Error β → Bool
  | .ok _ => false
  | .error e => e.isFault

/-- The run in which sizes are numbers makes no table of `Build.room` cells or more. -/
def HasRoom (x : ∀ [Build], ExceptT Error (StateM σ) β) (s : σ) : Prop :=
  isStopped (runFrom (@x Build.bounded) s).1 = false

instance (x : ∀ [Build], ExceptT Error (StateM σ) β) (s : σ) : Decidable (HasRoom x s) :=
  inferInstanceAs (Decidable (_ = false))

theorem HasRoom.congr {x y : ∀ [Build], ExceptT Error (StateM σ) β} {s : σ}
    (h : ∀ B : Build, @x B = @y B) (hx : HasRoom x s) : HasRoom y s := by
  show isStopped (runFrom (@y Build.bounded) s).1 = false
  rw [← h]
  exact hx

section

variable {γ : Type} {x : ∀ [Build], ExceptT Error (StateM σ) β}
  {k : ∀ [Build], β → ExceptT Error (StateM σ) γ} {s : σ}

/-- There is room for two steps if there is room for the first one, and then for the second one. -/
theorem hasRoom_bind : HasRoom (x >>= k) s ↔
    HasRoom x s ∧ ∀ b s', Returns (@x Build.bounded) s b s' → HasRoom (k b) s' := by
  unfold HasRoom Returns
  rw [runFrom_bind]
  generalize runFrom (@x Build.bounded) s = p
  match p with
  | (.error _, _) => exact ⟨fun h => ⟨h, nofun⟩, And.left⟩
  | (.ok b, s') =>
      refine ⟨fun h => ⟨rfl, ?_⟩, fun h => h.2 b s' rfl⟩
      rintro _ _ ⟨⟩
      exact h

theorem HasRoom.of_bind (h : HasRoom (x >>= k) s) : HasRoom x s := (hasRoom_bind.mp h).1

/-- What is returned takes no room. -/
theorem HasRoom.map (h : HasRoom x s) (g : β → γ) : HasRoom (do return g (← x)) s :=
  hasRoom_bind.mpr ⟨h, fun _ _ _ => rfl⟩

end

/-- As long as the bounded run is not stopped, the run of every build is the same. -/
def Portable (Q : β → σ → Prop) (x : ∀ [Build], ExceptT Error (StateM σ) β) (s : σ) : Prop :=
  ∀ B : Build, Agree (·.isFault) (fun _ => True) Q (runFrom (@x Build.bounded) s) (runFrom (@x B) s)

namespace Portable

variable {Q : β → σ → Prop} {x : ∀ [Build], ExceptT Error (StateM σ) β} {s : σ}

theorem eq_bounded (h : Portable Q x s) (hroom : HasRoom x s) (B : Build) :
    runFrom (@x B) s = runFrom (@x Build.bounded) s := by
  refine ((h B).eq fun e he hfault => ?_).symm
  rw [HasRoom, he] at hroom
  exact absurd hfault (by simpa [isStopped] using hroom)

/-- With room for its tables a computation does the same in all builds. -/
theorem eq_of_hasRoom (h : Portable Q x s) (hroom : HasRoom x s) (B B' : Build) :
    runFrom (@x B) s = runFrom (@x B') s :=
  (h.eq_bounded hroom B).trans (h.eq_bounded hroom B').symm

theorem returns_iff (h : Portable Q x s) (hroom : HasRoom x s) {b : β} {s' : σ} (B B' : Build) :
    Returns (@x B) s b s' ↔ Returns (@x B') s b s' := by
  rw [Returns, Returns, h.eq_of_hasRoom hroom B B']

/-- What one build returns, every build returns. -/
theorem returns {B : Build} (h : Portable Q x s) (hroom : HasRoom x s) {b : β} {s' : σ}
    (hx : Returns (@x B) s b s') : (∀ B' : Build, Returns (@x B') s b s') ∧ Q b s' := by
  refine ⟨fun B' => (h.eq_of_hasRoom hroom B' B).trans hx, ?_⟩
  have hbounded : runFrom (@x Build.bounded) s = (.ok b, s') := (h.eq_bounded hroom B).symm.trans hx
  obtain ⟨-, hQ⟩ := (h B).result (congrArg Prod.fst hbounded)
  rwa [show runFrom (@x B) s = (.ok b, s') from hx] at hQ

end Portable

variable {α : Type} [Cell α] {sizes : VariableId → ℕ} {f : Factor α} {fs : List (Factor α)}
  {v : Variable} (B : Build)

/-! ### Operations on factors -/

namespace Factor

omit [Cell α] in
theorem makesSame_make {t : Table α} (ht : t.Small sizes) :
    MakesSame (·.isFault) (Table.Small sizes) (liftM (make t) : RegistryM (Factor α))
      (liftM (make t)) :=
  .of_returns fun g r r' h => by
    obtain ⟨rfl, -⟩ := returns_make.mp h
    exact ht

theorem makesSame_fill {p : Filling α} (hp : p.IsCovered) (hnodup : p.axes.ids.Nodup)
    (hsized : p.axes.Sized sizes) :
    MakesSame (·.isFault) (Table.Small sizes) (@fill α Build.bounded _ p) (@fill α B _ p) := by
  intro r
  by_cases hroom : p.axes.count < Build.room
  · have hcheck : ∀ B : Build, runFrom (@fill α B _ p) r =
        runFrom (liftM (make (@Filling.table α B _ p)) : RegistryM (Factor α)) r := by
      intro B
      rw [fill, hp.check_eq hroom]
      rfl
    rw [hcheck Build.bounded, hcheck B, hp.table_eq Build.bounded B hroom]
    exact makesSame_make (.of_filling hp hnodup hsized hroom) r
  · have hcheck : @Filling.check α Build.bounded p = .error .tableTooLarge := by
      refine if_pos ?_
      change (!decide (p.axes.count < Build.room)) = true
      rw [decide_eq_false hroom, Bool.not_false]
    unfold fill
    rw [hcheck]
    exact .stop rfl

theorem makesSame_restrict (hf : f.table.Small sizes) (hsize : v.arity = sizes v.id) (k : ℕ) :
    MakesSame (·.isFault) (Table.Small sizes) (@restrict α Build.bounded _ f v k)
      (@restrict α B _ f v k) := by
  rw [restrict_eq Build.bounded B hf hsize]
  refine .of_returns fun g r r' h => ?_
  obtain ⟨hv, hk, rfl, -⟩ := of_returns_restrict h
  exact hf.restrict hv hsize hk

theorem makesSame_sumOut (hf : f.table.Small sizes) (hsize : v.arity = sizes v.id) :
    MakesSame (·.isFault) (Table.Small sizes) (@sumOut α Build.bounded _ f v)
      (@sumOut α B _ f v) := by
  rw [sumOut_eq Build.bounded B hf hsize]
  refine .of_returns fun g r r' h => ?_
  obtain ⟨hv, rfl, -⟩ := of_returns_sumOut h
  exact hf.sumOut hv hsize

theorem makesSame_foldAll (op : Fold) (hfs : ∀ f ∈ fs, f.table.Small sizes) :
    MakesSame (·.isFault) (Table.Small sizes) (@foldAll α Build.bounded _ op fs)
      (@foldAll α B _ op fs) := by
  have hts : ∀ t ∈ fs.map (·.table), t.Small sizes := List.forall_mem_map.mpr hfs
  have hsized : (Axes.union [] ((fs.map (·.table)).flatMap (·.axes))).Sized sizes :=
    Axes.Sized.union fun v hv => by
      obtain ⟨t, ht, hvt⟩ := List.mem_flatMap.mp hv
      exact (hts t ht).sized v hvt
  have hfill := makesSame_fill B (Table.Small.isCovered_joining op hts) (Axes.nodup_union _ (by simp)) hsized
  match fs, hfs, hfill with
  | [f], hfs, _ => exact makesSame_make (hfs f (List.mem_singleton_self f))
  | [], _, hfill | f :: g :: fs, _, hfill => exact hfill

theorem makesSame_scale (hf : f.table.Small sizes) (c : α) :
    MakesSame (·.isFault) (Table.Small sizes) (@scale α Build.bounded _ f c)
      (@scale α B _ f c) := by
  have hscalar : (Table.scalar c).Small sizes := .scalar c
  refine fun r => .bind (makesSame_make hscalar r) fun w r' hw => ?_
  exact makesSame_foldAll B .product
    (List.forall_mem_cons.mpr ⟨hf, List.forall_mem_singleton.mpr hw⟩) r'

theorem makesSame_rearrange (hf : f.table.Small sizes) {order : Axes} (horder : order.Sized sizes) :
    MakesSame (·.isFault) (Table.Small sizes) (@rearrange α Build.bounded _ f order)
      (@rearrange α B _ f order) := by
  rw [rearrange_eq Build.bounded B hf _ horder]
  refine .of_returns fun g r r' h => ?_
  obtain ⟨hperm, rfl, -⟩ := of_returns_rearrange h
  exact hf.rearrange ((isOrder_iff hf.nodup).mp hperm) horder

theorem makesSame_rule (hf : f.table.Small sizes) (hsize : f.mentions v → v.arity = sizes v.id) :
    MakesSame (·.isFault) (Table.Small sizes) (@rule α Build.bounded _ f v) (@rule α B _ f v) := by
  by_cases hv : f.mentions v
  · rw [rule_eq Build.bounded B hf (hsize hv)]
    refine .of_returns fun g r r' h => ?_
    obtain ⟨-, hrule, -⟩ := of_returns_rule h
    exact hf.of_rule hv (hsize hv) hrule
  · intro r
    unfold rule moveLast requireAxis
    rw [if_neg hv]
    exact .error trivial

/-- Cells are accepted for axes if there are as many as joint outcomes. -/
theorem makesSame_create {axes : Axes} (cells : Array α) (hpos : ∀ v ∈ axes, 0 < v.arity)
    (hsized : axes.Sized sizes) (hroom : axes.count < Build.room) :
    MakesSame (·.isFault) (fun t => t.Small sizes ∧ t.axes = axes)
      (@create α Build.bounded _ axes (some cells)) (@create α B _ axes (some cells)) := by
  have hsame : @create α Build.bounded _ axes (some cells) = @create α B _ axes (some cells) := by
    unfold create
    rw [@Axes.size_of_lt Build.bounded _ hroom, @Axes.size_of_lt B _ hroom]
  rw [hsame]
  refine .of_returns fun g r r' h => ?_
  obtain ⟨hnodup, hsize, rfl, -⟩ := returns_create_some.mp h
  have hcount : cells.size = axes.count := hsize.trans (Axes.size_of_lt hroom)
  exact ⟨⟨hnodup, hpos, hsized, hcount, hcount ▸ hroom⟩, rfl⟩

/-- A list is made if there is room for it. -/
theorem agree_requireRoom (n : ℕ) (r : Registry) :
    Agree (·.isFault) (fun _ => True) (fun _ r' => r = r' ∧ n < Build.room)
      (runFrom (@requireRoom Build.bounded n) r) (runFrom (@requireRoom B n) r) := by
  by_cases hn : n < Build.room
  · have hbounded : @Build.holds Build.bounded n := decide_eq_true hn
    unfold requireRoom
    rw [if_pos hbounded, if_pos (Build.holds_of_lt n hn)]
    exact .ok ⟨rfl, hn⟩
  · have hbounded : ¬@Build.holds Build.bounded n := fun h => hn (of_decide_eq_true h)
    unfold requireRoom
    rw [if_neg hbounded]
    exact .stop rfl

theorem makesSame_marginal (hf : f.table.Small sizes) :
    MakesSame (·.isFault) (fun _ => True) (@marginal α Build.bounded _ f v) (@marginal α B _ f v) := by
  have haxis : ∀ r, Agree (·.isFault) (fun _ => True) (fun _ _ => True)
      (runFrom (f.requireAxis v) r) (runFrom (f.requireAxis v) r) := fun _ =>
    .of_run (fun _ _ _ => trivial) fun _ _ _ => trivial
  refine fun r => .bind (haxis r) fun _ r' _ => .bind (agree_requireRoom B _ r') fun _ r'' _ => ?_
  rw [hf.marginal_eq Build.bounded B v]
  exact .of_run (fun _ _ _ => trivial) fun _ _ _ => trivial

theorem makesSame_ones {axes : Axes} (hnodup : axes.ids.Nodup) (hpos : ∀ v ∈ axes, 0 < v.arity)
    (hsized : axes.Sized sizes) :
    MakesSame (·.isFault) (Table.Small sizes) (@ones α Build.bounded _ axes) (@ones α B _ axes) := by
  intro r
  by_cases hroom : axes.count < Build.room
  · have hrun : ∀ B : Build, runFrom (@ones α B _ axes) r =
        (.ok ⟨r.nextFactor, @Table.ones α Build.bounded _ axes⟩, r.after 1) := by
      intro B
      have hholds : Build.holds axes.size := by
        rw [Axes.size_of_lt hroom]
        exact Build.holds_of_lt _ hroom
      rw [Table.ones_eq Build.bounded B hroom]
      exact returns_bind.mpr ⟨(), r, returns_requireRoom.mpr ⟨hholds, rfl⟩,
        returns_create_some.mpr ⟨hnodup, by simp [Table.ones], rfl, rfl⟩⟩
    rw [hrun Build.bounded, hrun B]
    have hsize : (@Table.ones α Build.bounded _ axes).cells.size = axes.count :=
      Array.size_replicate.trans (@Axes.size_of_lt Build.bounded _ hroom)
    exact .ok ⟨hnodup, hpos, hsized, hsize, hsize ▸ hroom⟩
  · have hholds : ¬@Build.holds Build.bounded (@Axes.size Build.bounded axes) := fun h => hroom (of_decide_eq_true h)
    unfold ones requireRoom
    rw [if_neg hholds]
    exact .stop rfl

end Factor

/-! ### Runs on small tables -/

/-- Tables are small.  The bounded run is compared with that of any build. -/
def Regime.small (sizes : VariableId → ℕ) : Regime α Build.bounded B sizes where
  stops := (·.isFault)
  fits := (· < Build.room)
  base := Table.Small sizes
  nodup := (·.nodup)
  sized := (·.sized)
  fits_count := (·.count_lt)
  restrict := fun k hf hv => Factor.makesSame_restrict B hf hv k
  sumOut := Factor.makesSame_sumOut B
  foldAll := fun op _ hfs => Factor.makesSame_foldAll B op hfs
  scale := fun c hf => Factor.makesSame_scale B hf c
  rearrange := fun hf horder => Factor.makesSame_rearrange B hf horder
  rule := Factor.makesSame_rule B
  marginal := fun _ => Factor.makesSame_marginal B
  ones := Factor.makesSame_ones B
  create := Factor.makesSame_create B
  invert := Table.Small.invert

/-- From small tables the observations and the handling of the utilities are the same in all builds. -/
theorem StepM.portable_prepare {r : Registry} (s : Setting α)
    (hfs : ∀ f ∈ fs, f.table.Small sizes) {evidence : List Observation}
    (hsized : ∀ o ∈ evidence, o.subject.arity = sizes o.subject.id) (target : Target) :
    Portable (fun _ _ => True) (observe evidence >>= fun _ => prepare s target) (.start r fs) := by
  intro B
  exact (Regime.small B sizes).agree_prepare s hfs hsized target

/-- From small tables a question is answered in the same way by all builds. -/
theorem StepM.portable_solve {r : Registry} (s : Setting α)
    (hfs : ∀ f ∈ fs, f.table.Small sizes) {evidence : List Observation}
    (hsized : ∀ o ∈ evidence, o.subject.arity = sizes o.subject.id) (query : List Variable)
    (target : Target) :
    Portable (fun f _ => f.table.Small sizes) (solve s evidence query target) (.start r fs) := by
  intro B
  exact (Regime.small B sizes).agree_solve s hfs hsized query target

end Influence
