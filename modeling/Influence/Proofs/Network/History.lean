import Influence.Proofs.Network.Renumbering
import Influence.Proofs.Network.Posterior

/-! # Answers do not depend on what was asked before

Calls on a network hand out creation numbers, store rules and clear them, and may replace a table.
None of this shows in a later answer: whatever calls went before, and whether they succeeded or
failed, the next call gives what it gives on a network freshly compiled from the current definition
(`Network.call_afterCalls`).

Every network reached is a version of a freshly compiled one (`Network.IsVersion`): further numbers
have been handed out, and the rules stored are those that a fresh run finds.  A call on two versions
of one network is in lockstep (`Lockstep.call`). -/

namespace Influence

/-! ### Calls -/

/-- A call on a network. -/
inductive Call (α : Type) where
  | solveQuery (observed : List (String × String)) (names : List String)
  | solveUtility (observed : List (String × String)) (names : List String) (utility : Option String)
  | expectedUtility (observed : List (String × String))
  | joint (observed : List (String × String)) (names : List String)
  | utilityFactor (observed : List (String × String)) (names : List String)
      (utility : Option String)
  | solvePolicies
  | clearPolicies
  | replaceTable (name : String) (table : List α)

/-- What a call returns. -/
inductive Answer (α : Type) where
  | distributions (ds : List (String × List α))
  | utilities (u : UtilityResult α)
  | value (x : α)
  | factor (f : Factor α)
  | policies (ps : List (Policy α))
  | done

/-- The answer without the creation number of a factor. -/
def Answer.withoutNumber {α : Type} : Answer α → Answer α
  | factor f => factor { f with id := 0 }
  | a => a

section

variable {α : Type} [Build] [Cell α]

/-- What a call does. -/
def Call.run : Call α → NetworkM α (Answer α)
  | solveQuery observed names => return .distributions (← NetworkM.solveQuery observed names)
  | solveUtility observed names utility =>
    return .utilities (← NetworkM.solveUtility observed names utility)
  | expectedUtility observed => return .value (← NetworkM.expectedUtility observed)
  | joint observed names => return .factor (← NetworkM.joint observed names)
  | utilityFactor observed names utility =>
    return .factor (← NetworkM.utilityFactor observed names utility)
  | solvePolicies => return .policies (← NetworkM.solvePolicies)
  | clearPolicies => do
    NetworkM.clearPolicies
    return .done
  | replaceTable name table => do
    NetworkM.replaceTable name table
    return .done

omit [Build] [Cell α] in
/-- Whether a call asks the network for something, which changes neither definition nor config. -/
def Call.IsQuestion : Call α → Prop
  | clearPolicies | replaceTable .. => False
  | _ => True

/-- What a call returns on a network, or the cause for which it fails. -/
def Network.call (n : Network α) (c : Call α) : Except Error (Answer α) :=
  ((runFrom c.run n).1).map Answer.withoutNumber

/-- The network after some calls, each of which may have succeeded or failed. -/
def Network.afterCalls (n : Network α) (calls : List (Call α)) : Network α :=
  calls.foldl (fun n c => (runFrom c.run n).2) n

/-- The network is a compiled one on which there have been calls, which may have failed. -/
def Network.IsReachable (m : Network α) : Prop :=
  ∃ definition config n calls, compile definition config = .ok n ∧ m = n.afterCalls calls

theorem Network.call_eq_error {n : Network α} {c : Call α} {e : Error} (h : n.call c = .error e) :
    (runFrom c.run n).1 = .error e := by
  unfold call at h
  cases hrun : (runFrom c.run n).1 with
  | ok a => rw [hrun] at h; cases h
  | error e' => rw [hrun] at h; rw [← Except.error.inj h]

theorem Network.exists_call_eq_ok {n : Network α} {c : Call α} :
    (∃ a, n.call c = .ok a) ↔ ∃ a, (runFrom c.run n).1 = .ok a := by
  unfold call
  cases (runFrom c.run n).1 with
  | ok a => exact iff_of_true ⟨_, rfl⟩ ⟨_, rfl⟩
  | error e => exact iff_of_false nofun nofun

/-! ### Versions of a network -/

namespace Network

variable {f n m : Network α} {ps ps' : List (Policy α)} {j k : ℕ} {r : Registry}

omit [Build] [Cell α] in
/-- The network with more creation numbers handed out and some rules stored. -/
def advanced (f : Network α) (k : ℕ) (ps : List (Policy α)) : Network α :=
  { f with registry := f.registry.after k, policies := ps }

/-- The network has just been compiled. -/
structure Fresh (f : Network α) : Prop where
  compiled : f.Compiled
  policies : f.policies = []
  again : compile f.definition f.config = .ok f

/-- A run on the network finds the rules. -/
def Finds (f : Network α) (ps : List (Policy α)) : Prop :=
  ∃ k r, Returns f.resolveAll (f.registry.after k) ps r

/-- The rules are those of a network that no longer has open decisions. -/
def IsSettled (f : Network α) (ps : List (Policy α)) : Prop :=
  f.dependencies.isEmpty ∧ ps = [] ∨ ¬f.dependencies.isEmpty ∧ f.Finds ps

/-- The network is a freshly compiled one on which there have been calls. -/
def IsVersion (f n : Network α) : Prop :=
  ∃ k ps, (ps = [] ∨ f.IsSettled ps) ∧ n = f.advanced k ps

/-- Two versions of a network. -/
def Versions (f n m : Network α) : Prop := f.IsVersion n ∧ f.IsVersion m

omit [Build] [Cell α] in
/-- Two networks with the same rules. -/
def At (f : Network α) (ps : List (Policy α)) (n m : Network α) : Prop :=
  ∃ j k, n = f.advanced j ps ∧ m = f.advanced k ps

/-- Two versions of a network that have the same rules and no open decisions. -/
def Level (f n m : Network α) : Prop := ∃ ps, f.IsSettled ps ∧ f.At ps n m

theorem fresh_of_compile {definition : Definition α} {config : Config α}
    (h : compile definition config = .ok f) : f.Fresh :=
  ⟨(compiled_of_compile h).1, (compiled_of_compile h).2, compile_definition h⟩

theorem Fresh.isVersion (hf : f.Fresh) : f.IsVersion f := by
  refine ⟨0, [], .inl rfl, ?_⟩
  have hpolicies := hf.policies
  obtain ⟨⟩ := f
  cases hpolicies
  rfl

theorem Level.versions (h : f.Level n m) : f.Versions n m := by
  obtain ⟨ps, hps, j, k, rfl, rfl⟩ := h
  exact ⟨⟨j, ps, .inr hps, rfl⟩, ⟨k, ps, .inr hps, rfl⟩⟩

theorem Fresh.resolveAll_advanced (hf : f.Fresh) (k : ℕ) :
    (f.advanced k []).resolveAll = f.resolveAll := by
  have hpolicies := hf.policies
  obtain ⟨⟩ := f
  cases hpolicies
  rfl

theorem Fresh.lockstep_resolveAll (hf : f.Fresh) (j k : ℕ) :
    Lockstep (fun _ _ => True) (fun ps _ ps' _ => ps = ps')
      (runFrom f.resolveAll (f.registry.after j)) (runFrom f.resolveAll (f.registry.after k)) :=
  Lockstep.resolveAll hf.compiled ⟨j, rfl⟩ ⟨k, rfl⟩

omit [Build] [Cell α] in
theorem absorb_after (r r' : Registry) (k : ℕ) : ∃ j, (r.after k).absorb r' = r.after j := by
  refine ⟨max (r.nextFactor + k) r'.nextFactor - r.nextFactor, ?_⟩
  simp only [Registry.absorb, Registry.after, Registry.mk.injEq, true_and]
  omega

theorem Finds.returns (hf : f.Fresh) (h : f.Finds ps) (k : ℕ) :
    ∃ r, Returns f.resolveAll (f.registry.after k) ps r := by
  obtain ⟨j, r, h⟩ := h
  have hsame := hf.lockstep_resolveAll j k
  rw [show runFrom f.resolveAll (f.registry.after j) = (.ok ps, r) from h] at hsame
  refine ⟨(runFrom f.resolveAll (f.registry.after k)).2, ?_⟩
  unfold Returns
  generalize runFrom f.resolveAll (f.registry.after k) = q at hsame ⊢
  cases hsame with
  | ok heq => rw [heq]

theorem Finds.unique (hf : f.Fresh) (h : f.Finds ps) (h' : f.Finds ps') : ps = ps' := by
  obtain ⟨r, hr⟩ := h.returns hf 0
  obtain ⟨r', hr'⟩ := h'.returns hf 0
  exact (hr.unique hr').1

/-- Rules that a run finds are found again by resolving the decisions of any version. -/
theorem Finds.returns_solvePolicies (hf : f.Fresh) (hopen : ¬f.dependencies.isEmpty)
    (h : f.Finds ps) (k : ℕ) (ps' : List (Policy α)) :
    ∃ k', Returns NetworkM.solvePolicies (f.advanced k ps') ps (f.advanced k' ps) := by
  obtain ⟨r, hr⟩ := h.returns hf k
  obtain ⟨k', hk'⟩ := absorb_after f.registry r k
  refine ⟨k', ?_⟩
  unfold NetworkM.solvePolicies NetworkM.clearPolicies
  refine returns_bind.mpr ⟨⟨⟩, f.advanced k [], returns_modify.mpr rfl, ?_⟩
  refine returns_bind.mpr ⟨_, _, returns_get.mpr ⟨rfl, rfl⟩, ?_⟩
  rw [if_neg (show ¬(f.advanced k []).dependencies.isEmpty from hopen), hf.resolveAll_advanced]
  refine returns_bind.mpr ⟨ps, f.advanced k' [], NetworkM.returns_solving.mpr ⟨r, hr, ?_⟩, ?_⟩
  · rw [advanced, ← hk']
    rfl
  · exact returns_bind.mpr ⟨⟨⟩, _, returns_modify.mpr rfl, returns_pure.mpr ⟨rfl, rfl⟩⟩

theorem IsSettled.isFor (hf : f.Fresh) (h : f.IsSettled ps) :
    ∀ d ∈ f.dependencies.decisions, ∃ p ∈ ps, f.IsFor d p := by
  rcases h with ⟨hempty, -⟩ | ⟨-, k, r, h⟩
  · rw [Dependencies.isEmpty_iff] at hempty
    rw [hempty]
    exact fun d hd => absurd hd List.not_mem_nil
  · exact isFor_of_returns_resolveAll hf.compiled h

end Network

/-! ### Calls in lockstep -/

namespace Lockstep

open Network

variable {f n m : Network α} {ps : List (Policy α)} {β : Type} {x y : RegistryM β}
  {R : β → β → Prop}

/-- A run on a copy of the registry. -/
theorem solving {E : Registry → Registry → Prop} {j k : ℕ} (hps : ps = [] ∨ f.IsSettled ps)
    (h : Lockstep E (fun b _ c _ => R b c) (runFrom x (f.registry.after j))
      (runFrom y (f.registry.after k))) :
    Lockstep f.Versions (fun b n c m => R b c ∧ f.At ps n m)
      (runFrom (NetworkM.solving x) (f.advanced j ps))
      (runFrom (NetworkM.solving y) (f.advanced k ps)) := by
  change Lockstep _ _
    (match runFrom x (f.registry.after j) with
      | (.ok result, registry) => (.ok result,
          { f.advanced j ps with registry := (f.registry.after j).absorb registry })
      | (.error e, _) => (.error e, f.advanced j ps))
    (match runFrom y (f.registry.after k) with
      | (.ok result, registry) => (.ok result,
          { f.advanced k ps with registry := (f.registry.after k).absorb registry })
      | (.error e, _) => (.error e, f.advanced k ps))
  revert h
  generalize runFrom x (f.registry.after j) = p
  generalize runFrom y (f.registry.after k) = q
  intro h
  cases h with
  | @ok b c r t h =>
      obtain ⟨j', hj⟩ := absorb_after f.registry r j
      obtain ⟨k', hk⟩ := absorb_after f.registry t k
      dsimp only
      rw [hj, hk]
      exact .ok ⟨h, j', k', rfl, rfl⟩
  | error h => exact .error ⟨⟨j, ps, hps, rfl⟩, ⟨k, ps, hps, rfl⟩⟩

/-- A step on the registry of the network. -/
theorem onNetwork {j k : ℕ} (hps : f.IsSettled ps)
    (h : Lockstep (BothLater (f.registry.after j) (f.registry.after k))
      (fun b r c t => R b c ∧ BothLater (f.registry.after j) (f.registry.after k) r t)
      (runFrom x (f.registry.after j)) (runFrom y (f.registry.after k))) :
    Lockstep f.Versions (fun b n c m => R b c ∧ f.At ps n m)
      (runFrom (NetworkM.onRegistry x) (f.advanced j ps))
      (runFrom (NetworkM.onRegistry y) (f.advanced k ps)) := by
  change Lockstep _ _
    ((runFrom x (f.registry.after j)).1,
      { f.advanced j ps with registry := (runFrom x (f.registry.after j)).2 })
    ((runFrom y (f.registry.after k)).1,
      { f.advanced k ps with registry := (runFrom y (f.registry.after k)).2 })
  revert h
  generalize runFrom x (f.registry.after j) = p
  generalize runFrom y (f.registry.after k) = q
  intro h
  have hat : ∀ r t, BothLater (f.registry.after j) (f.registry.after k) r t →
      f.At ps { f.advanced j ps with registry := r } { f.advanced k ps with registry := t } := by
    rintro r t ⟨⟨j', rfl⟩, ⟨k', rfl⟩⟩
    exact ⟨j + j', k + k', by rw [Registry.after_after]; rfl, by rw [Registry.after_after]; rfl⟩
  cases h with
  | ok h => exact .ok ⟨h.1, hat _ _ h.2⟩
  | error h => exact .error (Level.versions ⟨ps, hps, hat _ _ h⟩)

theorem solvePolicies (hf : f.Fresh) (h : f.Versions n m) :
    Lockstep f.Versions (fun ps n ps' m => ps = ps' ∧ f.Level n m)
      (runFrom NetworkM.solvePolicies n) (runFrom NetworkM.solvePolicies m) := by
  obtain ⟨⟨j, ps, hps, rfl⟩, ⟨k, ps', hps', rfl⟩⟩ := h
  unfold NetworkM.solvePolicies NetworkM.clearPolicies
  refine bind (R := fun _ n _ m => n = f.advanced j [] ∧ m = f.advanced k [])
    (of_returns (returns_modify (u := ()).mpr rfl) (returns_modify (u := ()).mpr rfl) ⟨rfl, rfl⟩) ?_
  rintro _ _ _ _ ⟨rfl, rfl⟩
  refine bind (R := fun n n' m m' => n' = n ∧ m' = m ∧ n = f.advanced j [] ∧ m = f.advanced k [])
    (of_returns (returns_get.mpr ⟨rfl, rfl⟩) (returns_get.mpr ⟨rfl, rfl⟩) ⟨rfl, rfl, rfl, rfl⟩) ?_
  rintro _ _ _ _ ⟨rfl, rfl, rfl, rfl⟩
  by_cases hempty : f.dependencies.isEmpty
  · rw [if_pos (show (f.advanced j []).dependencies.isEmpty from hempty),
      if_pos (show (f.advanced k []).dependencies.isEmpty from hempty)]
    exact pure ⟨rfl, [], .inl ⟨hempty, rfl⟩, j, k, rfl, rfl⟩
  · rw [if_neg (show ¬(f.advanced j []).dependencies.isEmpty from hempty),
      if_neg (show ¬(f.advanced k []).dependencies.isEmpty from hempty),
      hf.resolveAll_advanced, hf.resolveAll_advanced]
    have hsolve := (solving (.inl rfl) (hf.lockstep_resolveAll j k)).and_returns
    refine bind hsolve ?_
    rintro ps _ _ _ ⟨⟨rfl, j', k', rfl, rfl⟩, hreturns, -⟩
    obtain ⟨r, hfound, -⟩ := NetworkM.returns_solving.mp hreturns
    refine bind (R := fun _ n _ m => n = f.advanced j' ps ∧ m = f.advanced k' ps)
      (of_returns (returns_modify (u := ()).mpr rfl) (returns_modify (u := ()).mpr rfl)
        ⟨rfl, rfl⟩) ?_
    rintro _ _ _ _ ⟨rfl, rfl⟩
    exact pure ⟨rfl, ps, .inr ⟨hempty, j, r, hfound⟩, j', k', rfl, rfl⟩

/-- Open decisions are resolved if there are no rules, and otherwise the rules stay. -/
theorem runFrom_ensurePolicies (k : ℕ) (ps : List (Policy α)) :
    runFrom NetworkM.ensurePolicies (f.advanced k ps) =
      if !f.dependencies.isEmpty && ps.isEmpty then
        runFrom (NetworkM.solvePolicies >>= fun _ => Pure.pure ()) (f.advanced k ps)
      else (.ok (), f.advanced k ps) := by
  unfold NetworkM.ensurePolicies
  rw [runFrom_bind, show runFrom get (f.advanced k ps) = (.ok (f.advanced k ps), f.advanced k ps)
    from rfl]
  dsimp only
  change runFrom (if !f.dependencies.isEmpty && ps.isEmpty then _ else _) _ = _
  split <;> rfl

/-- Two versions of a network have the same rules once their decisions have been resolved. -/
theorem ensurePolicies (hf : f.Fresh) (h : f.Versions n m) :
    Lockstep f.Versions (fun _ n _ m => f.Level n m) (runFrom NetworkM.ensurePolicies n)
      (runFrom NetworkM.ensurePolicies m) := by
  have hsolve := solvePolicies hf h
  obtain ⟨⟨j, ps, hps, rfl⟩, ⟨k, ps', hps', rfl⟩⟩ := h
  rw [runFrom_ensurePolicies, runFrom_ensurePolicies]
  by_cases hempty : f.dependencies.isEmpty
  · have hnone : ∀ ps, (ps = [] ∨ f.IsSettled ps) → ps = [] := by
      rintro ps (hnil | ⟨-, hnil⟩ | ⟨hopen, -⟩)
      · exact hnil
      · exact hnil
      · exact absurd hempty hopen
    obtain rfl := hnone ps hps
    obtain rfl := hnone ps' hps'
    simp only [hempty]
    exact .ok ⟨[], .inl ⟨hempty, rfl⟩, j, k, rfl, rfl⟩
  have hfinds : ∀ ps, (ps = [] ∨ f.IsSettled ps) → ps = [] ∨ f.Finds ps := by
    rintro ps (hnil | ⟨hno, -⟩ | ⟨-, hfound⟩)
    · exact .inl hnil
    · exact absurd hno hempty
    · exact .inr hfound
  by_cases hfound : ∃ ps₀, f.Finds ps₀
  · obtain ⟨ps₀, hfound⟩ := hfound
    -- each version ends with the rules that a run finds, whether it has them already or not
    have hone : ∀ k ps, ps = [] ∨ f.Finds ps → ∃ k',
        (if !f.dependencies.isEmpty && ps.isEmpty then
          runFrom (NetworkM.solvePolicies >>= fun _ => Pure.pure ()) (f.advanced k ps)
        else (.ok (), f.advanced k ps)) = (.ok (), f.advanced k' ps₀) := by
      intro k ps hps
      by_cases hnil : ps = []
      · subst hnil
        obtain ⟨k', hk'⟩ := hfound.returns_solvePolicies hf hempty k []
        refine ⟨k', ?_⟩
        rw [if_pos (by simp [hempty])]
        exact returns_bind.mpr ⟨ps₀, _, hk', returns_pure.mpr ⟨rfl, rfl⟩⟩
      · obtain rfl := (hps.resolve_left hnil).unique hf hfound
        exact ⟨k, if_neg (by simp [hnil])⟩
    obtain ⟨j', hj'⟩ := hone j ps (hfinds ps hps)
    obtain ⟨k', hk'⟩ := hone k ps' (hfinds ps' hps')
    rw [hj', hk']
    exact .ok ⟨ps₀, .inr ⟨hempty, hfound⟩, j', k', rfl, rfl⟩
  · obtain rfl := (hfinds ps hps).resolve_right fun h => hfound ⟨ps, h⟩
    obtain rfl := (hfinds ps' hps').resolve_right fun h => hfound ⟨ps', h⟩
    rw [if_pos (by simp [hempty]), if_pos (by simp [hempty])]
    exact bind hsolve fun _ _ _ _ h => pure h.2

omit [Build] [Cell α] in
theorem getBoth {β : Type} {x y : Network α → NetworkM α β} {E : Network α → Network α → Prop}
    {Q : β → Network α → β → Network α → Prop}
    (h : Lockstep E Q (runFrom (x n) n) (runFrom (y m) m)) :
    Lockstep E Q (runFrom (get >>= x) n) (runFrom (get >>= y) m) :=
  bind (R := fun a a' b b' => a = n ∧ a' = n ∧ b = m ∧ b' = m)
    (of_returns (returns_get.mpr ⟨rfl, rfl⟩) (returns_get.mpr ⟨rfl, rfl⟩) ⟨rfl, rfl, rfl, rfl⟩)
    (by
      rintro _ _ _ _ ⟨rfl, rfl, rfl, rfl⟩
      exact h)

omit [Build] [Cell α] in
theorem check {β γ : Type} {z : Except Error β} {x y : β → NetworkM α γ}
    {E : Network α → Network α → Prop} {Q : γ → Network α → γ → Network α → Prop} (hE : E n m)
    (h : ∀ b, z = .ok b → Lockstep E Q (runFrom (x b) n) (runFrom (y b) m)) :
    Lockstep E Q (runFrom ((liftM z : NetworkM α β) >>= x) n)
      (runFrom ((liftM z : NetworkM α β) >>= y) m) :=
  bind (except (R := fun b n' c m' => b = c ∧ z = .ok b ∧ n' = n ∧ m' = m) hE
    fun _ hb => ⟨rfl, hb, rfl, rfl⟩) (by
      rintro b _ _ _ ⟨rfl, hb, rfl, rfl⟩
      exact h b hb)

theorem solvingAnswer (hf : f.Fresh) {j k : ℕ} (hps : f.IsSettled ps)
    {observed : List (String × String)} {evidence : List Observation}
    (hevidence : f.evidence observed = .ok evidence) (query : List Variable) (target : Target) :
    Lockstep f.Versions (fun a n b m => (a.table = b.table ∧ a.axes.ids.Nodup ∧
        ∀ v ∈ query, v ∈ f.states → v.id ∉ Axes.ids (evidence.map (·.subject)) →
          a.mentions v) ∧ f.At ps n m)
      (runFrom (NetworkM.solving ((f.advanced j ps).answer evidence query target)) (f.advanced j ps))
      (runFrom (NetworkM.solving ((f.advanced k ps).answer evidence query target))
        (f.advanced k ps)) := by
  have hn : (f.advanced 0 ps).Compiled := hf.compiled.update rfl (Nat.le_refl _) ps
  have hvalid := (isEvidence_of_ok hf.compiled hevidence).1
  have hfor := hps.isFor hf
  refine solving (.inr hps) (Lockstep.answer hn ?_ ?_ hfor ?_ query target)
  · exact ⟨j, by rw [advanced, Registry.after_after, Nat.zero_add]⟩
  · exact ⟨k, by rw [advanced, Registry.after_after, Nat.zero_add]⟩
  · exact ⟨hvalid.nodup, hvalid.subject, hvalid.outcome⟩

theorem ask (hf : f.Fresh) (h : f.Versions n m) (observed : List (String × String))
    (names : List String) (target : Target) :
    Lockstep f.Versions (fun a n b m => a.table = b.table ∧ f.Level n m)
      (runFrom (NetworkM.ask observed names target) n)
      (runFrom (NetworkM.ask observed names target) m) := by
  unfold NetworkM.ask
  refine bind (ensurePolicies hf h) ?_
  rintro _ _ _ _ ⟨ps, hps, j, k, rfl, rfl⟩
  have hlevel : f.Level (f.advanced j ps) (f.advanced k ps) := ⟨ps, hps, j, k, rfl, rfl⟩
  refine getBoth (check (z := f.evidence observed) hlevel.versions fun evidence hevidence => ?_)
  refine check (z := f.unobservedQuery evidence names) hlevel.versions fun query _ => ?_
  refine bind (solvingAnswer hf hps hevidence query target) ?_
  rintro a _ b _ ⟨⟨htable, hnodup, -⟩, j, k, rfl, rfl⟩
  exact (onNetwork hps (project (.refl _ _) query rfl htable.symm hnodup)).imp (fun _ _ => id)
    fun _ _ _ _ h => ⟨h.1, ps, hps, h.2⟩

theorem utilityFactor (hf : f.Fresh) (h : f.Versions n m) (observed : List (String × String))
    (names : List String) (utility : Option String) :
    Lockstep f.Versions (fun a n b m => a.table = b.table ∧ f.Level n m)
      (runFrom (NetworkM.utilityFactor observed names utility) n)
      (runFrom (NetworkM.utilityFactor observed names utility) m) := by
  have hask := fun target => ask hf h observed names target
  obtain ⟨⟨j, ps, hps, rfl⟩, ⟨k, ps', hps', rfl⟩⟩ := h
  exact getBoth (check (z := f.utilityTarget utility) ⟨⟨j, ps, hps, rfl⟩, ⟨k, ps', hps', rfl⟩⟩
    fun target _ => hask target)

theorem solveUtility (hf : f.Fresh) (h : f.Versions n m) (observed : List (String × String))
    (names : List String) (utility : Option String) :
    Lockstep f.Versions (fun u n v m => u = v ∧ f.Level n m)
      (runFrom (NetworkM.solveUtility observed names utility) n)
      (runFrom (NetworkM.solveUtility observed names utility) m) := by
  unfold NetworkM.solveUtility
  refine bind (utilityFactor hf h observed names utility) ?_
  rintro value _ value' _ ⟨hvalue, hlevel⟩
  refine bind (ask hf hlevel.versions observed names .probability) ?_
  rintro probability _ probability' _ ⟨hprobability, ps, hps, j, k, rfl, rfl⟩
  refine bind (onNetwork (R := fun f g => f.table = g.table) hps ?_) ?_
  · unfold Factor.invert
    rw [hprobability]
    exact (make (.refl _ _) _).imp (fun _ _ => id) fun _ _ _ _ h =>
      ⟨h.left.trans h.right.symm, h.bothLater⟩
  rintro inverse _ inverse' _ ⟨hinverse, j, k, rfl, rfl⟩
  refine bind (onNetwork (R := fun f g => f.table = g.table) hps ?_) ?_
  · have htables : [value, inverse].map (·.table) = [value'.table, inverse'.table] := by
      rw [List.map_cons, List.map_singleton, hvalue, hinverse]
    exact (product (.refl _ _) htables rfl).imp (fun _ _ => id) fun _ _ _ _ h =>
      ⟨h.left.trans h.right.symm, h.bothLater⟩
  rintro expected _ expected' _ ⟨hexpected, j, k, rfl, rfl⟩
  have hlevel : f.Level (f.advanced j ps) (f.advanced k ps) := ⟨ps, hps, j, k, rfl, rfl⟩
  refine getBoth ?_
  rw [mapM_liftM, mapM_liftM]
  refine check (z := names.mapM f.node) hlevel.versions fun nodes _ => ?_
  refine bind (onNetwork (R := fun f g => f.table = g.table) hps ?_) ?_
  · exact (rearrange (.refl _ _) hexpected rfl _).imp (fun _ _ => id) fun _ _ _ _ h =>
      ⟨h.left.trans h.right.symm, h.bothLater⟩
  rintro result _ result' _ ⟨hresult, hat⟩
  refine pure ⟨?_, ps, hps, hat⟩
  unfold Factor.cells
  rw [hresult]

theorem expectedUtility (hf : f.Fresh) (h : f.Versions n m) (observed : List (String × String)) :
    Lockstep f.Versions (fun a n b m => a = b ∧ f.Level n m)
      (runFrom (NetworkM.expectedUtility observed) n)
      (runFrom (NetworkM.expectedUtility observed) m) := by
  unfold NetworkM.expectedUtility
  refine bind (solveUtility hf h observed [] none) ?_
  rintro result _ _ _ ⟨rfl, hlevel⟩
  cases result.scalar? with
  | some value => exact pure ⟨rfl, hlevel⟩
  | none => exact throw hlevel.versions

theorem solveQuery (hf : f.Fresh) (h : f.Versions n m) (observed : List (String × String))
    (names : List String) :
    Lockstep f.Versions (fun a n b m => a = b ∧ f.Level n m)
      (runFrom (NetworkM.solveQuery observed names) n)
      (runFrom (NetworkM.solveQuery observed names) m) := by
  unfold NetworkM.solveQuery
  refine bind (ensurePolicies hf h) ?_
  rintro _ _ _ _ ⟨ps, hps, j, k, rfl, rfl⟩
  have hlevel : f.Level (f.advanced j ps) (f.advanced k ps) := ⟨ps, hps, j, k, rfl, rfl⟩
  refine getBoth (check (z := f.evidence observed) hlevel.versions fun evidence hevidence => ?_)
  refine check (z := f.query names) hlevel.versions fun query hquery => ?_
  have hstates := (isQuery_of_ok hf.compiled hquery).subset
  refine bind (solvingAnswer hf hps hevidence _ .probability) ?_
  rintro a _ b _ ⟨⟨htable, -, hmentions⟩, hat⟩
  have hsame : List.Forall₂ (fun v v' => v = v' ∧ v ∈ query) query query :=
    List.forall₂_same.mpr fun v hv => ⟨rfl, hv⟩
  refine bind (mapM (V := Eq) (W := f.At ps) (fun v v' n m hv hat => ?_) hsame hat) ?_
  · obtain ⟨rfl, hv⟩ := hv
    obtain ⟨j, k, rfl, rfl⟩ := hat
    refine onNetwork hps (distribution (.refl _ _) rfl htable.symm fun hfree => ?_)
    refine hmentions v (List.mem_filter.mpr ⟨hv, ?_⟩) (hstates hv) hfree
    rw [Bool.not_eq_true', Axes.mentions_eq_false_iff]
    exact hfree
  · rintro ds n ds' m ⟨hds, hat⟩
    obtain rfl : ds = ds' := List.forall₂_eq_eq_eq ▸ hds
    exact pure ⟨rfl, ps, hps, hat⟩

/-- A new table leads to the same network on two versions of a network. -/
theorem replaceTable (h : f.Versions n m) (name : String) (table : List α) :
    Lockstep f.Versions (fun _ n _ m => ∃ g, g.Fresh ∧ n = g ∧ m = g)
      (runFrom (NetworkM.replaceTable name table) n)
      (runFrom (NetworkM.replaceTable name table) m) := by
  have hversions := h
  obtain ⟨⟨j, ps, -, rfl⟩, ⟨k, ps', -, rfl⟩⟩ := h
  unfold NetworkM.replaceTable
  refine getBoth ?_
  have hentries : ∀ j ps, (f.advanced j ps).entries = f.entries := fun _ _ => rfl
  have hnodes : ∀ j ps, (f.advanced j ps).nodes = f.nodes := fun _ _ => rfl
  rw [hentries, hentries]
  cases entryOf? f.entries name with
  | none =>
      dsimp only
      rw [hnodes, hnodes]
      split <;> exact throw hversions
  | some e =>
      refine guard .rfl hversions fun _ => ?_
      refine check (z := compile (f.definition.withTable name table) f.config) hversions
        fun g hg => ?_
      exact of_returns (returns_set (u := ()).mpr rfl) (returns_set (u := ()).mpr rfl)
        ⟨g, fresh_of_compile hg, rfl, rfl⟩

end Lockstep

/-- Two networks that are versions of one freshly compiled network. -/
def Network.Akin (n m : Network α) : Prop := ∃ f : Network α, f.Fresh ∧ f.Versions n m

namespace Lockstep

open Network

variable {f n m : Network α}

theorem answering {β : Type} {V : β → β → Prop} {x : NetworkM α β} {g : β → Answer α}
    (hf : f.Fresh) (h : Lockstep f.Versions (fun a n b m => V a b ∧ f.Level n m) (runFrom x n)
      (runFrom x m)) (hV : ∀ a b, V a b → (g a).withoutNumber = (g b).withoutNumber) :
    Lockstep Akin (fun a n b m => a.withoutNumber = b.withoutNumber ∧ Akin n m)
      (runFrom (x >>= fun a => Pure.pure (g a)) n) (runFrom (x >>= fun a => Pure.pure (g a)) m) :=
  bind (h.imp (fun _ _ h => ⟨f, hf, h⟩) fun _ _ _ _ => id) fun a _ b _ h =>
    pure ⟨hV a b h.1, f, hf, h.2.versions⟩

/-- **A call gives the same on two versions of a network**, but for the creation number of a factor,
and leaves two versions of one network again. -/
theorem call (h : Akin n m) (c : Call α) :
    Lockstep Akin (fun a n b m => a.withoutNumber = b.withoutNumber ∧ Akin n m)
      (runFrom c.run n) (runFrom c.run m) := by
  obtain ⟨f, hf, h⟩ := h
  have hfactor : ∀ a b : Factor α, a.table = b.table →
      (Answer.factor a).withoutNumber = (Answer.factor b).withoutNumber := by
    rintro ⟨_, _⟩ ⟨_, _⟩ rfl
    rfl
  cases c with
  | solveQuery observed names =>
      exact answering hf (solveQuery hf h observed names) fun _ _ h => by rw [h]
  | solveUtility observed names utility =>
      exact answering hf (solveUtility hf h observed names utility) fun _ _ h => by rw [h]
  | expectedUtility observed =>
      exact answering hf (expectedUtility hf h observed) fun _ _ h => by rw [h]
  | joint observed names => exact answering hf (ask hf h observed names .probability) hfactor
  | utilityFactor observed names utility =>
      exact answering hf (utilityFactor hf h observed names utility) hfactor
  | solvePolicies => exact answering hf (solvePolicies hf h) fun _ _ h => by rw [h]
  | clearPolicies =>
      obtain ⟨⟨j, ps, -, rfl⟩, ⟨k, ps', -, rfl⟩⟩ := h
      refine bind (R := fun _ n _ m => n = f.advanced j [] ∧ m = f.advanced k [])
        (of_returns (returns_modify (u := ()).mpr rfl) (returns_modify (u := ()).mpr rfl)
          ⟨rfl, rfl⟩) ?_
      rintro _ _ _ _ ⟨rfl, rfl⟩
      exact pure ⟨rfl, f, hf, ⟨j, [], .inl rfl, rfl⟩, ⟨k, [], .inl rfl, rfl⟩⟩
  | replaceTable name table =>
      refine bind ((replaceTable h name table).imp (fun _ _ h => ⟨f, hf, h⟩) fun _ _ _ _ => id) ?_
      rintro _ _ _ _ ⟨g, hg, rfl, rfl⟩
      exact pure ⟨rfl, _, hg, hg.isVersion, hg.isVersion⟩

end Lockstep

/-! ### Histories -/

namespace Network

theorem Fresh.exists_isVersion_afterCalls {f : Network α} (hf : f.Fresh) (calls : List (Call α)) :
    ∃ g : Network α, g.Fresh ∧ g.IsVersion (f.afterCalls calls) := by
  suffices h : ∀ n, Akin n n → Akin (n.afterCalls calls) (n.afterCalls calls) by
    obtain ⟨g, hg, hversion, -⟩ := h f ⟨f, hf, hf.isVersion, hf.isVersion⟩
    exact ⟨g, hg, hversion⟩
  induction calls with
  | nil => exact fun _ h => h
  | cons c calls ih => exact fun n h => ih _ ((Lockstep.call h c).states fun _ _ _ _ h => h.2)

theorem Akin.call_eq {n m : Network α} (h : Akin n m) (c : Call α) : n.call c = m.call c :=
  (Lockstep.call h c).map_eq fun _ _ _ _ h => h.1

/-- **Answers do not depend on what was asked before.**  After any calls the current definition and
config compile again, and every call answers as it does on the network compiled from them. -/
theorem call_afterCalls {definition : Definition α} {config : Config α} {n : Network α}
    (h : compile definition config = .ok n) (calls : List (Call α)) :
    ∃ fresh, compile (n.afterCalls calls).definition (n.afterCalls calls).config = .ok fresh ∧
      ∀ c, (n.afterCalls calls).call c = fresh.call c := by
  obtain ⟨g, hg, k, ps, hps, hn⟩ := (fresh_of_compile h).exists_isVersion_afterCalls calls
  rw [hn]
  exact ⟨g, hg.again, Akin.call_eq ⟨g, hg, ⟨k, ps, hps, rfl⟩, hg.isVersion⟩⟩

end Network

end

namespace Network

/-- A session on the wildcatter's network.  No table has one cell, and no variable has the last name,
so two of the calls fail. -/
def session : List (Call ℚ) :=
  [.solveQuery [("oil", "wet")] ["drill"], .replaceTable "oil" [1], .replaceTable "fee" [0, -1],
    .solvePolicies, .joint [] ["gas"]]

/-- The session leaves other numbers and rules behind than a fresh network has. -/
theorem call_afterCalls_session : ∃ n : Network ℚ, compile wildcat {} = .ok n ∧
    ∃ fresh, compile (n.afterCalls session).definition (n.afterCalls session).config = .ok fresh ∧
      (n.afterCalls session).registry ≠ fresh.registry ∧
      (n.afterCalls session).policies.length ≠ fresh.policies.length ∧
      ∀ c, (n.afterCalls session).call c = fresh.call c := by
  obtain ⟨n, hcompile, hagain⟩ := exists_ok_of_toOption (x := compile wildcat {})
    (P := fun n => ∃ fresh ∈
        (compile (n.afterCalls session).definition (n.afterCalls session).config).toOption,
      (n.afterCalls session).registry ≠ fresh.registry ∧
        (n.afterCalls session).policies.length ≠ fresh.policies.length)
    (by decide +kernel)
  obtain ⟨fresh, hfresh, hregistry, hpolicies⟩ := exists_ok_of_toOption hagain
  obtain ⟨fresh', hfresh', hcall⟩ := call_afterCalls hcompile session
  obtain rfl : fresh = fresh' := Except.ok.inj (hfresh.symm.trans hfresh')
  exact ⟨n, hcompile, fresh, hfresh, hregistry, hpolicies, hcall⟩

end Network

end Influence
