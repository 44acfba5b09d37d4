import Influence.Proofs.Keeps
import Influence.Proofs.Network.History

/-! # What calls change

A call that replaces no table hands out creation numbers and stores or clears rules, and changes
nothing else, whether it succeeds or fails (`Call.keeps_continues`).  A table that is rejected changes
nothing at all (`Network.eq_of_replaceTable_eq_error`).  The factors that calls return come one after the
other, and after those of the tables (`Network.pairwise_factorsOf`). -/

namespace Influence

variable {α : Type} {n m : Network α} {f : Factor α}

/-- The second network is the first one with more creation numbers handed out and other rules. -/
structure Network.Continues (n m : Network α) : Prop where
  later : n.registry.Later m.registry
  rest : m = { n with registry := m.registry, policies := m.policies }

instance : IsPreorder (Network α) Network.Continues where
  refl n := ⟨.refl _, rfl⟩
  trans _ _ _ h h' := ⟨h.later.trans h'.later, by rw [h'.rest, h.rest]⟩

/-- Storing and clearing rules. -/
theorem Network.keeps_setPolicies (ps : List (Policy α)) :
    Keeps Continues (modify fun n => { n with policies := ps } : NetworkM α PUnit) :=
  .modify fun _ => ⟨.refl _, rfl⟩

namespace Keeps

open Network

variable {β : Type}

/-! ### Steps on the registry of a network -/

theorem onNetwork {x : RegistryM β} (h : Keeps Registry.Later x) :
    Keeps Continues (NetworkM.onRegistry x : NetworkM α β) := fun n => ⟨h n.registry, rfl⟩

/-- A run on a copy leaves nothing but the numbers that it used, whatever it did to the copy. -/
theorem solving (x : RegistryM β) : Keeps Continues (NetworkM.solving x : NetworkM α β) := by
  intro n
  unfold runFrom NetworkM.solving
  rcases x n.registry with ⟨_ | _, r⟩
  · exact refl_of Continues n
  · exact ⟨.absorb _ r, rfl⟩

/-! ### Calls -/

variable [Build] [Cell α] (observed : List (String × String)) (names : List String)

theorem solvePolicies : Keeps Continues (NetworkM.solvePolicies : NetworkM α _) := by
  unfold NetworkM.solvePolicies NetworkM.clearPolicies
  refine bind (keeps_setPolicies []) fun _ => bind get fun n => ite (pure []) ?_
  exact bind (solving _) fun ps => bind (keeps_setPolicies ps) fun _ => pure ps

theorem ensurePolicies : Keeps Continues (NetworkM.ensurePolicies : NetworkM α _) :=
  bind get fun _ => ite (bind solvePolicies fun _ => pure ()) (pure ())

theorem project (axes : Axes) (f : Factor α) : Keeps Registry.Later (Network.project axes f) := by
  refine bind (foldlM (fun f v => sumOut f v) _ _) fun g => ?_
  cases axes.find? fun v => !g.mentions v with
  | none => exact rearrange g axes
  | some v => exact bind (throw _) fun _ => rearrange g axes

theorem ask (target : Target) :
    Keeps Continues (NetworkM.ask observed names target : NetworkM α _) :=
  bind ensurePolicies fun _ => bind get fun _ => bind (except _) fun _ => bind (except _) fun _ =>
    bind (solving _) fun f => onNetwork (project _ f)

theorem utilityFactor (utility : Option String) :
    Keeps Continues (NetworkM.utilityFactor observed names utility : NetworkM α _) :=
  bind get fun _ => bind (except _) fun target => ask observed names target

theorem distribution (evidence : List Observation) (f : Factor α) (v : Variable) :
    Keeps Registry.Later (NetworkM.distribution evidence f v) := by
  unfold NetworkM.distribution
  cases evidence.find? (·.subject.id == v.id) with
  | some o => exact pure _
  | none => exact bind (marginal f v) fun g => bind (make _) fun h => pure _

theorem solveQuery : Keeps Continues (NetworkM.solveQuery observed names : NetworkM α _) :=
  bind ensurePolicies fun _ => bind get fun _ => bind (except _) fun evidence =>
    bind (except _) fun _ => bind (solving _) fun f =>
      bind (mapM (fun v => onNetwork (distribution evidence f v)) _) fun _ => pure _

theorem solveUtility (utility : Option String) :
    Keeps Continues (NetworkM.solveUtility observed names utility : NetworkM α _) :=
  bind (utilityFactor observed names utility) fun _ => bind (ask observed names .probability) fun _ =>
    bind (onNetwork (make _)) fun _ => bind (onNetwork (foldAll _ _)) fun f => bind get fun _ =>
      bind (mapM (fun _ => except _) names) fun _ => bind (onNetwork (rearrange f _)) fun _ => pure _

theorem expectedUtility : Keeps Continues (NetworkM.expectedUtility observed : NetworkM α α) := by
  refine bind (solveUtility observed [] none) fun result => ?_
  cases result.scalar? with
  | some value => exact pure value
  | none => exact throw _

end Keeps

/-! ### Failures -/

section

variable [Build] [Cell α] {c : Call α} {e : Error}

/-- A call that replaces no table. -/
theorem Call.keeps_continues (hc : ∀ name table, c ≠ .replaceTable name table) :
    Keeps Network.Continues c.run := by
  cases c with
  | solveQuery observed names => exact .bind (.solveQuery observed names) fun _ => .pure _
  | solveUtility observed names utility =>
      exact .bind (.solveUtility observed names utility) fun _ => .pure _
  | expectedUtility observed => exact .bind (.expectedUtility observed) fun _ => .pure _
  | joint observed names => exact .bind (.ask observed names .probability) fun _ => .pure _
  | utilityFactor observed names utility =>
      exact .bind (.utilityFactor observed names utility) fun _ => .pure _
  | solvePolicies => exact .bind .solvePolicies fun _ => .pure _
  | clearPolicies => exact .bind (Network.keeps_setPolicies []) fun _ => .pure _
  | replaceTable name table => exact absurd rfl (hc name table)

namespace Network

/-- A table that is rejected changes nothing. -/
theorem eq_of_replaceTable_eq_error {name : String} {table : List α}
    (h : runFrom (Call.replaceTable name table).run n = (.error e, m)) : m = n := by
  have hrun : Lockstep (fun s _ => s = n) (fun _ _ _ _ => True)
      (runFrom (Call.replaceTable name table).run n)
      (runFrom (Call.replaceTable name table).run n) := by
    refine .bind (R := fun _ _ _ _ => True) (.getBoth ?_) fun _ _ _ _ _ => .pure trivial
    cases entryOf? n.entries name with
    | none =>
        dsimp only
        split <;> exact .throw rfl
    | some entry =>
        refine .guard .rfl rfl fun _ => .check rfl fun g _ => ?_
        exact .of_returns (returns_set (u := ()).mpr rfl) (returns_set (u := ()).mpr rfl) trivial
  rw [h] at hrun
  cases hrun with
  | error h => exact h

theorem continues_of_eq_error (h : runFrom c.run n = (.error e, m)) : n.Continues m := by
  by_cases hc : ∃ name table, c = .replaceTable name table
  · obtain ⟨name, table, rfl⟩ := hc
    rw [eq_of_replaceTable_eq_error h]
    exact refl_of Continues n
  · have hkeeps := Call.keeps_continues (fun name table heq => hc ⟨name, table, heq⟩) n
    rwa [h] at hkeeps

/-! ### The factors that calls return -/

/-- What is left of an answer is laid out over the axes. -/
theorem exists_returns_rearrange_of_project {axes : Axes} {f g : Factor α} {r r' : Registry}
    (h : Returns (project axes f) r g r') :
    ∃ g₁ r₁, Returns ((f.axes.filter fun v => !Axes.mentions axes v).foldlM Factor.sumOut f) r g₁ r₁ ∧
      Returns (g₁.rearrange axes) r₁ g r' := by
  unfold project at h
  obtain ⟨g₁, r₁, hsum, h⟩ := returns_bind.mp h
  refine ⟨g₁, r₁, hsum, ?_⟩
  cases hfind : axes.find? fun v => !g₁.mentions v with
  | none => simpa only [hfind] using h
  | some v =>
      simp only [hfind] at h
      obtain ⟨_, _, hthrow, -⟩ := returns_bind.mp h
      cases hthrow

/-- The factor of an answer is laid out with the network's own registry. -/
theorem isNew_of_returns_project {axes : Axes} {f g : Factor α} {r r' : Registry}
    (h : Returns (project axes f) r g r') : g.IsNew r r' := by
  obtain ⟨g₁, r₁, hsum, hlast⟩ := exists_returns_rearrange_of_project h
  have hlater : r.Later r₁ := Keeps.of_returns (.foldlM (fun f v => .sumOut f v) _ _) hsum
  obtain ⟨-, rfl, rfl⟩ := Factor.of_returns_rearrange hlast
  exact ⟨hlater.after 1, hlater.le, Nat.lt_succ_self _⟩

/-- A question is answered by a run on a copy, and the answer is laid out over the query. -/
theorem exists_returns_answer_of_ask {observed : List (String × String)} {names : List String}
    {target : Target} (h : Returns (NetworkM.ask observed names target) n f m) :
    ∃ n₁ evidence query g n₂ r, n.Continues n₁ ∧ n₁.unobservedQuery evidence names = .ok query ∧
      Returns (NetworkM.solving (n₁.answer evidence query target)) n₁ g n₂ ∧
      Returns (project query g) n₂.registry f r ∧ m = { n₂ with registry := r } := by
  unfold NetworkM.ask at h
  obtain ⟨_, n₁, hensure, h⟩ := returns_bind.mp h
  simp only [returns_bind, returns_get, returns_except] at h
  obtain ⟨_, _, ⟨rfl, rfl⟩, evidence, _, ⟨-, rfl⟩, query, _, ⟨hquery, rfl⟩, g, n₂, hsolve, h⟩ := h
  obtain ⟨r, hproject, rfl⟩ := NetworkM.returns_onRegistry.mp h
  exact ⟨n₁, evidence, query, g, n₂, r, Keeps.ensurePolicies.of_returns hensure, hquery, hsolve,
    hproject, rfl⟩

theorem isNew_of_returns_ask {observed : List (String × String)} {names : List String}
    {target : Target} (h : Returns (NetworkM.ask observed names target) n f m) :
    f.IsNew n.registry m.registry := by
  obtain ⟨n₁, _, _, g, n₂, r, h₁, -, hsolve, hproject, rfl⟩ := exists_returns_answer_of_ask h
  have h₂ : n₁.Continues n₂ := (Keeps.solving _).of_returns hsolve
  exact (isNew_of_returns_project hproject).since (h₁.later.trans h₂.later)

theorem exists_returns_ask_of_utilityFactor {observed : List (String × String)} {names : List String}
    {utility : Option String} (h : Returns (NetworkM.utilityFactor observed names utility) n f m) :
    ∃ target, n.utilityTarget utility = .ok target ∧
      Returns (NetworkM.ask observed names target) n f m := by
  unfold NetworkM.utilityFactor at h
  simp only [returns_bind, returns_get, returns_except] at h
  obtain ⟨_, _, ⟨rfl, rfl⟩, target, _, ⟨htarget, rfl⟩, hask⟩ := h
  exact ⟨target, htarget, hask⟩

/-- The calls that return a factor make it. -/
theorem isNew_of_returns_call (h : Returns c.run n (.factor f) m) : f.IsNew n.registry m.registry := by
  cases c with
  | joint observed names =>
      obtain ⟨g, n', hask, hpure⟩ := returns_bind.mp h
      obtain ⟨hfactor, rfl⟩ := returns_pure.mp hpure
      cases hfactor
      exact isNew_of_returns_ask hask
  | utilityFactor observed names utility =>
      obtain ⟨g, n', hfactor, hpure⟩ := returns_bind.mp h
      obtain ⟨heq, rfl⟩ := returns_pure.mp hpure
      cases heq
      obtain ⟨target, -, hask⟩ := exists_returns_ask_of_utilityFactor hfactor
      exact isNew_of_returns_ask hask
  | _ =>
      obtain ⟨_, _, -, hpure⟩ := returns_bind.mp h
      cases (returns_pure.mp hpure).1

/-- The factors that some calls return, one after the other. -/
def factorsOf (n : Network α) : List (Call α) → List (Factor α)
  | [] => []
  | c :: calls =>
    match runFrom c.run n with
    | (.ok (.factor f), m) => f :: m.factorsOf calls
    | (_, m) => m.factorsOf calls

/-- Calls that replace no table number the factors that they return upwards. -/
theorem pairwise_factorsOf {calls : List (Call α)}
    (hcalls : ∀ c ∈ calls, ∀ name table, c ≠ .replaceTable name table) :
    (n.factorsOf calls).Pairwise (·.id < ·.id) ∧
      ∀ f ∈ n.factorsOf calls, n.registry.nextFactor ≤ f.id := by
  induction calls generalizing n with
  | nil => exact ⟨.nil, by simp [factorsOf]⟩
  | cons c calls ih =>
      obtain ⟨hc, hcalls⟩ := List.forall_mem_cons.mp hcalls
      have hle : n.registry.nextFactor ≤ (runFrom c.run n).2.registry.nextFactor :=
        (Call.keeps_continues hc n).later.le
      obtain ⟨hpairwise, hnext⟩ := ih (n := (runFrom c.run n).2) hcalls
      have hothers : ∀ f ∈ (runFrom c.run n).2.factorsOf calls, n.registry.nextFactor ≤ f.id :=
        fun f hf => hle.trans (hnext f hf)
      unfold factorsOf
      split
      next f m hrun =>
        have hnew := isNew_of_returns_call (c := c) hrun
        rw [hrun] at hpairwise hnext hothers
        refine ⟨List.pairwise_cons.mpr ⟨fun g hg => hnew.lt.trans_le (hnext g hg), hpairwise⟩,
          List.forall_mem_cons.mpr ⟨hnew.le, hothers⟩⟩
      next hrun =>
        rw [hrun] at hpairwise hothers
        exact ⟨hpairwise, hothers⟩

end Network

end

end Influence
