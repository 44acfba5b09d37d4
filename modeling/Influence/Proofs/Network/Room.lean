import Influence.Proofs.Builds
import Influence.Proofs.Network.Regime

/-! # Networks in all builds

There is room for a call on a network if there is room for the tables of the network, and the bounded runs
that resolve its decisions and answer the call are not stopped (`Network.HasRoomFor`).  Then every build
answers the call in the same way (`Network.IsVersion.portable_call`).

What holds of the network in one build then holds in all of them: it is compiled from the same definition
(`Network.compile_eq_ok_of_isSmall`), and calls have led to the same version of it
(`Network.IsVersion.of_hasRoom`). -/

namespace Influence

namespace Network

variable {α : Type} {n f m : Network α} {ps : List (Policy α)} {r r' : Registry}

/-- There is room for the tables of the network. -/
def IsSmall (n : Network α) : Prop := ∀ f ∈ n.factors, f.axes.count < Build.room

instance : Decidable n.IsSmall := inferInstanceAs (Decidable (∀ _ ∈ _, _))

/-! ### Compiling -/

theorem Compiled.small_factors [Build] (hn : n.Compiled) (hsmall : n.IsSmall) :
    ∀ f ∈ n.factors, f.table.Small n.sizes := by
  intro f hf
  obtain ⟨m, -, htable⟩ := exists_left_of_mem hn.factors hf
  exact .of_shaped htable.shaped (hn.sized_handles.subset (hn.axes_subset_handles hf)) (hsmall f hf)

/-- There is room for the tables if there is room for one over each variable and its parents. -/
theorem Compiled.isSmall_iff [Build] (hn : n.Compiled) : n.IsSmall ↔
    ∀ v ∈ n.nodes, v.kind ≠ .decision → (n.parentHandles v ++ [v.handle]).count < Build.room := by
  constructor
  · intro hsmall v hv hkind
    obtain ⟨f, hf, htable⟩ := exists_right_of_mem hn.factors
      (List.mem_filter.mpr ⟨hn.mem_orderedNodes.mpr hv, by simpa using hkind⟩)
    exact htable.axes ▸ hsmall f hf
  · intro hroom f hf
    obtain ⟨v, hv, htable⟩ := exists_left_of_mem hn.factors hf
    obtain ⟨hv, hkind⟩ := List.mem_filter.mp hv
    rw [htable.axes]
    exact hroom v (hn.mem_orderedNodes.mp hv) (by simpa using hkind)

theorem Compiled.of_isSmall [Build] (hn : n.Compiled) (hsmall : n.IsSmall) :
    ∀ B : Build, @Compiled α B n := by
  have htables := hn.small_factors hsmall
  obtain ⟨hdeclared, hchecked, hcomplete, hparents, hperm, hrespects, hfactors, hascending,
    hnumbered, hdependencies, hweights⟩ := hn
  obtain ⟨hlength, hfactors⟩ := List.forall₂_iff_zip.mp hfactors
  have haxes := fun m f hmem => (hfactors (a := m) (b := f) hmem).axes
  intro B
  refine ⟨hdeclared, hchecked, hcomplete, hparents, hperm, hrespects, ?_, hascending, hnumbered,
    hdependencies, hweights⟩
  refine List.forall₂_iff_zip.mpr ⟨hlength, fun {m f} hmem => ⟨haxes m f hmem, ?_⟩⟩
  exact (htables f (List.of_mem_zip hmem).2).wellFormed.shaped

section

variable [Cell α] {definition : Definition α} {config : Config α} {nodes : List Node}
  {entries : List (Entry α)}

/-- Rows are normalized along the last axis, where the variable of a table is already. -/
theorem Table.normalizeFor_of_last [Build] {t : Table α} {front : Axes} {v : Variable}
    (haxes : t.axes = front ++ [v]) (hnodup : t.axes.ids.Nodup) :
    t.normalizeFor v = ⟨t.axes, ((Table.rows v.arity t.cells).flatMap Cell.normalize).toArray⟩ := by
  rw [Table.normalizeFor, Table.moveLast_of_last haxes hnodup]

theorem returns_compileTable_of_isSmall [Build] {m : Node} {f : Factor α}
    (h : Returns (compileTable config nodes entries m) r f r') (hroom : f.axes.count < Build.room) :
    ∀ B : Build, Returns (@compileTable α _ B config nodes entries m) r f r' := by
  obtain ⟨axes, table, haxes, htable, hfinite, hnodup, hsize, h⟩ := returns_compileTable_iff.mp h
  rw [Table.normalizeFor_of_last haxes hnodup] at h
  have hcount : axes.count < Build.room := by
    split at h
    · rwa [h.1] at hroom
    · rwa [h.1] at hroom
  rw [Axes.size_of_lt hcount] at hsize
  intro B
  refine returns_compileTable_iff.mpr ⟨axes, table, haxes, htable, hfinite, hnodup, ?_, ?_⟩
  · rw [hsize, Axes.size_of_lt hcount]
  · rwa [Table.normalizeFor_of_last haxes hnodup]

theorem returns_compileTables_of_isSmall [Build] {ms : List Node} {fs : List (Factor α)}
    (h : Returns (ms.mapM (compileTable config nodes entries)) r fs r')
    (hroom : ∀ f ∈ fs, f.axes.count < Build.room) :
    ∀ B : Build, Returns (ms.mapM (@compileTable α _ B config nodes entries)) r fs r' := by
  induction ms generalizing r fs with
  | nil => exact fun _ => returns_mapM_nil.mpr (returns_mapM_nil.mp h)
  | cons m ms ih =>
      obtain ⟨f, r₁, rest, hfirst, hrest, rfl⟩ := returns_mapM_cons.mp h
      obtain ⟨hf, hroom⟩ := List.forall_mem_cons.mp hroom
      have hfirst := returns_compileTable_of_isSmall hfirst hf
      have hrest := ih hrest hroom
      exact fun B => returns_mapM_cons.mpr ⟨f, r₁, rest, hfirst B, hrest B, rfl⟩

/-- A definition compiles to the same network in every build if there is room for its tables. -/
theorem compile_eq_ok_of_isSmall [Build] (h : compile definition config = .ok n) (hsmall : n.IsSmall) :
    ∀ B : Build, @compile α _ B definition config = .ok n := by
  obtain ⟨r, hcheck, hdeclare, hentries, hcomplete, horder, htables, hweights, hentries',
    hconfig, hparents, hdependencies, hpolicies⟩ := compile_eq_ok_iff.mp h
  have htables := returns_compileTables_of_isSmall htables hsmall
  intro B
  exact compile_eq_ok_iff.mpr
    ⟨r, hcheck, hdeclare, hentries, hcomplete, horder, htables B, hweights, hentries', hconfig, hparents,
      hdependencies, hpolicies⟩

theorem Fresh.of_isSmall [Build] (hf : f.Fresh) (hsmall : f.IsSmall) : ∀ B : Build, @Fresh α B _ f := by
  have hcompiled := hf.compiled.of_isSmall hsmall
  have hagain := compile_eq_ok_of_isSmall hf.again hsmall
  have hpolicies := hf.policies
  exact fun B => ⟨hcompiled B, hpolicies, hagain B⟩

/-! ### Resolving decisions -/

theorem Compiled.holds_small [Build] (hn : n.Compiled) (hsmall : n.IsSmall)
    (hps : ∀ p ∈ n.policies, (handlesOf n.nodes (p.given ++ [p.name])).count < Build.room) :
    ∀ B : Build, (Regime.small B n.sizes).Holds n := by
  have hcompiled := hn.of_isSmall hsmall
  have hfactors := hn.small_factors hsmall
  have hsized := hn.sized_handles
  exact fun B => ⟨hcompiled B, hsized, hfactors, hps⟩

/-- A call on a network whose tables there is room for is answered in the same way by all builds. -/
theorem Compiled.portable_call [Build] (hn : n.Compiled) (hsmall : n.IsSmall)
    (hps : ∀ p ∈ n.policies, (handlesOf n.nodes (p.given ++ [p.name])).count < Build.room)
    {c : Call α} (hc : c.IsQuestion) :
    Portable (fun _ n' => ∃ k ps, n' = n.advanced k ps ∧
      ∀ p ∈ ps, (handlesOf n.nodes (p.given ++ [p.name])).count < Build.room) c.run n := by
  have hholds := hn.holds_small hsmall hps
  intro B
  refine (Regime.agree_call (hholds B) hc).imp (fun _ _ => trivial) ?_
  rintro _ _ ⟨k, ps, rfl, hgrown⟩
  exact ⟨k, ps, rfl, hgrown.policies⟩

/-- Decisions for which there are no rules yet are resolved in the same way by all builds. -/
theorem Compiled.portable_solvePoliciesBy [Build] (hn : n.Compiled) (hsmall : n.IsSmall)
    (hps : n.policies = []) {pick : Setting α → StepM.Pick α}
    (hpick : ∀ s d w, pick s d w ⊆ w.hidden s [] [] true) :
    Portable (fun _ _ => True) (NetworkM.solvePoliciesBy pick) n := by
  have hholds := hn.holds_small hsmall (by simp [hps])
  intro B
  exact (Regime.agree_solvePoliciesBy (hholds B) hpick).imp (fun _ => id) fun _ _ _ => trivial

/-- What resolves the decisions of a compiled network in one build does so in every build. -/
theorem returns_solvePolicies_iff_of_hasRoom [Build] (h : compile definition config = .ok n)
    (hsmall : n.IsSmall) (hroom : HasRoom NetworkM.solvePolicies n) :
    ∀ B B' : Build, Returns (@NetworkM.solvePolicies α B _) n ps m ↔
      Returns (@NetworkM.solvePolicies α B' _) n ps m := by
  obtain ⟨hn, hps⟩ := compiled_of_compile h
  exact (hn.portable_solvePoliciesBy hsmall hps fun s d w =>
    (StepM.perm_heuristicPick s d w).subset).returns_iff hroom

/-! ### Versions of a network -/

/-- Rules that one build finds are found by every build, and there is room for them. -/
theorem Fresh.finds_of_hasRoom [Build] (hf : f.Fresh) (hsmall : f.IsSmall)
    (hopen : ¬f.dependencies.isEmpty) (hfinds : f.Finds ps) {k : ℕ} {qs : List (Policy α)}
    (hroom : HasRoom NetworkM.solvePolicies (f.advanced k qs)) :
    (∀ B : Build, @Finds α B _ f ps) ∧
      ∀ p ∈ ps, (handlesOf f.nodes (p.given ++ [p.name])).count < Build.room := by
  have hclear : (f.advanced k []).Compiled :=
    hf.compiled.update (r := f.registry.after k) rfl (Nat.le_add_right _ k) []
  have hholds := hclear.holds_small hsmall (fun p hp => absurd hp List.not_mem_nil)
  obtain ⟨k', hreturns⟩ := hfinds.returns_solvePolicies hf hopen k []
  have hfresh := hf.of_isSmall hsmall
  have hportable : Portable (fun _ n' => ∀ p ∈ n'.policies,
      (handlesOf f.nodes (p.given ++ [p.name])).count < Build.room)
      NetworkM.solvePolicies (f.advanced k []) := by
    intro B
    refine (Regime.agree_solvePolicies (hholds B)).imp (fun _ _ => trivial) ?_
    rintro _ _ ⟨k, ps, rfl, hgrown⟩
    exact hgrown.policies
  obtain ⟨hall, hps⟩ := hportable.returns (show HasRoom _ (f.advanced k []) from hroom) hreturns
  refine ⟨?_, hps⟩
  intro B
  have hfound := hall B
  rw [NetworkM.solvePolicies_eq_solvePoliciesBy] at hfound
  obtain ⟨r, hr⟩ := (if_neg (show ¬(f.advanced k []).dependencies.isEmpty from hopen)).mp
    ((NetworkM.exists_returns_solvePoliciesBy rfl).mp ⟨_, hfound⟩)
  rw [← resolveAll_eq_resolveAllBy, (hfresh B).resolveAll_advanced] at hr
  exact ⟨k, r, hr⟩

/-- The network that calls have led to in one build is a version of the compiled one in every build, and
there is room for its rules. -/
theorem IsVersion.of_hasRoom [Build] (hf : f.Fresh) (hsmall : f.IsSmall) (h : f.IsVersion m)
    (hroom : HasRoom NetworkM.solvePolicies m) :
    (∀ B : Build, @IsVersion α B _ f m) ∧
      ∀ p ∈ m.policies, (handlesOf m.nodes (p.given ++ [p.name])).count < Build.room := by
  obtain ⟨k, ps, hps, rfl⟩ := h
  have hnone : ps = [] → (∀ B : Build, @IsVersion α B _ f (f.advanced k ps)) ∧
      ∀ p ∈ ps, (handlesOf f.nodes (p.given ++ [p.name])).count < Build.room := by
    rintro rfl
    exact ⟨fun B => ⟨k, [], .inl rfl, rfl⟩, fun p hp => absurd hp List.not_mem_nil⟩
  rcases hps with hnil | ⟨-, hnil⟩ | ⟨hopen, hfinds⟩
  · exact hnone hnil
  · exact hnone hnil
  · obtain ⟨hall, hfit⟩ := hf.finds_of_hasRoom hsmall hopen hfinds hroom
    exact ⟨fun B => ⟨k, ps, .inr (.inr ⟨hopen, hall B⟩), rfl⟩, hfit⟩

/-! ### Room for a call -/

/-- There is room for a call: for the tables of the network, and for those that it takes to resolve its
decisions and to answer. -/
structure HasRoomFor (n : Network α) (c : Call α) : Prop where
  tables : n.IsSmall
  rules : HasRoom NetworkM.solvePolicies n
  answer : HasRoom c.run n

instance {c : Call α} : Decidable (n.HasRoomFor c) :=
  decidable_of_iff (n.IsSmall ∧ HasRoom NetworkM.solvePolicies n ∧ HasRoom c.run n)
    ⟨fun h => ⟨h.1, h.2.1, h.2.2⟩, fun h => ⟨h.tables, h.rules, h.answer⟩⟩

theorem HasRoomFor.solvePolicies {c : Call α} (h : n.HasRoomFor c) : n.HasRoomFor .solvePolicies :=
  ⟨h.tables, h.rules, h.rules.map Answer.policies⟩

/-- **With room for it a question is answered in the same way by all builds.** -/
theorem IsVersion.call_eq [Build] (hf : f.Fresh) (h : f.IsVersion m) {c : Call α} (hc : c.IsQuestion)
    (hroom : m.HasRoomFor c) : ∀ B B' : Build, runFrom (@Call.run α B _ c) m = runFrom (@Call.run α B' _ c) m := by
  obtain ⟨-, hps⟩ := h.of_hasRoom hf (by obtain ⟨_, _, -, rfl⟩ := h; exact hroom.tables) hroom.rules
  obtain ⟨k, ps, -, rfl⟩ := h
  have hcompiled : (f.advanced k ps).Compiled :=
    hf.compiled.update (r := f.registry.after k) rfl (Nat.le_add_right _ k) ps
  exact (hcompiled.portable_call hroom.tables hps hc).eq_of_hasRoom hroom.answer

/-- **What calls lead to in the build that runs.**  With room for a call on a network that calls have led
to, it is a version of a network that every build compiles, and all of them answer the call in the same
way. -/
theorem IsReachable.exists_isVersion (h : m.IsReachable) {c : Call α} (hc : c.IsQuestion)
    (hroom : m.HasRoomFor c) :
    ∃ f : Network α, (∀ B : Build, @Fresh α B _ f ∧ @IsVersion α B _ f m) ∧
      ∀ B : Build, runFrom (@Call.run α B _ c) m = runFrom (@Call.run α .release _ c) m := by
  obtain ⟨definition, config, n, calls, hcompile, rfl⟩ := h
  obtain ⟨f, hf, hversion⟩ := (fresh_of_compile hcompile).exists_isVersion_afterCalls calls
  generalize n.afterCalls calls = m at hversion hroom
  have hsmall : f.IsSmall := by
    obtain ⟨_, _, -, rfl⟩ := hversion
    exact hroom.tables
  have hfresh := hf.of_isSmall hsmall
  have hversions := (hversion.of_hasRoom hf hsmall hroom.rules).1
  have hcall := hversion.call_eq hf hc hroom
  exact ⟨f, fun B => ⟨hfresh B, hversions B⟩, fun B => hcall B .release⟩

/-! ### Questions to a compiled network -/

theorem hasRoom_ensurePolicies (hroom : HasRoom NetworkM.solvePolicies n) :
    HasRoom NetworkM.ensurePolicies n := by
  unfold HasRoom
  change isStopped (runFrom (if !n.dependencies.isEmpty && n.policies.isEmpty then
    @NetworkM.solvePolicies α Build.bounded _ >>= fun _ => pure () else pure ()) n).1 = false
  split
  · exact hroom.map fun _ => ()
  · rfl

omit [Cell α] in
theorem returns_congr_of_call {β : Type} {x y : NetworkM α β} {g : β → Answer α} {b : β}
    (hg : Function.Injective g) (h : runFrom (do return g (← x)) n = runFrom (do return g (← y)) n) :
    Returns x n b m ↔ Returns y n b m := by
  have hcall : ∀ z : NetworkM α β, Returns z n b m ↔ Returns (do return g (← z)) n (g b) m := by
    intro z
    simp only [returns_bind, returns_pure]
    constructor
    · exact fun hz => ⟨b, m, hz, rfl, rfl⟩
    · rintro ⟨b', m', hz, hb, rfl⟩
      rwa [← hg hb]
  rw [hcall x, hcall y, Returns, Returns, h]

theorem returns_ensurePolicies_iff_of_hasRoom [Build] (h : compile definition config = .ok n)
    (hsmall : n.IsSmall) (hroom : HasRoom NetworkM.solvePolicies n) {u : PUnit} :
    ∀ B B' : Build, Returns (@NetworkM.ensurePolicies α B _) n u m ↔
      Returns (@NetworkM.ensurePolicies α B' _) n u m := by
  obtain ⟨hn, hps⟩ := compiled_of_compile h
  have hholds := hn.holds_small hsmall (by simp [hps])
  have hportable : Portable (fun _ _ => True) NetworkM.ensurePolicies n := fun B =>
    (Regime.agree_ensurePolicies (hholds B)).imp (fun _ => id) fun _ _ _ => trivial
  exact hportable.returns_iff (hasRoom_ensurePolicies hroom)

/-- A question to a compiled network that there is room for is answered alike in all builds. -/
theorem call_eq_of_hasRoom [Build] (h : compile definition config = .ok n) {c : Call α}
    (hc : c.IsQuestion) (hroom : n.HasRoomFor c) :
    ∀ B B' : Build, runFrom (@Call.run α B _ c) n = runFrom (@Call.run α B' _ c) n :=
  (fresh_of_compile h).isVersion.call_eq (fresh_of_compile h) hc hroom

end

end Network

end Influence
