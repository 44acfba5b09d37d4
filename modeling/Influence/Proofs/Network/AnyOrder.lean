import Influence.Proofs.Network.Ancestors
import Influence.Proofs.Network.Parallel
import Influence.Proofs.Network.Posterior
import Influence.Proofs.Network.Room

/-! # Policies and the order of elimination

Before a decision is resolved the hidden variables are eliminated in the order of a heuristic.  In exact
arithmetic the policies of a network do not depend on that order
(`Network.returns_solvePolicies_iff_of_perm`): whatever permutation of the hidden variables is taken
before each decision, the decisions are resolved or not, and the policies are the same.

The order decides about the tables that are made on the way, so there must be room for those of both
orders.  There may be room in one order alone (`Network.exists_solvePolicies_minDegree_alone`). -/

namespace Influence

section

open scoped Exact

variable {sizes : VariableId → ℕ}

/-! ### One decision -/

namespace StepM

/-- Two runs pick the hidden variables in some order. -/
theorem counterpart_of_perm {s s' : Setting ℚ} {pick pick' : Pick ℚ} (hpos : ∀ id, 0 < sizes id)
    (hdeps : s'.dependencies = s.dependencies) (horder : s'.decisionOrder = s.decisionOrder)
    (hpick : ∀ d w, (pick d w).Perm (w.hidden s [] [] true))
    (hpick' : ∀ d w, (pick' d w).Perm (w.hidden s' [] [] true)) :
    Counterpart sizes
      (fun p q => Table.Alike sizes p.1 q.1 ∧ Table.Alike sizes p.2 q.2)
      (fun _ w w' => Tables.Alike sizes w.tables w'.tables ∧ w.SameScope w') s s' pick pick' := by
  rintro d ds w w' p hw hw' ⟨halike, hscope⟩ hdecide -
  obtain ⟨hsize, -⟩ := Axes.sized_cons.mp hw.sized
  have hleft := Workspace.alike_eliminateAll hw.fits (hpick d w)
    ((Workspace.sized_hidden hw'.fits).subset (hpick' d w').subset)
    ((hscope.perm_hidden hdeps horder).trans ((hpick' d w').map _).symm) halike
  obtain ⟨q, hq, hcombined, hrule⟩ := hleft.exists_decide hpos hsize hdecide
  have hsub := Tables.ids_subset_of_decide_eliminateAll hpos hw.fits hsize hdecide
  refine ⟨q, (Tables.decide_congr hdeps d _).trans hq, ⟨hcombined, hrule⟩, fun w₁ w₁' hres hres' => ?_⟩
  refine ⟨?_, hscope.resolves hres hres' hrule.ids hsub⟩
  rw [hres.tables, hres'.tables]
  exact halike.append (Tables.alike_singleton hrule)

end StepM

/-! ### All decisions -/

namespace Network

variable {n : Network ℚ} {ps : List (Policy ℚ)}

theorem Compiled.withConfig (hn : n.Compiled) (config : Config ℚ) :
    ({ n with config } : Network ℚ).Compiled where
  declared := hn.declared
  checked := hn.checked
  complete := hn.complete
  parents := hn.parents
  perm := hn.perm
  respects := hn.respects
  factors := hn.factors.imp fun _ _ h => ⟨h.axes, h.shaped⟩
  ascending := hn.ascending
  numbered := hn.numbered
  dependencies := hn.dependencies
  weights := hn.weights

/-- One order of elimination after another gives the same policies. -/
theorem Compiled.follows_of_perm (hn : n.Compiled) (hps : n.policies = []) (config : Config ℚ)
    {pick pick' : Setting ℚ → StepM.Pick ℚ}
    (hpick : ∀ s d w, (pick s d w).Perm (w.hidden s [] [] true))
    (hpick' : ∀ s d w, (pick' s d w).Perm (w.hidden s [] [] true)) :
    Follows (fun _ => True) (fun as _ bs _ => bs = as) (runFrom (n.resolveAllBy pick) n.registry)
      (runFrom (({ n with config } : Network ℚ).resolveAllBy pick') n.registry) := by
  obtain ⟨s, hs⟩ := hn.exists_setting
  have hdiagram : n.SameDiagram { n with config } := ⟨rfl, fun _ => rfl, rfl⟩
  have hs' : ({ n with config } : Network ℚ).setting = .ok { s with heuristic := config.heuristic } := by
    rw [hdiagram.exists_setting hs]
    obtain ⟨-, -, hweights⟩ := setting_eq_ok hs
    rw [← hweights]
  have hpos : ∀ id, 0 < n.sizes id := hn.valid_zero
  refine (Follows.policies hn (hn.withConfig config) hdiagram hps hps (.refl _) (.refl _) hs hs'
    (fun p q h => h.2.ids)
    (StepM.counterpart_of_perm hpos rfl rfl (hpick s) (hpick' _)) ?_).imp (fun _ => id) ?_
  · intro w w' hreach hreach' heliminated heliminated'
    have htables : w'.tables = w.tables := hreach'.tables_eq.trans hreach.tables_eq.symm
    refine ⟨?_, ?_⟩
    · rw [htables]
      refine .refl fun t ht => ?_
      rw [hreach.tables_eq] at ht
      exact Tables.fits_sumUtilities s n.registry hn.fits_tables t ht
    · constructor
      case ids =>
        intro id
        rw [htables]
      case eliminated => exact fun id => (heliminated' id).trans (heliminated id).symm
      case handles => exact hreach'.handles.trans hreach.handles.symm
      case issued =>
        rw [hreach.tables_eq, hreach.handles]
        exact hn.ids_sumUtilities_subset s
  · rintro as _ bs _ - h
    refine (List.forall₂_eq_eq_eq ▸ h.imp ?_ : as = bs).symm
    rintro _ _ ⟨v, hv, p, q, ⟨hcombined, hrule⟩, hpaired, hsub, rfl, rfl⟩
    have htable := hdiagram.table_policyFor hn hv hrule hsub
    have hexpected := hdiagram.expectedUtility_policyFor hn hv hcombined fun id hid =>
      hsub (hpaired.perm.subset hid)
    rw [Policy.mk.injEq]
    exact ⟨rfl, rfl, htable.symm, hexpected.symm⟩

/-- The same policies are found under other options and in other orders. -/
theorem Compiled.returns_solvePoliciesBy_iff (hn : n.Compiled) (hps : n.policies = [])
    (ps : List (Policy ℚ)) (config : Config ℚ) {pick pick' : Setting ℚ → StepM.Pick ℚ}
    (hpick : ∀ s d w, (pick s d w).Perm (w.hidden s [] [] true))
    (hpick' : ∀ s d w, (pick' s d w).Perm (w.hidden s [] [] true)) :
    (∃ m', Returns (NetworkM.solvePoliciesBy pick') { n with config } ps m') ↔
      ∃ n', Returns (NetworkM.solvePoliciesBy pick) n ps n' := by
  rw [NetworkM.exists_returns_solvePoliciesBy (n := { n with config }) hps,
    NetworkM.exists_returns_solvePoliciesBy hps]
  split
  next => rfl
  next =>
    constructor
    · rintro ⟨r, h⟩
      obtain ⟨_, r', h', rfl⟩ :=
        (hn.withConfig config).follows_of_perm hps n.config hpick' hpick ps r h trivial
      exact ⟨r', h'⟩
    · rintro ⟨r, h⟩
      obtain ⟨_, r', h', rfl⟩ := hn.follows_of_perm hps config hpick hpick' ps r h trivial
      exact ⟨r', h'⟩

end Network

end

namespace Network

variable {n : Network ℚ} {definition : Definition ℚ} {config : Config ℚ}

theorem compile_withHeuristic (h : compile definition config = .ok n) (heuristic : Heuristic) :
    compile definition { config with heuristic } =
      .ok { n with config := { config with heuristic } } := by
  obtain ⟨r, h⟩ := compile_eq_ok_iff.mp h
  exact compile_eq_ok_iff.mpr ⟨r, h.check, h.declare, h.checkEntries, h.checkComplete, h.order,
    h.tables, h.resolve, h.entries, rfl, h.parents, h.dependencies, h.policies⟩

/-- **The policies do not depend on the order of elimination.**  A definition that compiles does so
under every heuristic, and the decisions are resolved by the same policies under all of them, and
also if the variables that are hidden before each decision are eliminated in any other order, provided
that there is room for the tables of both orders. -/
theorem returns_solvePolicies_iff_of_perm (h : compile definition config = .ok n)
    (hroom : n.HasRoomFor .solvePolicies) :
    (∀ heuristic, ∃ m, compile definition { config with heuristic } = .ok m ∧
      (m.HasRoomFor .solvePolicies → ∀ ps, (∃ m', Returns NetworkM.solvePolicies m ps m') ↔
        ∃ n', Returns NetworkM.solvePolicies n ps n')) ∧
    ∀ pick : Setting ℚ → StepM.Pick ℚ, (∀ s d w, (pick s d w).Perm (w.hidden s [] [] true)) →
      HasRoom (NetworkM.solvePoliciesBy pick) n →
      ∀ ps, (∃ n', Returns (NetworkM.solvePoliciesBy pick) n ps n') ↔
        ∃ n', Returns NetworkM.solvePolicies n ps n' := by
  obtain ⟨hn, hps⟩ := compiled_of_compile h
  have hexact := hn.of_isSmall hroom.tables Exact.build
  have hsame : ∀ ps, (∃ n', Returns (@NetworkM.solvePolicies ℚ Exact.build _) n ps n') ↔
      ∃ n', Returns NetworkM.solvePolicies n ps n' := fun ps => exists_congr fun _ =>
    returns_solvePolicies_iff_of_hasRoom h hroom.tables hroom.rules Exact.build .release
  refine ⟨fun heuristic => ⟨_, compile_withHeuristic h heuristic, fun hroom' ps => ?_⟩,
    fun pick hpick hroom' ps => ?_⟩
  · have hcompile := compile_withHeuristic h heuristic
    have hiff := hexact.returns_solvePoliciesBy_iff hps ps { config with heuristic }
      StepM.perm_heuristicPick StepM.perm_heuristicPick
    refine Iff.trans (exists_congr fun _ => ?_) (hiff.trans (hsame ps))
    exact returns_solvePolicies_iff_of_hasRoom hcompile hroom'.tables hroom'.rules .release Exact.build
  · have hportable := hn.portable_solvePoliciesBy hroom.tables hps fun s d w => (hpick s d w).subset
    have hiff := hexact.returns_solvePoliciesBy_iff hps ps n.config StepM.perm_heuristicPick hpick
    refine Iff.trans (exists_congr fun _ => ?_) (hiff.trans (hsame ps))
    exact hportable.returns_iff hroom' .release Exact.build

/-- The wildcatter may also eliminate the variables backwards. -/
theorem returns_solvePolicies_iff_of_perm_wildcat : ∃ n ps n',
    compile wildcat {} = .ok n ∧ Returns NetworkM.solvePolicies n ps n' ∧
    (∀ heuristic, ∃ m m', compile wildcat { heuristic } = .ok m ∧
      Returns NetworkM.solvePolicies m ps m') ∧
    ∃ n'', Returns (NetworkM.solvePoliciesBy fun s _ w => (w.hidden s [] [] true).reverse) n ps n'' := by
  obtain ⟨n, hcompile, hroom, hrooms, hbackwards, hpolicies⟩ := exists_ok_of_toOption
    (x := compile wildcat {})
    (P := fun n => n.HasRoomFor .solvePolicies ∧
      (∀ heuristic ∈ [.minDegree, .declaration],
        ({ n with config := { heuristic } } : Network ℚ).HasRoomFor .solvePolicies) ∧
      HasRoom (NetworkM.solvePoliciesBy fun s _ w => (w.hidden s [] [] true).reverse) n ∧
      ∃ ps ∈ (runFrom NetworkM.solvePolicies n).1.toOption, True) (by decide +kernel)
  obtain ⟨ps, n', hpolicies, -⟩ := exists_returns_of_toOption hpolicies
  obtain ⟨hheuristic, hpick⟩ := returns_solvePolicies_iff_of_perm hcompile hroom
  refine ⟨n, ps, n', hcompile, hpolicies, fun heuristic => ?_, ?_⟩
  · obtain ⟨m, hm, hiff⟩ := hheuristic heuristic
    obtain rfl := Except.ok.inj ((compile_withHeuristic hcompile heuristic).symm.trans hm)
    have hmem : heuristic ∈ [.minDegree, .declaration] := by cases heuristic <;> decide
    obtain ⟨m', hm'⟩ := (hiff (hrooms heuristic hmem) ps).mpr ⟨n', hpolicies⟩
    exact ⟨_, m', hm, hm'⟩
  · exact (hpick _ (fun _ _ _ => List.reverse_perm _) hbackwards ps).mpr ⟨n', hpolicies⟩

/-- A bet, and fifteen dice that depend on a coin.  The dice and the coin together have `2 ^ 61` joint
outcomes. -/
def hub : Definition ℚ where
  declarations := ⟨"coin", "chance", ["heads", "tails"]⟩ ::
    letters.dropLast.map (fun name => ⟨name, "chance", letters⟩) ++
      [⟨"bet", "decision", ["no", "yes"]⟩, ⟨"prize", "utility", []⟩]
  entries := ⟨"coin", [], some [1 / 2, 1 / 2]⟩ ::
    letters.dropLast.map (fun name => ⟨name, ["coin"], some (List.replicate 32 (1 / 16))⟩) ++
      [⟨"bet", [], none⟩, ⟨"prize", ["bet"], some [0, 1]⟩]

/-- If the coin is eliminated after the dice the bet is resolved.  In the order of declaration it is
eliminated before them, and there is no room for the product of what depends on it. -/
theorem exists_solvePolicies_minDegree_alone : ∃ (d : Definition ℚ) (n m : Network ℚ),
    compile d {} = .ok n ∧ compile d { heuristic := .declaration } = .ok m ∧
    (∃ ps n', Returns NetworkM.solvePolicies n ps n') ∧
    ¬∃ ps m', Returns NetworkM.solvePolicies m ps m' := by
  obtain ⟨n, hcompile, hreturns, hfails⟩ := exists_ok_of_toOption (x := compile hub {})
    (P := fun n => (∃ ps ∈ (runFrom NetworkM.solvePolicies n).1.toOption, True) ∧
      (runFrom NetworkM.solvePolicies
        ({ n with config := { heuristic := .declaration } } : Network ℚ)).1.toOption = none)
    (by decide +kernel)
  obtain ⟨ps, n', hreturns, -⟩ := exists_returns_of_toOption hreturns
  refine ⟨hub, n, _, hcompile, compile_withHeuristic hcompile .declaration, ⟨ps, n', hreturns⟩, ?_⟩
  rintro ⟨ps, m', h⟩
  rw [h] at hfails
  cases hfails

end Network

end Influence
