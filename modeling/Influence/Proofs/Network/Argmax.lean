import Influence.Proofs.Network.Causes
import Influence.Proofs.Network.Decisions
import Influence.Proofs.Table.BestRows
import Influence.Proofs.Table.View

/-! # Policies choose what is best in the table returned with them

The rule of a policy and its table of expected utilities are those of one resolved decision, each laid
out over the declared parents and the decision (`Network.IsBestChoice`).  Row by row the rule is the best
choice in the table (`Network.isBestChoice_of_returns_solvePolicies`), provided that there is room for the
tables that resolve the decisions: laying out changes neither, as long as one is a unit of multiplication,
and the rows of both come in the same order.  Without room a policy may have no cells at all
(`Network.exists_policy_without_cells`). -/

namespace Influence

section

open scoped Exact

variable {α : Type} [Cell α] {sizes : VariableId → ℕ}

/-! ### Rows side by side -/

omit [Cell α] in
theorem Axes.exists_valid_offset_eq {axes : Axes} (hnodup : axes.ids.Nodup)
    (hsized : axes.Sized sizes) (hzero : Assignment.Valid sizes fun _ => 0) {i : ℕ}
    (hi : i < axes.count) :
    ∃ x : Assignment, x.Valid sizes ∧ Layout.offset axes.distances (x.on axes) = i := by
  have hpos : ∀ a ∈ axes.arities, 0 < a := by
    intro a ha
    obtain ⟨v, hv, rfl⟩ := List.mem_map.mp ha
    rw [hsized v hv]
    exact hzero v.id
  obtain ⟨x, hx, hcoords⟩ := exists_valid_on_eq hnodup hsized hzero (Layout.inRange_coords hpos i)
  refine ⟨x, hx, ?_⟩
  rw [hcoords]
  exact Layout.offset_coords hi

namespace Table

variable {t u : Table α} {front : Axes} {d : Variable}

omit [Cell α] in
theorem Fits.length_rows (ht : t.Fits sizes) (hids : t.axes.ids = Axes.ids (front ++ [d]))
    (hsized : Axes.Sized sizes (front ++ [d])) : (rows d.arity t.cells).length = front.count := by
  have hfits := ht.of_ids hsized hids.symm
  have hpos : 0 < d.arity := hfits.wellFormed.arity_pos d (by simp)
  have hcells : t.cells.size = front.count * d.arity := by
    rw [← count_append_singleton]
    exact hfits.wellFormed.size_cells
  rw [rows, List.length_map, List.length_range, hcells, Nat.add_sub_assoc hpos, Nat.add_comm,
    Nat.add_mul_div_right _ _ hpos, Nat.div_eq_of_lt (by omega), Nat.zero_add]

/-- What holds of the rows at every assignment holds of the rows of two tables over the same axes, one
after the other. -/
theorem Fits.forall₂_rows {R : List α → List α → Prop} (ht : t.Fits sizes) (hu : u.Fits sizes)
    (htids : t.axes.ids = Axes.ids (front ++ [d])) (huids : u.axes.ids = Axes.ids (front ++ [d]))
    (hsized : Axes.Sized sizes (front ++ [d])) (hzero : Assignment.Valid sizes fun _ => 0)
    (h : ∀ x : Assignment, x.Valid sizes → R (rowAt t d x) (rowAt u d x)) :
    List.Forall₂ R (rows d.arity t.cells) (rows d.arity u.cells) := by
  have hnodup : (Axes.ids front).Nodup := by
    have hnodup := ht.wellFormed.nodup
    rw [htids, Axes.ids_append] at hnodup
    exact hnodup.of_append_left
  have hlength := ht.length_rows htids hsized
  refine List.forall₂_iff_get.mpr ⟨hlength.trans (hu.length_rows huids hsized).symm, ?_⟩
  intro i hi hi'
  obtain ⟨x, hx, rfl⟩ := Axes.exists_valid_offset_eq hnodup
    (hsized.subset (List.subset_append_left _ _)) hzero (hlength ▸ hi)
  have hleft := ht.getElem?_rows_of_ids htids hsized hx
  have hright := hu.getElem?_rows_of_ids huids hsized hx
  rw [List.getElem?_eq_getElem hi, Option.some.injEq] at hleft
  rw [List.getElem?_eq_getElem hi', Option.some.injEq] at hright
  rw [List.get_eq_getElem, List.get_eq_getElem, hleft, hright]
  exact h x hx

end Table

/-! ### Policies -/

namespace Network

variable {f n n' : Network α} {m : Node} {res : Resolved α} {p : Policy α} {ps : List (Policy α)}
  {s : Setting α} {r r' : Registry}

/-- The tables of a policy are those found for its decision, laid out over the declared parents and the
decision, the decision fastest.  Where the expected utilities are numbers, each row of the rule shares
one among the outcomes with the largest expected utility. -/
structure IsBestChoice (n : Network α) (res : Resolved α) (p : Policy α) : Prop where
  isFor : n.IsFor res.decision p
  length_table :
    p.table.length = Axes.count (handlesOf n.nodes p.given) * res.decision.arity
  length_expectedUtility :
    p.expectedUtility.length = Axes.count (handlesOf n.nodes p.given) * res.decision.arity
  laidOut : ∀ x : Assignment, x.Valid n.sizes →
    let axes := handlesOf n.nodes p.given ++ [res.decision]
    p.table[Layout.offset (Axes.distances axes) (x.on axes)]? = some (res.rule.table.valueAt x) ∧
    p.expectedUtility[Layout.offset (Axes.distances axes) (x.on axes)]? =
      some (res.combined.table.valueAt x)
  rows : List.Forall₂
    (fun values shares => (∀ a ∈ values, Cell.IsNumber a) → Table.IsArgmax values shares)
    (Table.rows res.decision.arity p.expectedUtility.toArray)
    (Table.rows res.decision.arity p.table.toArray)

variable [Cell.Unital α] [Cell.Ordered α]

/-- A policy made of what has been decided is a best choice. -/
theorem Compiled.isBestChoice_policyFor (hn : n.Compiled) (hm : m ∈ n.nodes)
    (hkind : m.kind = .decision) (hres : res.IsDecided n.sizes s m.handle)
    (hsub : res.rule.axes.ids ⊆ Axes.ids (n.parentHandles m ++ [m.handle])) :
    n.IsBestChoice res (n.policyFor m (res.combined.table, res.rule.table)) := by
  have hnodup := hn.nodup_family hm
  have hsized := hn.sized_handles.subset (hn.family_subset hm)
  have hpos : ∀ v ∈ n.parentHandles m ++ [m.handle], 0 < v.arity := fun v hv =>
    hn.arity_pos_handles (hn.family_subset hm hv)
  have hright := hres.paired.right
  have hleft := hres.paired.left
  have hsub' : res.combined.table.axes.ids ⊆ Axes.ids (n.parentHandles m ++ [m.handle]) :=
    fun id hid => hsub (hres.paired.perm.subset hid)
  obtain ⟨hrule, hruleIds⟩ := hright.layOut hnodup hpos hsized hsub
  obtain ⟨hcombined, hcombinedIds⟩ := hleft.layOut hnodup hpos hsized hsub'
  obtain ⟨ts, hts, hdecide⟩ := hres.decide
  have hbest := Tables.picksBest_of_decide hts (hn.sizes_handle hm) hdecide
  have hsize : Axes.count (n.parentHandles m ++ [m.handle]) =
      (n.parentHandles m).count * m.handle.arity := Table.count_append_singleton _ _
  constructor
  case isFor => exact ⟨m, hm, hkind, hres.decision.symm, rfl, rfl⟩
  case length_table =>
    rw [hres.decision]
    exact (hright.length_layOut hnodup hpos hsized hsub).trans hsize
  case length_expectedUtility =>
    rw [hres.decision]
    exact (hleft.length_layOut hnodup hpos hsized hsub').trans hsize
  case laidOut =>
    intro x hx
    rw [hres.decision]
    refine ⟨(hrule.getElem?_cells hsized hruleIds hx).trans ?_,
      (hcombined.getElem?_cells hsized hcombinedIds hx).trans ?_⟩
    · rw [hright.valueAt_layOut hnodup hpos hsized hsub hx]
    · rw [hleft.valueAt_layOut hnodup hpos hsized hsub' hx]
  case rows =>
    rw [hres.decision]
    change List.Forall₂ _ (Table.rows _ (res.combined.table.layOut _).cells.toList.toArray)
      (Table.rows _ (res.rule.table.layOut _).cells.toList.toArray)
    rw [Array.toArray_toList, Array.toArray_toList]
    refine hcombined.forall₂_rows hrule hcombinedIds hruleIds hsized hn.valid_zero fun x hx hrow =>
      Table.isArgmax_of_bestShares? hrow ?_
    have hset : ∀ k ∈ List.range m.handle.arity, (x.set m.handle k).Valid n.sizes := fun k hk =>
      hx.set (by rw [← hn.sizes_handle hm]; exact List.mem_range.mp hk)
    have hrows : ∀ {t : Table α}, t.Fits n.sizes →
        t.axes.ids ⊆ Axes.ids (n.parentHandles m ++ [m.handle]) →
        Table.rowAt (t.layOut (n.parentHandles m ++ [m.handle])) m.handle x =
          Table.rowAt t m.handle x := fun ht hids =>
      List.map_congr_left fun k hk => ht.valueAt_layOut hnodup hpos hsized hids (hset k hk)
    rw [hrows hleft hsub', hrows hright hsub]
    exact hbest x hx

/-- The policies found by a run are best choices. -/
theorem Compiled.isBestChoice_of_returns_resolveAll (hn : n.Compiled) (hps : n.policies = [])
    (hr : n.registry.Later r) (h : Returns n.resolveAll r ps r') :
    ∃ s rs w, n.setting = .ok s ∧ Returns (StepM.solveDecisions s) (.start r n.factors) rs w ∧
      List.Forall₂ n.IsBestChoice rs ps := by
  unfold resolveAll at h
  simp only [returns_bind, returns_except, Setting.returns_run] at h
  obtain ⟨fs, _, hworkingSet, s, _, ⟨hs, rfl⟩, rs, _, ⟨w, hsolve, -⟩, hpolicies⟩ := h
  obtain ⟨rfl, rfl⟩ := hworkingSet.unique (returns_workingSet_of_nil hps)
  refine ⟨s, rs, w, hs, hsolve, ?_⟩
  have hdecided := (Ends.decideDecisionsBy (hn.open_start hs hr)).result (congrArg Prod.fst hsolve)
  have hall : ∀ res ∈ rs, ∃ m ∈ n.nodes, m.kind = .decision ∧ res.IsDecided n.sizes s m.handle := by
    intro res hres
    obtain ⟨d, hd, hres⟩ := exists_left_of_mem hdecided hres
    obtain ⟨m, hm, hkind, rfl⟩ := hn.exists_decision hs hd
    exact ⟨m, hm, hkind, hres⟩
  refine ((List.forall₂_and_left _ _).mpr ⟨hall, forall₂_of_returns_mapM hpolicies⟩).imp ?_
  rintro res p ⟨⟨m, hm, hkind, hres⟩, _, _, hpolicy⟩
  obtain ⟨hsub, rfl⟩ := (Ends.policyOf hn hm hres.toIsFor).result (congrArg Prod.fst hpolicy)
  exact hn.isBestChoice_policyFor hm hkind hres hsub

omit [Cell.Unital α] [Cell.Ordered α] in
/-- The decisions of a network are resolved anew, whatever rules are stored. -/
theorem resolveAll_of_returns_solvePolicies (h : Returns NetworkM.solvePolicies n ps n') :
    if n.dependencies.isEmpty then ps = []
    else ∃ r, Returns { n with policies := [] }.resolveAll n.registry ps r := by
  unfold NetworkM.solvePolicies NetworkM.clearPolicies at h
  obtain ⟨_, n₁, hclear, h⟩ := returns_bind.mp h
  obtain rfl := returns_modify.mp hclear
  obtain ⟨_, _, hget, h⟩ := returns_bind.mp h
  obtain ⟨rfl, rfl⟩ := returns_get.mp hget
  split
  next hempty =>
    rw [if_pos (show ({ n with policies := [] } : Network α).dependencies.isEmpty from hempty)] at h
    exact (returns_pure.mp h).1.symm
  next hopen =>
    rw [if_neg (show ¬({ n with policies := [] } : Network α).dependencies.isEmpty from hopen)] at h
    obtain ⟨_, _, hsolve, h⟩ := returns_bind.mp h
    obtain ⟨r, hr, rfl⟩ := NetworkM.returns_solving.mp hsolve
    obtain ⟨_, _, -, h⟩ := returns_bind.mp h
    obtain ⟨rfl, -⟩ := returns_pure.mp h
    exact ⟨r, hr⟩

/-- Where sizes are numbers, the policies of a version of a network are best choices. -/
theorem Fresh.isBestChoice_of_returns_solvePolicies_unlimited (hf : f.Fresh) (hversion : f.IsVersion n)
    (hsolve : Returns NetworkM.solvePolicies n ps n') :
    ∃ s rs w, n.setting = .ok s ∧ Returns (StepM.solveDecisions s) (.start n.registry n.factors) rs w ∧
      List.Forall₂ n.IsBestChoice rs ps := by
  obtain ⟨k, stored, -, rfl⟩ := hversion
  have hn := hf.compiled
  have hresolve := resolveAll_of_returns_solvePolicies hsolve
  split at hresolve
  next hempty =>
    obtain ⟨s, hs⟩ := exists_setting_of_isEmpty (n := f) hempty
    have hnone : s.decisionOrder.isEmpty := (hn.isEmpty_decisionOrder hs).mpr hempty
    refine ⟨s, [], .start (f.advanced k stored).registry (f.advanced k stored).factors, hs, ?_, ?_⟩
    swap
    · rw [hresolve]
      exact .nil
    unfold StepM.solveDecisions
    rw [if_pos hnone]
    exact returns_pure.mpr ⟨rfl, rfl⟩
  next =>
    obtain ⟨r, hresolve⟩ := hresolve
    have hresolve' : Returns f.resolveAll (f.registry.after k) ps r := by
      rw [← hf.resolveAll_advanced k]
      exact hresolve
    obtain ⟨s, rs, w, hs, hrun, hbest⟩ :=
      hn.isBestChoice_of_returns_resolveAll hf.policies ⟨k, rfl⟩ hresolve'
    exact ⟨s, rs, w, hs, hrun, hbest.imp fun res p h =>
      ⟨h.isFor, h.length_table, h.length_expectedUtility, h.laidOut, h.rows⟩⟩

end Network

end

namespace Network

variable {α : Type} [Cell α] {n n' : Network α} {ps : List (Policy α)}

/-- **A policy is the argmax of the table returned with it.**  Whenever the decisions of a network that
has been compiled are resolved, whatever has been asked before, each policy returned is made of the
tables found for its decision in backward induction: both are laid out over the declared parents and the
decision, and for each combination of the parents the rule shares one among the outcomes with the largest
expected utility, provided that there is room for the tables that resolve the decisions. -/
theorem isBestChoice_of_returns_solvePolicies [Cell.Unital α] [Cell.Ordered α] (h : n.IsReachable)
    (hroom : n.HasRoomFor .solvePolicies) (hsolve : Returns NetworkM.solvePolicies n ps n') :
    ∃ s rs w, n.setting = .ok s ∧ Returns (StepM.solveDecisions s) (.start n.registry n.factors) rs w ∧
      List.Forall₂ n.IsBestChoice rs ps := by
  obtain ⟨f, hversions, hcall⟩ := h.exists_isVersion (c := .solvePolicies) trivial hroom
  obtain ⟨hf, hversion⟩ := hversions Exact.build
  have hsolve := (returns_congr_of_call (fun _ _ => Answer.policies.inj) (hcall Exact.build)).mpr hsolve
  obtain ⟨s, rs, w, hs, hrun, hbest⟩ :=
    hf.isBestChoice_of_returns_solvePolicies_unlimited hversion hsolve
  exact ⟨s, rs, w, hs,
    (returns_solveDecisions_iff_of_hasRoom h.compiled hroom hs Exact.build .release).mp hrun, hbest⟩

/-- After a session on the wildcatter's network both policies are best choices row by row. -/
theorem isBestChoice_of_returns_solvePolicies_session : ∃ (n n' : Network ℚ) (ps : List (Policy ℚ)),
    n.IsReachable ∧ n.HasRoomFor .solvePolicies ∧ Returns NetworkM.solvePolicies n ps n' ∧
    ps.length = 2 ∧
    ∃ s rs w, n.setting = .ok s ∧ Returns (StepM.solveDecisions s) (.start n.registry n.factors) rs w ∧
      List.Forall₂ n.IsBestChoice rs ps ∧
      List.Forall₂ (fun res p => List.Forall₂ Table.IsArgmax
        (Table.rows res.decision.arity p.expectedUtility.toArray)
        (Table.rows res.decision.arity p.table.toArray)) rs ps := by
  obtain ⟨n, hcompile, hroom, hpolicies⟩ := exists_ok_of_toOption (x := compile wildcat {})
    (P := fun n => (n.afterCalls session).HasRoomFor .solvePolicies ∧
      ∃ ps ∈ (runFrom NetworkM.solvePolicies (n.afterCalls session)).1.toOption, ps.length = 2)
    (by decide +kernel)
  obtain ⟨ps, n', hpolicies, hlength⟩ := exists_returns_of_toOption hpolicies
  have hreachable : (n.afterCalls session).IsReachable := ⟨wildcat, {}, n, session, hcompile, rfl⟩
  obtain ⟨s, rs, w, hs, hrun, hbest⟩ :=
    isBestChoice_of_returns_solvePolicies hreachable hroom hpolicies
  refine ⟨n.afterCalls session, n', ps, hreachable, hroom, hpolicies, hlength, s, rs, w, hs, hrun, hbest, ?_⟩
  exact hbest.imp fun res p h => h.rows.imp fun values shares hrow =>
    hrow fun a _ => Cell.isNumber_rat a

/-- After sixteen dice have been seen a bet is taken by a policy that has no cells. -/
theorem exists_policy_without_cells : ∃ (n n' : Network ℚ) (p : Policy ℚ), n.IsReachable ∧
    Returns NetworkM.solvePolicies n [p] n' ∧ p.table = [] ∧ p.expectedUtility = [] ∧
    Axes.count (handlesOf n.nodes (p.given ++ [p.name])) = 2 ^ 65 := by
  obtain ⟨n, hcompile, hpolicies⟩ := exists_ok_of_toOption (x := compile gamble {})
    (P := fun n => ∃ ps ∈ (runFrom NetworkM.solvePolicies n).1.toOption, ps.length = 1 ∧
      ∀ p ∈ ps, p.table = [] ∧ p.expectedUtility = [] ∧
        Axes.count (handlesOf n.nodes (p.given ++ [p.name])) = 2 ^ 65)
    (by decide +kernel)
  obtain ⟨ps, n', hpolicies, hlength, hcells⟩ := exists_returns_of_toOption hpolicies
  obtain ⟨p, rfl⟩ := List.length_eq_one_iff.mp hlength
  exact ⟨n, n', p, ⟨gamble, {}, n, [], hcompile, rfl⟩, hpolicies, hcells p (by simp)⟩

end Network

end Influence
