import Influence.Proofs.Elimination.Subproblem
import Influence.Proofs.Network.Maximization
import Influence.Proofs.Network.Parts
import Influence.Proofs.Network.Rescaling

/-! # Parts that are solved together

A network that consists of parts (`Network.ConsistsOf`) starts a run with one table of the utility, to
which all parts contribute (`Network.IsPart.added`).  Each part is a subproblem of that run
(`Network.IsPart.isPartOf`), which could be solved in a run of its own (`Network.Resolution.solves`).

So all decisions are resolved if each part resolves its own ones, with the same policies
(`Network.ConsistsOf.exists_returns`). -/

namespace Influence

open scoped Exact

theorem Table.layOut_shift {α : Type} [Cell α] (k : VariableId) (t : Table α) (axes : Axes) :
    (t.shift k).layOut (axes.shift k) = (t.layOut axes).shift k := by
  have hlacks : (axes.shift k).filter (fun v => !(t.shift k).mentions v) =
      Axes.shift k (axes.filter fun v => !t.mentions v) :=
    Axes.filter_shift fun v _ => congrArg (!·) (mentions_shift k t v)
  have hones : ∀ lacks : Axes, (ones (lacks.shift k) : Table α) = (ones lacks).shift k := fun lacks => by
    rw [ones, Axes.size_shift]
    rfl
  have hempty : ∀ lacks : Axes, (lacks.shift k).isEmpty = lacks.isEmpty := fun _ => List.isEmpty_map
  have hproduct : ∀ lacks : Axes, product [t.shift k, ones (lacks.shift k)] =
      (product [t, ones lacks]).shift k := fun lacks => by
    rw [hones, ← product_shift]
    rfl
  rw [layOut, layOut, hlacks, hempty, hproduct, rearrange_shift, rearrange_shift]
  split <;> rfl

namespace Network

variable {n n₁ : Network ℚ} {k : VariableId} {s s₁ : Setting ℚ} {us us₁ : List (Table ℚ)} {u : Table ℚ}
  {x : Assignment} {ps : List (Policy ℚ)} {rs : List (Resolved ℚ)} {w w₀ : Workspace ℚ} {m : Node}

/-! ### The utility -/

/-- The table of the utility at the start of a run, over the parents of the utilities. -/
structure IsUtilityTable (n : Network ℚ) (u : Table ℚ) : Prop where
  fits : u.Fits n.sizes
  mem_iff : ∀ id, id ∈ u.axes.ids ↔
    ∃ v ∈ n.nodes, v.kind = .utility ∧ id ∈ (n.parentHandles v).ids
  value : ∀ x : Assignment, x.Valid n.sizes → u.valueAt x = n.utility x

/-- There is such a table if there is a utility. -/
inductive UtilityTables (n : Network ℚ) : List (Table ℚ) → Prop where
  | utility {u : Table ℚ} : (∃ v ∈ n.nodes, v.kind = .utility) → n.IsUtilityTable u →
      UtilityTables n [u]
  | none : (¬∃ v ∈ n.nodes, v.kind = .utility) → UtilityTables n []

theorem Compiled.exists_utilityTables (hn : n.Compiled) (hweights : s.weights = n.weights) :
    ∃ us, Tables.sumUtilities s n.registry n.tables = n.chances.map (·.2) ++ us ∧ n.UtilityTables us := by
  by_cases hutility : ∃ v ∈ n.nodes, v.kind = .utility
  case neg =>
    refine ⟨[], ?_, .none hutility⟩
    rw [hn.sumUtilities_of_none s hutility, List.append_nil]
  case pos =>
    obtain ⟨u, hsum, hfits, hids, hvalue⟩ := hn.exists_sumUtilities hweights hutility
    refine ⟨[u], hsum, .utility hutility ⟨hfits, fun id => ?_, hvalue⟩⟩
    rw [hids]
    constructor
    · rintro ⟨⟨v, hv, hkind, hid⟩, hother⟩
      rw [Axes.ids_append, List.mem_append] at hid
      exact ⟨v, hv, hkind, hid.resolve_right fun hid =>
        hother ⟨v, hv, hkind, (List.mem_singleton.mp hid).symm⟩⟩
    · rintro ⟨v, hv, hkind, hid⟩
      refine ⟨⟨v, hv, hkind, by simp [hid]⟩, ?_⟩
      rintro ⟨v', hv', hkind', rfl⟩
      obtain ⟨p, hp, heq⟩ := Axes.mem_ids.mp hid
      obtain ⟨m, hm, rfl⟩ := mem_handles.mp (hn.parentHandles_subset v hp)
      obtain rfl := hn.eq_of_id hm hv' heq
      exact hn.kind_of_mem_parentHandles hp hkind'

theorem Compiled.ids_subset_of_tabled (hn : n.Compiled) {p : Node × Table ℚ} (hp : p ∈ n.tabled) :
    p.2.axes.ids ⊆ n.handles.ids := by
  rw [(hn.table_of_tabled hp).1]
  exact List.map_subset _ (hn.family_subset (hn.node_of_tabled hp).1)

theorem IsUtilityTable.ids_subset (hu : n.IsUtilityTable u) (hn : n.Compiled) :
    u.axes.ids ⊆ n.handles.ids := fun id hid => by
  obtain ⟨v, -, -, hid⟩ := (hu.mem_iff id).mp hid
  exact List.map_subset _ (hn.parentHandles_subset v) hid

/-- The table holds the utility wherever the variables of the network are in range. -/
theorem IsUtilityTable.value_of_inRange (hu : n.IsUtilityTable u) (hn : n.Compiled)
    (hx : x.InRange n.handles) : u.valueAt x = n.utility x := by
  let y : Assignment := fun id => if id ∈ n.handles.ids then x id else 0
  have hy : y.Valid n.sizes := by
    intro id
    by_cases hid : id ∈ n.handles.ids
    · obtain ⟨v, hv, rfl⟩ := Axes.mem_ids.mp hid
      simp only [y, if_pos hid, ← hn.sized_handles v hv]
      exact hx v hv
    · simp only [y, if_neg hid]
      exact hn.valid_zero id
  have hsame : ∀ {t : Table ℚ}, t.axes.ids ⊆ n.handles.ids → t.valueAt y = t.valueAt x :=
    fun {t} ht => t.valueAt_congr fun id hid => if_pos (ht hid)
  rw [← hsame (hu.ids_subset hn), hu.value y hy, utility, utility]
  refine congrArg List.sum (List.map_congr_left fun p hp => ?_)
  rw [hsame (hn.ids_subset_of_tabled (List.mem_of_mem_filter hp))]

namespace IsPart

variable (h : n₁.IsPart n k)

include h

theorem exists_utility_iff (hn : n.Compiled) (hn₁ : n₁.Compiled) {id : VariableId}
    (hid : id ∈ (n₁.own k).ids) :
    (∃ v ∈ n.nodes, v.kind = .utility ∧ id ∈ (n.parentHandles v).ids) ↔
      ∃ v ∈ n₁.nodes, v.kind = .utility ∧ id - k ∈ (n₁.parentHandles v).ids := by
  constructor
  · rintro ⟨v, hv, hkind, hmem⟩
    by_cases hown : (n₁.own k).mentions v.handle
    · obtain ⟨v₁, hv₁, rfl⟩ := h.exists_node hv hown
      rw [h.parentHandles hn hn₁ hv₁, Axes.mem_ids_shift] at hmem
      exact ⟨v₁, hv₁, hkind, hmem⟩
    · exact absurd hid (h.outside v hv hown id hmem)
  · rintro ⟨v, hv, hkind, hmem⟩
    refine ⟨v.shift k, h.mem_nodes hv, hkind, ?_⟩
    rwa [h.parentHandles hn hn₁ hv, Axes.mem_ids_shift]

/-- **The own utility is part of the utility of the network.** -/
theorem added (hn : n.Compiled) (hn₁ : n₁.Compiled) (hus : n.UtilityTables us)
    (hus₁ : n₁.UtilityTables us₁) :
    Tables.Added n.sizes (n₁.own k) (us₁.map (Table.shift k)) us := by
  cases hus₁ with
  | none hnone₁ =>
      cases hus with
      | none => exact .none (by simp) (by simp [Tables.axes])
      | utility hutility hu =>
          refine .none (by simpa using hu.fits) fun id hid hown => hnone₁ ?_
          obtain ⟨v, hv, hkind, -⟩ := (h.exists_utility_iff hn hn₁ hown).mp
            ((hu.mem_iff id).mp (by simpa [Tables.axes] using hid))
          exact ⟨v, hv, hkind⟩
  | @utility u₁ hutility₁ hu₁ =>
      obtain ⟨v, hv, hkind⟩ := hutility₁
      cases hus with
      | none hnone => exact absurd ⟨v.shift k, h.mem_nodes hv, hkind⟩ hnone
      | @utility u hutility hu =>
          have hsub := hu₁.ids_subset hn₁
          refine .utility ⟨(h.fits_add hn hn₁ hu₁.fits hsub).shift, hu.fits, fun id hid => ?_,
            fun id hid => ?_, ?_⟩
          · exact Axes.mem_ids_shift.mpr (hsub (Axes.mem_ids_shift.mp hid))
          · rw [hu.mem_iff, h.exists_utility_iff hn hn₁ hid, Table.axes_shift, Axes.mem_ids_shift,
              hu₁.mem_iff]
          · obtain ⟨G, hG, hvalue⟩ := h.utility_eq hn hn₁
            refine ⟨G, hG, fun x hx => ?_⟩
            rw [hu.value x hx, hvalue x, Table.valueAt_shift, hu₁.value_of_inRange hn₁ fun v hv => ?_]
            rw [hn₁.sized_handles v hv, ← h.sizes_add hn hn₁ (Axes.mem_ids_of_mem hv)]
            exact hx _

end IsPart

/-! ### Subproblems -/

/-- The network has been compiled, and no decision has been resolved. -/
structure Unsolved (n : Network ℚ) : Prop extends n.Compiled where
  order : Precedence.order n.parents = .ok n.order
  policies : n.policies = []

/-- The run on a network, as a part of a run in which `k` is added to its identities. -/
def subproblem (n : Network ℚ) (k : VariableId) (s : Setting ℚ) (us : List (Table ℚ)) : Subproblem :=
  ⟨k, n.handles, s, StepM.heuristicPick s, us⟩

theorem Compiled.open_of_reaches (hn : n.Compiled) (hs : n.setting = .ok s)
    (hreach : (Workspace.start n.registry n.factors).Reaches w
      (Tables.sumUtilities s n.registry n.tables)) : w.Open n.sizes s.decisionOrder.reverse :=
  ((hn.open_start hs (.refl n.registry)).reaches hreach
    (Tables.fits_sumUtilities s n.registry hn.fits_tables)).reverse

namespace IsPart

variable (h : n₁.IsPart n k)

include h

theorem isPartOf (hn : n.Compiled) (hn₁ : n₁.Compiled) (hs : n.setting = .ok s)
    (hs₁ : n₁.setting = .ok s₁) (hus : n.UtilityTables us) (hus₁ : n₁.UtilityTables us₁) :
    (n₁.subproblem k s₁ us₁).IsPartOf n.sizes s us where
  known := fun d hd => by
    obtain ⟨m, hm, hkind, rfl⟩ := hn₁.exists_decision hs₁ hd
    change Axes.ids (m.handle :: s₁.dependencies.parents m.handle) ⊆ n₁.handles.ids
    rw [(setting_eq_ok hs₁).2.1, hn₁.parents_handle hm hkind]
    exact List.map_subset _
      (List.cons_subset.mpr ⟨mem_handles.mpr ⟨m, hm, rfl⟩, hn₁.parentHandles_subset m⟩)
  parents := fun d hd => by
    obtain ⟨m, hm, hkind, rfl⟩ := hn₁.exists_decision hs₁ hd
    change s.dependencies.parents (m.shift k).handle = Axes.shift k (s₁.dependencies.parents m.handle)
    rw [(setting_eq_ok hs₁).2.1, (setting_eq_ok hs).2.1, hn₁.parents_handle hm hkind,
      hn.parents_handle (h.mem_nodes hm) hkind, h.parentHandles hn hn₁ hm]
  pick := StepM.perm_heuristicPick s₁
  added := h.added hn hn₁ hus hus₁

/-- At the start of the two runs. -/
theorem keeps (hn : n.Compiled) (hn₁ : n₁.Compiled) (hadds : n.AddsUp) (hadds₁ : n₁.AddsUp)
    (hs₁ : n₁.setting = .ok s₁) (hus₁ : Tables.sumUtilities s₁ n₁.registry n₁.tables =
      n₁.chances.map (·.2) ++ us₁)
    (hreach : (Workspace.start n₁.registry n₁.factors).Reaches w
      (Tables.sumUtilities s₁ n₁.registry n₁.tables))
    (heliminated : ∀ id, id ∈ w.eliminated ↔
      id ∈ (Tables.summedUtilities s₁ n₁.registry n₁.tables).ids) :
    (n₁.subproblem k s₁ us₁).Keeps n.sizes n.rank s₁.decisionOrder.reverse n₁.laws n.laws w := by
  have hopen := hn₁.open_of_reaches hs₁ hreach
  have hhandles : w.registry.handles = n₁.registry.handles := hreach.handles
  have hids : Axes.ids w.registry.handles = n₁.handles.ids := by
    rw [hhandles]
    exact congrArg Axes.ids hn₁.declared.handles
  have hsub : (Tables.axes w.tables).ids ⊆ n₁.handles.ids := by
    rw [hreach.tables_eq, ← hids, hhandles]
    exact hn₁.ids_sumUtilities_subset s₁
  have hlaws := hn₁.hasLaws hadds₁ hs₁ hreach heliminated
  have hperm := h.perm_laws hn hn₁
  constructor
  case isOpen =>
    refine ⟨hopen.numbered, fun t ht => ?_, fun d hd => ?_, hopen.decisions⟩
    · exact h.fits_add hn hn₁ (hopen.fits t ht) fun id hid =>
        hsub (Tables.mem_ids_axes.mpr ⟨t, ht, hid⟩)
    · have hmem := hn₁.decisionOrder_subset_handles hs₁ (List.mem_reverse.mp hd)
      rw [hn₁.sized_handles d hmem]
      exact (h.sizes_add hn hn₁ (Axes.mem_ids_of_mem hmem)).symm
  case hasLaws =>
    refine ⟨fun l hl => ?_, hlaws.nodup, hlaws.kind, hlaws.issued, hlaws.undecided, hlaws.eliminated⟩
    have hl : l.shift k ∈ n.laws :=
      List.mem_of_mem_filter (hperm.mem_iff.mpr (List.mem_map_of_mem hl))
    exact (hn.normal_laws hadds _ hl).of_shift
  case tables =>
    rw [hreach.tables_eq, hus₁, tables_laws]
    exact List.perm_append_comm
  case handles => exact hids
  case subset => exact hsub
  case laws =>
    refine ⟨n.laws.filter fun l => !(n₁.own k).mentions l.head, ?_, fun id hid => ?_, fun id hid => ?_⟩
    · exact (List.filter_append_perm (fun l => (n₁.own k).mentions l.head) n.laws).symm.trans
        (hperm.append_right _)
    · rw [Law.tables_map_shift, Tables.axes_map_shift, Axes.mem_ids_shift] at hid
      obtain ⟨t, ht, hid⟩ := Tables.mem_ids_axes.mp hid
      rw [tables_laws] at ht
      obtain ⟨p, hp, rfl⟩ := List.mem_map.mp ht
      exact Axes.mem_ids_shift.mpr (hn₁.ids_subset_of_tabled (List.mem_of_mem_filter hp) hid)
    · obtain ⟨t, ht, hid⟩ := Tables.mem_ids_axes.mp hid
      obtain ⟨l, hl, rfl⟩ := List.mem_map.mp ht
      obtain ⟨hl, hother⟩ := List.mem_filter.mp hl
      obtain ⟨p, hp, rfl⟩ := List.mem_map.mp hl
      exact h.notMem_of_tabled hn (List.mem_of_mem_filter hp) (by simpa using hother) id hid

end IsPart

/-! ### Runs -/

/-- When a decision that observes something is resolved, no table over nothing but the decision is left. -/
def NeverAlone [Build] (n : Network ℚ) : Prop :=
  ∀ s earlier d later w₁, n.setting = .ok s → s.decisionOrder = earlier ++ d :: later →
    n.dependencies.parents d ≠ [] → n.IsReduced s later w₁ → ∀ t ∈ w₁.tables, t.axes.ids ≠ [d.id]

/-- The decisions can be gone through one by one. -/
theorem neverAlone_iff [Build] : n.NeverAlone ↔ ∀ s ∈ n.setting.toOption, ∀ i < s.decisionOrder.length,
    ∀ d ∈ s.decisionOrder[i]?, n.dependencies.parents d ≠ [] →
      let p := runFrom (StepM.reduce s (s.decisionOrder.drop (i + 1))) (.start n.registry n.factors)
      p.1.toOption = some ⟨⟩ → ∀ t ∈ p.2.tables, t.axes.ids ≠ [d.id] := by
  constructor
  · intro h s hs i hi d hd hne p hp t ht
    obtain ⟨_, hsetting, rfl⟩ := exists_ok_of_toOption (P := (· = s)) ⟨s, hs, rfl⟩
    obtain ⟨⟨⟩, hok, -⟩ := exists_ok_of_toOption (P := fun _ => True) ⟨PUnit.unit, hp, trivial⟩
    obtain ⟨hi, rfl⟩ := List.getElem?_eq_some_iff.mp hd
    have hsplit := (List.take_append_drop i _).symm.trans
      (congrArg (List.take i _ ++ ·) (List.drop_eq_getElem_cons hi))
    exact h _ _ _ _ p.2 hsetting hsplit hne (isReduced_iff.mpr (Prod.ext hok rfl)) t ht
  · intro h s earlier d later w₁ hs horder hne hreduced t ht
    have hrun := isReduced_iff.mp hreduced
    have hdrop : s.decisionOrder.drop (earlier.length + 1) = later := by simp [horder]
    have hp := h s (by rw [hs]; rfl) earlier.length (by simp [horder]) d (by simp [horder]) hne
    rw [hdrop, show runFrom (StepM.reduce s later) _ = (.ok ⟨⟩, w₁) from hrun] at hp
    exact hp rfl t ht

instance [Build] (n : Network ℚ) : Decidable n.NeverAlone := decidable_of_iff _ neverAlone_iff.symm

theorem NeverAlone.of_hasRoom {B : Build} (h : n.NeverAlone) (hn : n.Compiled)
    (hroom : n.HasRoomFor .solvePolicies) : ∀ B' : Build, @NeverAlone B' n := by
  intro B' s earlier d later w₁ hs hsplit hne hreduced t ht
  have hsame := @returns_reduce_iff_of_hasRoom ℚ _ n s d earlier later w₁ ⟨⟩ B hn hroom hs hsplit B' B
  have hreduced := hsame.mp ((@isReduced_iff n B' s later w₁).mp hreduced)
  exact h s earlier d later w₁ hs hsplit hne ((@isReduced_iff n B s later w₁).mpr hreduced) t ht

/-- The policy is made of a rule that depends on nothing but what its decision observes. -/
def Makes (n : Network ℚ) (res : Resolved ℚ) (p : Policy ℚ) : Prop :=
  ∃ m ∈ n.nodes, m.kind = .decision ∧ m.handle = res.decision ∧
    res.rule.axes.ids ⊆ Axes.ids (n.parentHandles m ++ [m.handle]) ∧
    p = n.policyFor m (res.combined.table, res.rule.table)

section

variable {res : Resolved ℚ} {p : Policy ℚ} {d : Variable} {r r' : Registry}

theorem Makes.isObserved (h : n.Makes res p) (hn : n.Compiled) (hs : n.setting = .ok s) :
    res.IsObserved s := by
  obtain ⟨m, hm, hkind, hdecision, hsub, -⟩ := h
  rwa [Resolved.IsObserved, (setting_eq_ok hs).2.1, ← hdecision, hn.parents_handle hm hkind]

namespace Compiled

variable (hn : n.Compiled) (hs : n.setting = .ok s) (hd : d ∈ s.decisionOrder)
  (hres : res.IsFor n.sizes d)

include hn hs hd hres

theorem makes_of_returns (h : Returns (n.policyOf res) r p r') : n.Makes res p := by
  obtain ⟨m, hm, hkind, rfl⟩ := hn.exists_decision hs hd
  obtain ⟨hsub, rfl⟩ := (Ends.policyOf hn hm hres).result (congrArg Prod.fst h)
  exact ⟨m, hm, hkind, hres.decision.symm, hsub, rfl⟩

theorem exists_returns_policyOf (hobserved : res.IsObserved s) (r : Registry) :
    ∃ p r', Returns (n.policyOf res) r p r' := by
  obtain ⟨m, hm, hkind, rfl⟩ := hn.exists_decision hs hd
  rw [Resolved.IsObserved, (setting_eq_ok hs).2.1, hres.decision, hn.parents_handle hm hkind]
    at hobserved
  obtain ⟨p, r', hp, -⟩ := (Ends.policyOf (r := r) hn hm hres).exists_returns fun e he =>
    he.1 hobserved
  exact ⟨p, r', hp⟩

end Compiled

theorem Compiled.isFor_of_returns (hn : n.Compiled) (hs : n.setting = .ok s) {w₁ : Workspace ℚ}
    (hreach : (Workspace.start n.registry n.factors).Reaches w₀
      (Tables.sumUtilities s n.registry n.tables))
    (h : Returns (s.decisionOrder.reverse.mapM (StepM.resolve s)) w₀ rs w₁) :
    List.Forall₂ (fun d res => Resolved.IsFor n.sizes d res) s.decisionOrder.reverse rs :=
  ((Ends.resolveAllBy (hn.open_of_reaches hs hreach)).result (congrArg Prod.fst h)).imp
    fun _ _ hres => hres.toIsFor

end

namespace Resolution

variable (h : n.Resolution s ps rs w₀)

include h

theorem reaches (hn : n.Compiled) :
    (Workspace.start n.registry n.factors).Reaches w₀ (Tables.sumUtilities s n.registry n.tables) ∧
      ∀ id, id ∈ w₀.eliminated ↔ id ∈ (Tables.summedUtilities s n.registry n.tables).ids := by
  obtain ⟨w, hreturns, hreach, heliminated⟩ := hn.returns_sumUtilities s
  obtain ⟨-, rfl⟩ := hreturns.unique h.summed
  exact ⟨hreach, heliminated⟩

theorem makes (hn : n.Compiled) : List.Forall₂ n.Makes rs ps := by
  obtain ⟨w₁, hresolved⟩ := h.resolved
  have hfor := hn.isFor_of_returns h.setting (h.reaches hn).1 hresolved
  refine List.forall₂_iff_zip.mpr ⟨h.policies.length_eq, fun {res p} hpair => ?_⟩
  obtain ⟨r, r', hpolicy⟩ := List.forall₂_zip h.policies hpair
  obtain ⟨d, hd, hres⟩ := exists_left_of_mem hfor (List.mem_reverse.mpr (List.of_mem_zip hpair).1)
  exact hn.makes_of_returns h.setting (List.mem_reverse.mp hd) hres hpolicy

/-- The run on a network by itself solves the subproblem. -/
theorem solves (hn : n.Compiled) (halone : n.NeverAlone) :
    (n.subproblem k s us).Solves s.decisionOrder.reverse w₀ rs.reverse := by
  obtain ⟨w₁, hresolved⟩ := h.resolved
  refine .of_returns (hn.open_of_reaches h.setting (h.reaches hn).1) hresolved (fun res hres => ?_) ?_
  · obtain ⟨p, -, hp⟩ := exists_right_of_mem (h.makes hn) (List.mem_reverse.mp hres)
    exact hp.isObserved hn h.setting
  · intro before d after qs w hsplit hbefore hnumbered hne t ht
    obtain ⟨_, w', hreturns, hreach⟩ :=
      (StepM.leads_eliminateHidden hnumbered s [] [] true).exists_returns
    have horder : s.decisionOrder = after.reverse ++ d :: before.reverse := by
      rw [← List.reverse_reverse s.decisionOrder, hsplit]
      simp
    have hne : n.dependencies.parents d ≠ [] := (setting_eq_ok h.setting).2.1 ▸ hne
    refine halone s _ d _ w' h.setting horder hne ⟨w₀, qs, w, h.summed, ?_, hreturns⟩ t ?_
    · rw [List.reverse_reverse]
      exact hbefore
    · rw [hreach.tables_eq]
      exact ht

end Resolution

/-- A run that finds an observed rule for each decision returns the policies that they make. -/
theorem Unsolved.exists_returns {w₁ : Workspace ℚ} (hn : n.Unsolved) (hs : n.setting = .ok s)
    (hsum : Returns (StepM.sumUtilities s) (.start n.registry n.factors) ⟨⟩ w₀)
    (hreach : (Workspace.start n.registry n.factors).Reaches w₀
      (Tables.sumUtilities s n.registry n.tables))
    (h : Returns (s.decisionOrder.reverse.mapM (StepM.resolve s)) w₀ rs w₁)
    (hobserved : ∀ res ∈ rs, res.IsObserved s) :
    ∃ ps n', Returns NetworkM.solvePolicies n ps n' ∧ List.Forall₂ n.Makes rs.reverse ps := by
  have hn' := hn.toCompiled
  have hfor : ∀ res ∈ rs.reverse, ∃ d ∈ s.decisionOrder, res.IsFor n.sizes d := fun res hres => by
    obtain ⟨d, hd, hres⟩ := exists_left_of_mem (hn'.isFor_of_returns hs hreach h)
      (List.mem_reverse.mp hres)
    exact ⟨d, List.mem_reverse.mp hd, hres⟩
  obtain ⟨ps, r', hps⟩ : ∃ ps r', Returns (rs.reverse.mapM n.policyOf) w₁.registry ps r' :=
    exists_returns_mapM fun res hres r => by
      obtain ⟨d, hd, hres'⟩ := hfor res hres
      exact hn'.exists_returns_policyOf hs hd hres' (hobserved res (List.mem_reverse.mp hres)) r
  have hmakes : List.Forall₂ n.Makes rs.reverse ps := by
    refine List.forall₂_iff_zip.mpr ⟨(forall₂_of_returns_mapM hps).length_eq, fun {res p} hpair => ?_⟩
    obtain ⟨r, r', hpolicy⟩ := List.forall₂_zip (forall₂_of_returns_mapM hps) hpair
    obtain ⟨d, hd, hres⟩ := hfor res (List.of_mem_zip hpair).1
    exact hn'.makes_of_returns hs hd hres hpolicy
  rw [NetworkM.solvePolicies_eq_solvePoliciesBy]
  refine ⟨ps, ?_⟩
  suffices ∃ n', Returns (NetworkM.solvePoliciesBy StepM.heuristicPick) n ps n' from
    this.imp fun _ hreturns => ⟨hreturns, hmakes⟩
  rw [NetworkM.exists_returns_solvePoliciesBy hn.policies]
  split
  next hempty =>
    have horder : s.decisionOrder = [] := by
      rw [← List.isEmpty_iff]
      exact (hn'.isEmpty_decisionOrder hs).mpr hempty
    rw [horder] at h
    obtain ⟨rfl, -⟩ := returns_mapM_nil.mp h
    exact (returns_mapM_nil.mp hps).1
  next hempty =>
    refine ⟨r', ?_⟩
    unfold resolveAllBy
    simp only [returns_bind, returns_except, Setting.returns_run]
    refine ⟨n.factors, n.registry, returns_workingSet_of_nil hn.policies, s, n.registry, ⟨hs, rfl⟩,
      rs.reverse, w₁.registry, ⟨w₁, ?_, rfl⟩, hps⟩
    unfold StepM.solveDecisionsBy
    rw [if_neg (by rwa [hn'.isEmpty_decisionOrder hs])]
    simp only [returns_bind, returns_pure]
    exact ⟨⟨⟩, w₀, hsum, rs, w₁, h, rfl, rfl⟩

/-! ### Networks that consist of parts -/

variable {ι : Type} {parts : ι → Network ℚ} {ks : ι → VariableId}

/-- Every variable of the network belongs to one of the parts. -/
structure ConsistsOf (n : Network ℚ) (parts : ι → Network ℚ) (ks : ι → VariableId) : Prop where
  isPart : ∀ i, (parts i).IsPart n (ks i)
  disjoint : ∀ i j, i ≠ j → ((parts i).own (ks i)).ids.Disjoint ((parts j).own (ks j)).ids
  cover : ∀ m ∈ n.nodes, ∃ i, ((parts i).own (ks i)).mentions m.handle

/-- The rule of a part makes the same policy. -/
theorem IsPart.choosesAs (h : n₁.IsPart n k) (hn : n.Compiled) (hn₁ : n₁.Compiled)
    {res res' : Resolved ℚ} {p q : Policy ℚ} (hp : n₁.Makes res p) (hq : n.Makes res' q)
    (hsame : (n₁.subproblem k s₁ us₁).SameRule n.sizes res res') : p.ChoosesAs q := by
  obtain ⟨m, hm, hkind, hdecision, hsub, rfl⟩ := hp
  obtain ⟨m', hm', -, hdecision', -, rfl⟩ := hq
  obtain rfl : m' = m.shift k := hn.eq_of_id hm' (h.mem_nodes hm) (by
    rw [hdecision', hsame.decision, ← hdecision]
    rfl)
  refine ⟨rfl, h.given m hm, ?_⟩
  have hfamily : n.parentHandles (m.shift k) ++ [(m.shift k).handle] =
      Axes.shift k (n₁.parentHandles m ++ [m.handle]) := by
    rw [h.parentHandles hn hn₁ hm, Axes.shift_append]
    rfl
  have hlayOut := hsame.rule.cells_layOut hn.valid_zero (hn.nodup_family hm')
    (hn.sized_handles.subset (hn.family_subset hm')) (by
      rw [hfamily]
      exact fun id hid => Axes.mem_ids_shift.mpr (hsub (Axes.mem_ids_shift.mp hid)))
  refine hlayOut.trans ?_
  rw [hfamily]
  change ((res.rule.table.shift k).layOut (Axes.shift k _)).cells.toList = _
  rw [Table.layOut_shift]
  rfl

theorem IsPart.mentions_iff (h : n₁.IsPart n k) (hn : n.Compiled) (hm : m ∈ n.nodes) :
    (n₁.own k).mentions m.handle ↔ m.name ∈ n₁.names := by
  rw [names, List.mem_map]
  constructor
  · intro hown
    obtain ⟨m₁, hm₁, rfl⟩ := h.exists_node hm hown
    exact ⟨m₁, hm₁, rfl⟩
  · rintro ⟨m₁, hm₁, hname⟩
    obtain rfl := List.inj_on_of_nodup_map hn.declared.names (h.mem_nodes hm₁) hm hname
    exact mentions_own hm₁

theorem ConsistsOf.addsUp (h : n.ConsistsOf parts ks) (hn : n.Compiled)
    (hparts : ∀ i, (parts i).Compiled) (hadds : ∀ i, (parts i).AddsUp) : n.AddsUp := by
  intro p hp
  obtain ⟨i, hi⟩ := h.cover p.1 (hn.node_of_tabled (List.mem_of_mem_filter hp)).1
  obtain ⟨p₁, hp₁, rfl⟩ := List.mem_map.mp (((h.isPart i).perm_tabled_kind hn (hparts i) .chance).mem_iff.mp
    (List.mem_filter.mpr ⟨hp, hi⟩))
  exact hadds i p₁ hp₁

theorem ConsistsOf.isSmall (h : n.ConsistsOf parts ks) (hn : n.Compiled)
    (hparts : ∀ i, (parts i).Compiled) (hsmall : ∀ i, (parts i).IsSmall) : n.IsSmall := by
  rw [hn.isSmall_iff]
  intro m hm hkind
  obtain ⟨i, hi⟩ := h.cover m hm
  obtain ⟨m₁, hm₁, rfl⟩ := (h.isPart i).exists_node hm hi
  have hroom := (hparts i).isSmall_iff.mp (hsmall i) m₁ hm₁ hkind
  rw [(h.isPart i).parentHandles hn (hparts i) hm₁]
  change (Axes.shift (ks i) ((parts i).parentHandles m₁) ++ Axes.shift (ks i) [m₁.handle]).count < _
  rwa [← Axes.shift_append, Axes.count_shift]

theorem IsPart.isObserved (h : n₁.IsPart n k) (hn : n.Compiled) (hn₁ : n₁.Compiled)
    (hs : n.setting = .ok s) {res res' : Resolved ℚ} {p : Policy ℚ} (hp : n₁.Makes res p)
    (hsame : (n₁.subproblem k s₁ us₁).SameRule n.sizes res res') : res'.IsObserved s := by
  obtain ⟨m, hm, hkind, hdecision, hsub, -⟩ := hp
  have hdecision' : res'.decision = (m.shift k).handle := by
    rw [hsame.decision, ← hdecision]
    rfl
  intro id hid
  rw [(setting_eq_ok hs).2.1, hdecision', hn.parents_handle (h.mem_nodes hm) hkind,
    h.parentHandles hn hn₁ hm]
  have hmem := hsub (Axes.mem_ids_shift.mp ((hsame.rule.ids id).mp hid))
  rw [← Axes.mem_ids_shift, Axes.shift_append] at hmem
  exact hmem

/-- A run on a network starts with the utility and the laws of the chance variables. -/
theorem Compiled.exists_gathers (hn : n.Compiled) (hadds : n.AddsUp) (hs : n.setting = .ok s) :
    ∃ us w₀, n.UtilityTables us ∧
      Returns (StepM.sumUtilities s) (.start n.registry n.factors) ⟨⟩ w₀ ∧
      (Workspace.start n.registry n.factors).Reaches w₀ (Tables.sumUtilities s n.registry n.tables) ∧
      w₀.Gathers n.sizes n.rank s us s.decisionOrder.reverse n.laws := by
  obtain ⟨us, hsum, hus⟩ := hn.exists_utilityTables (setting_eq_ok hs).2.2
  obtain ⟨w₀, hreturns, hreach, heliminated⟩ := hn.returns_sumUtilities s
  refine ⟨us, w₀, hus, hreturns, hreach, hn.open_of_reaches hs hreach,
    hn.hasLaws hadds hs hreach heliminated, ?_, ?_⟩
  · rw [hreach.tables_eq, hsum, tables_laws]
    refine .of_perm (fun t ht => ?_) List.perm_append_comm
    exact Tables.fits_sumUtilities s n.registry hn.fits_tables t (hsum ▸ ht)
  · rw [hreach.tables_eq, hreach.handles]
    exact hn.ids_sumUtilities_subset s

/-- A part that can be solved by itself is a subproblem that waits to be solved. -/
theorem IsPart.exists_waits (h : n₁.IsPart n k) (hn : n.Unsolved) (hn₁ : n₁.Unsolved) (hadds : n.AddsUp)
    (hadds₁ : n₁.AddsUp) (halone : n₁.NeverAlone) (hs : n.setting = .ok s) (hus : n.UtilityTables us)
    (hps : ∃ n', Returns NetworkM.solvePolicies n₁ ps n') :
    ∃ s₁ us₁ rs, (n₁.subproblem k s₁ us₁).IsPartOf n.sizes s us ∧
      (n₁.subproblem k s₁ us₁).Waits n.sizes n.rank s.decisionOrder.reverse n.laws rs.reverse ∧
      List.Forall₂ n₁.Makes rs ps := by
  have hn' := hn.toCompiled
  have hn₁' := hn₁.toCompiled
  obtain ⟨n', hps⟩ := hps
  obtain ⟨⟨s₁, rs, w₁, hrun⟩, -⟩ := exists_resolution hn₁' hps
  obtain ⟨us₁, hsum₁, hus₁⟩ := hn₁'.exists_utilityTables (setting_eq_ok hrun.setting).2.2
  obtain ⟨hreach, heliminated⟩ := hrun.reaches hn₁'
  refine ⟨s₁, us₁, rs, h.isPartOf hn' hn₁' hs hrun.setting hus hus₁, ?_, hrun.makes hn₁'⟩
  refine ⟨s₁.decisionOrder.reverse, n₁.laws, w₁, ?_,
    h.keeps hn' hn₁' hadds hadds₁ hrun.setting hsum₁ hreach heliminated, hrun.solves hn₁' halone⟩
  rw [List.filter_reverse, Axes.shift, List.map_reverse]
  exact congrArg List.reverse (h.decisionOrder hn' hn₁' hn.order hn₁.order hs hrun.setting)

/-- **All decisions are resolved if each part resolves its own ones.**  The policies choose as those that
the parts find by themselves. -/
theorem ConsistsOf.exists_returns [DecidableEq ι] (h : n.ConsistsOf parts ks) (hn : n.Unsolved)
    (hparts : ∀ i, (parts i).Unsolved) (hadds : ∀ i, (parts i).AddsUp)
    (halone : ∀ i, (parts i).NeverAlone) {ps : ι → List (Policy ℚ)}
    (hps : ∀ i, ∃ n', Returns NetworkM.solvePolicies (parts i) (ps i) n') :
    ∃ qs n', Returns NetworkM.solvePolicies n qs n' ∧ (∀ q ∈ qs, ∃ i, q.name ∈ (parts i).names) ∧
      ∀ i, List.Forall₂ Policy.ChoosesAs (ps i) (qs.filter (·.name ∈ (parts i).names)) := by
  have hn' := hn.toCompiled
  have hcompiled : ∀ i, (parts i).Compiled := fun i => (hparts i).toCompiled
  have haddsUp := h.addsUp hn' hcompiled hadds
  obtain ⟨s, hs⟩ := hn'.exists_setting
  obtain ⟨us, w₀, hus, hsum, hreach, hgathers⟩ := hn'.exists_gathers haddsUp hs
  choose s₁ us₁ rs hpartOf hwaits hmakes using fun i =>
    (h.isPart i).exists_waits hn (hparts i) haddsUp (hadds i) (halone i) hs hus (hps i)
  have hcover : ∀ d ∈ s.decisionOrder.reverse, ∃ i, ((parts i).own (ks i)).mentions d := fun d hd => by
    obtain ⟨m, hm, -, rfl⟩ := hn'.exists_decision hs (List.mem_reverse.mp hd)
    exact h.cover m hm
  obtain ⟨qs, w', hresolved, hsame⟩ := Subproblem.exists_returns_resolveAll hpartOf h.disjoint
    hn'.valid_zero (StepM.perm_heuristicPick s) (hn'.rank_lt_of_decisionOrder hs) hgathers hcover hwaits
  have hobserved : ∀ res ∈ qs, res.IsObserved s := by
    intro res hres
    obtain ⟨d, hd, hfor⟩ := exists_left_of_mem (hn'.isFor_of_returns hs hreach hresolved) hres
    obtain ⟨i, hi⟩ := hcover d hd
    obtain ⟨res₁, hres₁, hsame⟩ := exists_left_of_mem (hsame i)
      (List.mem_filter.mpr ⟨hres, hfor.decision ▸ hi⟩)
    obtain ⟨p, -, hp⟩ := exists_right_of_mem (hmakes i) (List.mem_reverse.mp hres₁)
    exact (h.isPart i).isObserved hn' (hcompiled i) hs hp hsame
  obtain ⟨all, n', hreturns, hall⟩ := hn.exists_returns hs hsum hreach hresolved hobserved
  refine ⟨all, n', hreturns, fun q hq => ?_, fun i => ?_⟩
  · obtain ⟨res, -, m, hm, -, -, -, rfl⟩ := exists_left_of_mem hall hq
    obtain ⟨i, hi⟩ := h.cover m hm
    exact ⟨i, ((h.isPart i).mentions_iff hn' hm).mp hi⟩
  have hfilter : List.Forall₂ n.Makes
      (qs.reverse.filter fun res => ((parts i).own (ks i)).mentions res.decision)
      (all.filter (·.name ∈ (parts i).names)) := by
    refine List.rel_filter (fun res p hp => ?_) hall
    obtain ⟨m, hm, -, hdecision, -, rfl⟩ := hp
    have hmentions := (h.isPart i).mentions_iff hn' hm
    rw [hdecision] at hmentions
    exact hmentions.trans decide_eq_true_iff.symm
  have hrules := List.rel_reverse (hsame i)
  rw [List.reverse_reverse, ← List.filter_reverse] at hrules
  have hpolicies : List.Forall₂ (fun res' p => ∃ res, (parts i).Makes res p ∧
      ((parts i).subproblem (ks i) (s₁ i) (us₁ i)).SameRule n.sizes res res')
      (qs.reverse.filter fun res => ((parts i).own (ks i)).mentions res.decision) (ps i) :=
    forall₂_of_common hrules (hmakes i) fun res _ res' p hsame hp => ⟨res, hp, hsame⟩
  refine forall₂_of_common hpolicies hfilter ?_
  rintro res' - p q ⟨res, hp, hsame⟩ hq
  exact (h.isPart i).choosesAs hn' (hcompiled i) hp hq hsame

end Network

end Influence
