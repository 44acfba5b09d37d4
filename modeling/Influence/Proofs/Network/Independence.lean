import Influence.Proofs.Network.Joined
import Influence.Proofs.Network.Posterior

/-! # Unrelated problems in one network

Two definitions without a common name can stand side by side in one (`Definition.beside`), which compiles
to a network that consists of theirs (`Network.Compilation.exists_beside`).

The decisions of either do not affect the other, but the utilities of both are summed into one table.  A
decision that sees something passes over the tables that mention nothing of that, except for tables over
nothing but the decision, and the sum is no such table.  If no decision needs the exception, then the
policies are those of the problems by themselves (`Network.solvePolicies_beside`); if one does, then there
may be none (`Network.exists_beside_not_returns`). -/

namespace Influence

/-- Two definitions as one, the second after the first. -/
def Definition.beside {α : Type} (d e : Definition α) : Definition α :=
  ⟨d.declarations ++ e.declarations, d.entries ++ e.entries⟩

/-- The options of the first problem, with the weights of both. -/
def Config.beside {α : Type} (c c' : Config α) : Config α := { c with weights := c.weights ++ c'.weights }

section

open scoped Exact

namespace Definition

section

variable {α : Type} {d e : Definition α} {name : String} {kind : NodeKind}

theorem names_beside (d e : Definition α) : (d.beside e).names = d.names ++ e.names := List.map_append

variable [Cell α] {c c' : Config α}

theorem WellFormed.target_mem_names (hd : d.WellFormed c) {x : Entry α} (hx : x ∈ d.entries) :
    x.target ∈ d.names := by
  obtain ⟨kind, hkind⟩ := hd.targets_declared x hx
  exact hkind.mem_names

theorem WellFormed.given_mem_names (hd : d.WellFormed c) {x : Entry α} (hx : x ∈ d.entries)
    (hname : name ∈ x.given) : name ∈ d.names := by
  obtain ⟨kind, -, hkind⟩ := hd.given_declared x hx name hname
  exact hkind.mem_names

variable (hd : d.WellFormed c) (he : e.WellFormed c') (hdisjoint : d.names.Disjoint e.names)

include hd he hdisjoint

theorem isBlock_left : d.IsBlock (d.beside e) 0 where
  declarations := ⟨[], e.declarations, rfl, rfl⟩
  entries := by
    rw [beside, List.filter_append, List.filter_eq_self.mpr fun x hx => ?_,
      List.filter_eq_nil_iff.mpr fun x hx htarget => ?_, List.append_nil]
    · exact hdisjoint (of_decide_eq_true htarget) (he.target_mem_names hx)
    · exact decide_eq_true (hd.target_mem_names hx)
  closed := by
    intro x hx htarget name hname hmem
    rcases List.mem_append.mp hx with hx | hx
    · exact htarget (hd.target_mem_names hx)
    · exact hdisjoint hmem (he.given_mem_names hx hname)

theorem isBlock_right : e.IsBlock (d.beside e) (UInt32.ofNat d.declarations.length) where
  declarations := ⟨d.declarations, [], by simp [beside], rfl⟩
  entries := by
    rw [beside, List.filter_append, List.filter_eq_nil_iff.mpr fun x hx htarget => ?_,
      List.filter_eq_self.mpr fun x hx => ?_, List.nil_append]
    · exact decide_eq_true (he.target_mem_names hx)
    · exact hdisjoint (hd.target_mem_names hx) (of_decide_eq_true htarget)
  closed := by
    intro x hx htarget name hname hmem
    rcases List.mem_append.mp hx with hx | hx
    · exact hdisjoint (hd.given_mem_names hx hname) hmem
    · exact htarget (he.target_mem_names hx)

/-- **Two well-formed definitions without a common name are well-formed as one.** -/
theorem WellFormed.beside : (d.beside e).WellFormed (c.beside c') := by
  have hleft := isBlock_left hd he hdisjoint
  have hright := isBlock_right hd he hdisjoint
  have hnames : (d.beside e).names.Nodup := by
    rw [names_beside]
    exact List.nodup_append'.mpr ⟨hd.names, he.names, hdisjoint⟩
  have hblock : ∀ x ∈ (d.beside e).entries, ∃ f c k, WellFormed f c ∧ f.IsBlock (d.beside e) k ∧
      x ∈ f.entries := fun x hx => (List.mem_append.mp hx).elim
    (fun hx => ⟨d, c, _, hd, hleft, hx⟩) fun hx => ⟨e, c', _, he, hright, hx⟩
  constructor
  case weights_finite => exact List.forall_mem_append.mpr ⟨hd.weights_finite, he.weights_finite⟩
  case weights_distinct =>
    rw [Config.beside, List.map_append]
    refine List.nodup_append'.mpr ⟨hd.weights_distinct, he.weights_distinct, fun name hname hname' => ?_⟩
    obtain ⟨w, hw, rfl⟩ := List.mem_map.mp hname
    obtain ⟨w', hw', heq⟩ := List.mem_map.mp hname'
    exact hdisjoint (hd.weights_utility w hw).mem_names (heq ▸ (he.weights_utility w' hw').mem_names)
  case weights_utility =>
    refine List.forall_mem_append.mpr ⟨fun w hw => ?_, fun w hw => ?_⟩
    · exact (hleft.declares_iff hnames (hd.weights_utility w hw).mem_names).mpr (hd.weights_utility w hw)
    · exact (hright.declares_iff hnames (he.weights_utility w hw).mem_names).mpr (he.weights_utility w hw)
  case declarations => exact List.forall_mem_append.mpr ⟨hd.declarations, he.declarations⟩
  case names => exact hnames
  case targets_declared =>
    intro x hx
    obtain ⟨f, c, k, hf, hblock, hx⟩ := hblock x hx
    exact (hf.targets_declared x hx).imp fun kind hkind =>
      (hblock.declares_iff hnames hkind.mem_names).mpr hkind
  case targets_distinct =>
    rw [Definition.beside, List.map_append]
    refine List.nodup_append'.mpr ⟨hd.targets_distinct, he.targets_distinct, fun name hname hname' => ?_⟩
    obtain ⟨x, hx, rfl⟩ := List.mem_map.mp hname
    obtain ⟨y, hy, heq⟩ := List.mem_map.mp hname'
    exact hdisjoint (hd.target_mem_names hx) (heq ▸ he.target_mem_names hy)
  case given_declared =>
    intro x hx name hname
    obtain ⟨f, c, k, hf, hblock, hx⟩ := hblock x hx
    obtain ⟨kind, hkind, hdeclares⟩ := hf.given_declared x hx name hname
    exact ⟨kind, hkind, (hblock.declares_iff hnames hdeclares.mem_names).mpr hdeclares⟩
  case given_distinct =>
    intro x hx
    obtain ⟨f, c, k, hf, -, hx⟩ := hblock x hx
    exact hf.given_distinct x hx
  case tables =>
    intro x hx
    obtain ⟨f, c, k, hf, hblock, hx⟩ := hblock x hx
    rw [hblock.declares_iff hnames (hf.target_mem_names hx)]
    exact hf.tables x hx
  case complete =>
    intro x hx hkind
    rcases List.mem_append.mp hx with hx | hx
    · exact (hd.complete x hx hkind).imp fun y hy => ⟨List.mem_append_left _ hy.1, hy.2⟩
    · exact (he.complete x hx hkind).imp fun y hy => ⟨List.mem_append_right _ hy.1, hy.2⟩
  case acyclic =>
    intro name hcycle
    obtain ⟨parent, -, x, hx, rfl, -⟩ := Relation.TransGen.tail'_iff.mp hcycle
    obtain ⟨f, c, k, hf, hblock, hx⟩ := hblock x hx
    exact hf.acyclic _ (hblock.transGen_isParent (fun y hy _ => hf.given_mem_names hy) hcycle
      (hf.target_mem_names hx))
  case cells_finite =>
    intro x hx
    obtain ⟨f, c, k, hf, -, hx⟩ := hblock x hx
    exact hf.cells_finite x hx
  case cells_count =>
    intro x hx table htable
    obtain ⟨f, c, k, hf, hblock, hx⟩ := hblock x hx
    rw [hf.cells_count x hx table htable]
    refine congrArg List.prod (List.map_congr_left fun name hname => ?_)
    refine (hblock.outcomeCount_eq hnames ?_).symm
    rcases List.mem_append.mp hname with hname | hname
    · exact hf.given_mem_names hx hname
    · rw [List.mem_singleton.mp hname]
      exact hf.target_mem_names hx

end

end Definition

namespace Config

variable {c c' : Config ℚ} {name : String}

theorem weight_beside_left (h : ∀ w ∈ c'.weights, w.1 ≠ name) :
    (c.beside c').weight name = c.weight name := by
  have hnone : c'.weights.reverse.lookup name = none := List.lookup_eq_none_iff.mpr fun w hw =>
    bne_iff_ne.mpr (h w (List.mem_reverse.mp hw)).symm
  rw [weight, beside, List.reverse_append, List.lookup_append, hnone, Option.none_or]
  rfl

theorem weight_beside_right (h : ∀ w ∈ c.weights, w.1 ≠ name) :
    (c.beside c').weight name = c'.weight name := by
  have hnone : c.weights.reverse.lookup name = none := List.lookup_eq_none_iff.mpr fun w hw =>
    bne_iff_ne.mpr (h w (List.mem_reverse.mp hw)).symm
  rw [weight, beside, List.reverse_append, List.lookup_append, hnone, Option.or_none]
  rfl

end Config

namespace Network

variable {d e : Definition ℚ} {c c' : Config ℚ} {n₁ n₂ : Network ℚ} {r r₁ r₂ : Registry}

theorem Compilation.unsolved {n : Network ℚ} (h : Compilation d c n r) : n.Unsolved :=
  { h.compiled with order := h.order, policies := h.policies }

/-- **Two definitions compile to a network that consists of theirs.** -/
theorem Compilation.exists_beside (h₁ : Compilation d c n₁ r₁) (h₂ : Compilation e c' n₂ r₂)
    (hdisjoint : n₁.names.Disjoint n₂.names) (hnormalize : c'.normalizeChance = c.normalizeChance)
    (hsize : d.declarations.length + e.declarations.length ≤ UInt32.size) :
    ∃ n r ks, Compilation (d.beside e) (c.beside c') n r ∧
      n.ConsistsOf (fun b => bif b then n₁ else n₂) ks := by
  have hd := h₁.wellFormed
  have he := h₂.wellFormed
  rw [h₁.names_eq, h₂.names_eq] at hdisjoint
  have hleft := Definition.isBlock_left hd he hdisjoint
  have hright := Definition.isBlock_right hd he hdisjoint
  obtain ⟨n, hcompile⟩ := exists_compile (hd.beside he hdisjoint) (by simpa [Definition.beside] using hsize)
  obtain ⟨r, h⟩ := compile_eq_ok_iff.mp hcompile
  have hpart₁ : n₁.IsPart n 0 := h₁.isPart h hleft rfl fun name hname =>
    Config.weight_beside_left fun w hw heq =>
      hdisjoint hname (heq ▸ (he.weights_utility w hw).mem_names)
  have hpart₂ : n₂.IsPart n (UInt32.ofNat d.declarations.length) :=
    h₂.isPart h hright hnormalize.symm fun name hname => Config.weight_beside_right fun w hw heq =>
      hdisjoint (heq ▸ (hd.weights_utility w hw).mem_names) hname
  refine ⟨n, r, fun b => bif b then 0 else UInt32.ofNat d.declarations.length, h, ?_⟩
  have hapart : (n₁.own 0).ids.Disjoint (n₂.own (UInt32.ofNat d.declarations.length)).ids := by
    intro id hid hid'
    obtain ⟨v, hv, rfl⟩ := Axes.mem_ids.mp hid
    obtain ⟨w, hw, rfl⟩ := List.mem_map.mp hv
    obtain ⟨m₁, hm₁, rfl⟩ := mem_handles.mp hw
    have hmem := (hpart₂.mentions_iff h.compiled (hpart₁.mem_nodes hm₁)).mp (Axes.mentions_iff.mpr hid')
    have hname : m₁.name ∈ d.names := h₁.names_eq ▸ List.mem_map_of_mem hm₁
    exact hdisjoint hname (h₂.names_eq ▸ hmem)
  constructor
  case isPart => exact Bool.forall_bool.mpr ⟨hpart₂, hpart₁⟩
  case disjoint =>
    rintro (_ | _) (_ | _) hne
    · exact absurd rfl hne
    · exact hapart.symm
    · exact hapart
    · exact absurd rfl hne
  case cover =>
    intro m hm
    have hname : m.name ∈ n.names := List.mem_map_of_mem hm
    rw [h.names_eq, Definition.names_beside, List.mem_append] at hname
    rcases hname with hname | hname
    · exact ⟨true, (hpart₁.mentions_iff h.compiled hm).mpr (h₁.names_eq ▸ hname)⟩
    · exact ⟨false, (hpart₂.mentions_iff h.compiled hm).mpr (h₂.names_eq ▸ hname)⟩

/-- Where sizes are numbers, unrelated problems do not affect each other. -/
theorem solvePolicies_beside_unlimited (h₁ : compile d c = .ok n₁) (h₂ : compile e c' = .ok n₂)
    (hdisjoint : n₁.names.Disjoint n₂.names) (hnormalize : c'.normalizeChance = c.normalizeChance)
    (hsize : d.declarations.length + e.declarations.length ≤ UInt32.size)
    (hadds₁ : n₁.AddsUp) (hadds₂ : n₂.AddsUp) (halone₁ : n₁.NeverAlone) (halone₂ : n₂.NeverAlone)
    {ps₁ ps₂ : List (Policy ℚ)} {n₁' n₂' : Network ℚ}
    (hps₁ : Returns NetworkM.solvePolicies n₁ ps₁ n₁') (hps₂ : Returns NetworkM.solvePolicies n₂ ps₂ n₂') :
    ∃ n ps n', compile (d.beside e) (c.beside c') = .ok n ∧ (n₁.IsSmall → n₂.IsSmall → n.IsSmall) ∧
      Returns NetworkM.solvePolicies n ps n' ∧ (∀ p ∈ ps, p.name ∈ n₁.names ∨ p.name ∈ n₂.names) ∧
      List.Forall₂ Policy.ChoosesAs ps₁ (ps.filter (·.name ∈ n₁.names)) ∧
      List.Forall₂ Policy.ChoosesAs ps₂ (ps.filter (·.name ∈ n₂.names)) := by
  obtain ⟨r₁, h₁⟩ := compile_eq_ok_iff.mp h₁
  obtain ⟨r₂, h₂⟩ := compile_eq_ok_iff.mp h₂
  obtain ⟨n, r, ks, h, hparts⟩ := h₁.exists_beside h₂ hdisjoint hnormalize hsize
  have hps : ∀ b, ∃ n', Returns NetworkM.solvePolicies (bif b then n₁ else n₂)
      (bif b then ps₁ else ps₂) n' := Bool.forall_bool.mpr ⟨⟨n₂', hps₂⟩, ⟨n₁', hps₁⟩⟩
  obtain ⟨ps, n', hreturns, hnames, hpolicies⟩ := hparts.exists_returns h.unsolved
    (Bool.forall_bool.mpr ⟨h₂.unsolved, h₁.unsolved⟩) (Bool.forall_bool.mpr ⟨hadds₂, hadds₁⟩)
    (Bool.forall_bool.mpr ⟨halone₂, halone₁⟩) hps
  refine ⟨n, ps, n', compile_eq_ok_iff.mpr ⟨r, h⟩, fun hsmall₁ hsmall₂ => ?_, hreturns, fun p hp => ?_,
    hpolicies true, hpolicies false⟩
  · exact hparts.isSmall h.compiled (Bool.forall_bool.mpr ⟨h₂.compiled, h₁.compiled⟩)
      (Bool.forall_bool.mpr ⟨hsmall₂, hsmall₁⟩)
  · exact (Bool.exists_bool.mp (hnames p hp)).symm

end Network

end

namespace Network

variable {d e : Definition ℚ} {c c' : Config ℚ} {n₁ n₂ : Network ℚ}

/-- **Unrelated problems do not affect each other**, unless a decision that observes something is left with
a table over nothing but itself, or there is no room.  If each can be solved by itself, then both can be
solved in one network, with the policies that they have by themselves. -/
theorem solvePolicies_beside (h₁ : compile d c = .ok n₁) (h₂ : compile e c' = .ok n₂)
    (hdisjoint : n₁.names.Disjoint n₂.names) (hnormalize : c'.normalizeChance = c.normalizeChance)
    (hsize : d.declarations.length + e.declarations.length ≤ UInt32.size)
    (hadds₁ : n₁.AddsUp) (hadds₂ : n₂.AddsUp) (halone₁ : n₁.NeverAlone) (halone₂ : n₂.NeverAlone)
    (hroom₁ : n₁.HasRoomFor .solvePolicies) (hroom₂ : n₂.HasRoomFor .solvePolicies)
    {ps₁ ps₂ : List (Policy ℚ)} {n₁' n₂' : Network ℚ}
    (hps₁ : Returns NetworkM.solvePolicies n₁ ps₁ n₁') (hps₂ : Returns NetworkM.solvePolicies n₂ ps₂ n₂') :
    ∃ n, compile (d.beside e) (c.beside c') = .ok n ∧ (n.HasRoomFor .solvePolicies →
      ∃ ps n', Returns NetworkM.solvePolicies n ps n' ∧
        (∀ p ∈ ps, p.name ∈ n₁.names ∨ p.name ∈ n₂.names) ∧
        List.Forall₂ Policy.ChoosesAs ps₁ (ps.filter (·.name ∈ n₁.names)) ∧
        List.Forall₂ Policy.ChoosesAs ps₂ (ps.filter (·.name ∈ n₂.names))) := by
  have hn₁ := (compiled_of_compile h₁).1
  have hn₂ := (compiled_of_compile h₂).1
  have hps₁ := (returns_solvePolicies_iff_of_hasRoom h₁ hroom₁.tables hroom₁.rules .release Exact.build).mp hps₁
  have hps₂ := (returns_solvePolicies_iff_of_hasRoom h₂ hroom₂.tables hroom₂.rules .release Exact.build).mp hps₂
  obtain ⟨n, ps, n', hcompile, hsmall, hps, hpolicies⟩ := solvePolicies_beside_unlimited
    (compile_eq_ok_of_isSmall h₁ hroom₁.tables Exact.build)
    (compile_eq_ok_of_isSmall h₂ hroom₂.tables Exact.build) hdisjoint hnormalize hsize hadds₁ hadds₂
    (halone₁.of_hasRoom hn₁ hroom₁ Exact.build) (halone₂.of_hasRoom hn₂ hroom₂ Exact.build) hps₁ hps₂
  have hcompile := @compile_eq_ok_of_isSmall _ _ _ _ _ Exact.build hcompile
    (hsmall hroom₁.tables hroom₂.tables) .release
  refine ⟨n, hcompile, fun hroom => ⟨ps, n', ?_, hpolicies⟩⟩
  exact (returns_solvePolicies_iff_of_hasRoom hcompile hroom.tables hroom.rules Exact.build .release).mp hps

/-- A decision that sees nothing and decides the payoff. -/
def errand : Definition ℚ where
  declarations := [⟨"errand", "decision", ["left", "right"]⟩, ⟨"gain", "utility", []⟩]
  entries := [⟨"errand", [], none⟩, ⟨"gain", ["errand"], some [1, 0]⟩]

/-- The wildcatter and an errand.  The errand has nothing to observe; before the drilling is decided on, all
tables that mention it mention what is observed. -/
theorem solvePolicies_beside_errand : ∃ n₁ n₂ ps₁ ps₂ n₁' n₂' n,
    compile wildcat { weights := [("fee", 2)] } = .ok n₁ ∧ compile errand {} = .ok n₂ ∧
    n₁.names.Disjoint n₂.names ∧ n₁.AddsUp ∧ n₂.AddsUp ∧ n₁.NeverAlone ∧ n₂.NeverAlone ∧
    n₁.HasRoomFor .solvePolicies ∧ n₂.HasRoomFor .solvePolicies ∧
    Returns NetworkM.solvePolicies n₁ ps₁ n₁' ∧ ps₁.length = 2 ∧
    Returns NetworkM.solvePolicies n₂ ps₂ n₂' ∧ ps₂.length = 1 ∧
    compile (wildcat.beside errand) { weights := [("fee", 2)] } = .ok n ∧ n.HasRoomFor .solvePolicies ∧
    ∃ ps n', Returns NetworkM.solvePolicies n ps n' ∧
      (∀ p ∈ ps, p.name ∈ n₁.names ∨ p.name ∈ n₂.names) ∧
      List.Forall₂ Policy.ChoosesAs ps₁ (ps.filter (·.name ∈ n₁.names)) ∧
      List.Forall₂ Policy.ChoosesAs ps₂ (ps.filter (·.name ∈ n₂.names)) := by
  obtain ⟨n₁, h₁, hadds₁, hnames₁, halone₁, hroom₁, hps₁⟩ :=
    exists_ok_of_toOption (x := compile wildcat { weights := [("fee", 2)] })
      (P := fun n => n.AddsUp ∧ n.names = ["oil", "test", "sound", "drill", "profit", "fee"] ∧
        n.NeverAlone ∧ n.HasRoomFor .solvePolicies ∧
        ∃ ps ∈ (runFrom NetworkM.solvePolicies n).1.toOption, ps.length = 2)
      (by decide +kernel)
  obtain ⟨n₂, h₂, hadds₂, hnames₂, halone₂, hroom₂, hps₂⟩ := exists_ok_of_toOption (x := compile errand {})
    (P := fun n => n.AddsUp ∧ n.names = ["errand", "gain"] ∧ n.NeverAlone ∧
      n.HasRoomFor .solvePolicies ∧ ∃ ps ∈ (runFrom NetworkM.solvePolicies n).1.toOption, ps.length = 1) (by decide +kernel)
  obtain ⟨ps₁, n₁', hps₁, hlength₁⟩ := exists_returns_of_toOption hps₁
  obtain ⟨ps₂, n₂', hps₂, hlength₂⟩ := exists_returns_of_toOption hps₂
  have hdisjoint : n₁.names.Disjoint n₂.names := by
    rw [hnames₁, hnames₂]
    simp
  obtain ⟨n, h, hboth⟩ := solvePolicies_beside h₁ h₂ hdisjoint rfl (by decide) hadds₁ hadds₂ halone₁ halone₂
    hroom₁ hroom₂ hps₁ hps₂
  obtain ⟨m, hm, hroom⟩ := exists_ok_of_toOption
    (x := compile (wildcat.beside errand) { weights := [("fee", 2)] })
    (P := fun n => n.HasRoomFor .solvePolicies) (by decide +kernel)
  obtain rfl : n = m := Except.ok.inj (h.symm.trans hm)
  exact ⟨n₁, n₂, ps₁, ps₂, n₁', n₂', n, h₁, h₂, hdisjoint, hadds₁, hadds₂, halone₁, halone₂, hroom₁, hroom₂,
    hps₁, hlength₁, hps₂, hlength₂, h, hroom, hboth hroom⟩

/-- A decision that sees a coin on which the payoff does not depend. -/
def guess : Definition ℚ where
  declarations := [⟨"coin", "chance", ["heads", "tails"]⟩, ⟨"guess", "decision", ["left", "right"]⟩,
    ⟨"prize", "utility", []⟩]
  entries := [⟨"coin", [], some [1 / 2, 1 / 2]⟩, ⟨"guess", ["coin"], none⟩,
    ⟨"prize", ["guess"], some [1, 0]⟩]

/-- Either decision can be resolved by itself, but not both in one network. -/
theorem exists_beside_not_returns : ∃ n₁ n₂ n : Network ℚ,
    compile errand {} = .ok n₁ ∧ n₁.IsStochastic ∧ compile guess {} = .ok n₂ ∧ n₂.IsStochastic ∧
    n₁.names.Disjoint n₂.names ∧ compile (errand.beside guess) {} = .ok n ∧
    (∃ ps n', Returns NetworkM.solvePolicies n₁ ps n') ∧
    (∃ ps n', Returns NetworkM.solvePolicies n₂ ps n') ∧
    ∀ ps n', ¬Returns NetworkM.solvePolicies n ps n' := by
  obtain ⟨n₁, h₁, hchance₁, hnames₁, hsolve₁⟩ := exists_ok_of_toOption (x := compile errand {})
    (P := fun n => n.IsStochastic ∧ n.names = ["errand", "gain"] ∧
      ∃ ps ∈ (runFrom NetworkM.solvePolicies n).1.toOption, True) (by decide +kernel)
  obtain ⟨n₂, h₂, hchance₂, hnames₂, hsolve₂⟩ := exists_ok_of_toOption (x := compile guess {})
    (P := fun n => n.IsStochastic ∧ n.names = ["coin", "guess", "prize"] ∧
      ∃ ps ∈ (runFrom NetworkM.solvePolicies n).1.toOption, True) (by decide +kernel)
  obtain ⟨n, h, hfails⟩ := exists_ok_of_toOption (x := compile (errand.beside guess) {})
    (P := fun n => (runFrom NetworkM.solvePolicies n).1.toOption = none) (by decide +kernel)
  obtain ⟨ps₁, n₁', hsolve₁, -⟩ := exists_returns_of_toOption hsolve₁
  obtain ⟨ps₂, n₂', hsolve₂, -⟩ := exists_returns_of_toOption hsolve₂
  refine ⟨n₁, n₂, n, h₁, hchance₁, h₂, hchance₂, ?_, h, ⟨ps₁, n₁', hsolve₁⟩, ⟨ps₂, n₂', hsolve₂⟩,
    fun ps n' hsolve => ?_⟩
  · rw [hnames₁, hnames₂]
    simp
  · rw [show runFrom NetworkM.solvePolicies n = (.ok ps, n') from hsolve] at hfails
    cases hfails

end Network

end Influence
