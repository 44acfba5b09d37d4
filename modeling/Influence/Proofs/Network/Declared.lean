import Influence.Proofs.Axes
import Influence.Proofs.Run
import Influence.Network.Compile

/-! # Declared nodes and checked entries

`Declared` says what holds of the nodes of a definition once all declarations have been accepted:
names and handles are distinct, and a handle has as many outcomes as its declaration.  `Checked`
says what holds of the entries: each is for a declared variable, no variable has two, and parents
are distinct declared variables other than utilities. -/

namespace Influence

variable {α : Type} {nodes nodes' : List Node} {r r' : Registry}

/-! ### Issued variables -/

namespace Registry

/-- A search for a free identity passes over issued candidates, and stops early only at a free one. -/
theorem exists_firstFree (r : Registry) (n : ℕ) (id : VariableId) :
    ∃ k ≤ n, r.firstFree n id = id + UInt32.ofNat k ∧ (∀ j < k, r.issued (id + UInt32.ofNat j)) ∧
      (k < n → ¬r.issued (r.firstFree n id)) := by
  induction n generalizing id with
  | zero => exact ⟨0, Nat.le_refl _, by simp [firstFree], by simp, by simp⟩
  | succ n ih =>
      unfold firstFree
      split
      next hid =>
        have hstep : ∀ j, id + 1 + UInt32.ofNat j = id + UInt32.ofNat (j + 1) := by
          intro j
          rw [UInt32.ofNat_add, UInt32.add_assoc, UInt32.add_comm (UInt32.ofNat j)]
          rfl
        obtain ⟨k, hk, hfirst, hissued, hfree⟩ := ih (id + 1)
        refine ⟨k + 1, by omega, by rw [hfirst, hstep], fun j hj => ?_, fun h => hfree (by omega)⟩
        cases j with
        | zero => simpa using hid
        | succ j => exact hstep j ▸ hissued j (by omega)
      next hid => exact ⟨0, Nat.zero_le _, by simp, by simp, fun _ => hid⟩

/-- A search for a free identity that fails has found every candidate issued. -/
theorem issued_of_issued_firstFree {n : ℕ} {id : VariableId} (h : r.issued (r.firstFree n id))
    {j : ℕ} (hj : j ≤ n) : r.issued (id + UInt32.ofNat j) := by
  obtain ⟨k, hk, hfirst, hissued, hfree⟩ := exists_firstFree r n id
  obtain rfl : k = n := by
    by_contra hne
    exact hfree (by omega) h
  rcases Nat.lt_or_eq_of_le hj with hj | rfl
  · exact hissued j hj
  · exact hfirst ▸ h

/-- Among more candidates than there are variables one is free. -/
theorem not_issued_firstFree (hsize : r.size < UInt32.size) (id : VariableId) :
    ¬r.issued (r.firstFree r.size id) := by
  intro hissued
  have hsub : (List.range (r.size + 1)).map (fun j => id + UInt32.ofNat j) ⊆ Axes.ids r.handles := by
    intro x hx
    obtain ⟨j, hj, rfl⟩ := List.mem_map.mp hx
    rw [List.mem_range] at hj
    exact (issued_iff r _).mp (issued_of_issued_firstFree hissued (by omega))
  have hnodup : ((List.range (r.size + 1)).map fun j => id + UInt32.ofNat j).Nodup := by
    refine List.nodup_range.map_on fun i hi j hj h => ?_
    rw [List.mem_range] at hi hj
    have heq := congrArg UInt32.toNat ((UInt32.add_right_inj _).mp h)
    rwa [UInt32.toNat_ofNat_of_lt' (by omega), UInt32.toNat_ofNat_of_lt' (by omega)] at heq
  have hlength := (hnodup.subperm hsub).length_le
  rw [List.length_map, List.length_range, Axes.length_ids] at hlength
  exact Nat.not_succ_le_self _ hlength

theorem returns_addWithId {id : VariableId} {kind : NodeKind} {arity : ℕ} {v : Variable} :
    Returns (addWithId id kind arity) r v r' ↔
      ¬r.issued id ∧ arity ≠ 0 ∧ v = ⟨id, arity, kind⟩ ∧ r' = r.issue v := by
  unfold addWithId
  simp only [returns_bind, returns_get, returns_guard, returns_set, returns_pure]
  constructor
  · rintro ⟨_, _, ⟨rfl, rfl⟩, hfresh, harity, _, _, rfl, rfl, rfl⟩
    exact ⟨hfresh, harity, rfl, rfl⟩
  · rintro ⟨hfresh, harity, rfl, rfl⟩
    exact ⟨r, r, ⟨rfl, rfl⟩, hfresh, harity, ⟨⟩, _, rfl, rfl, rfl⟩

/-- A new variable gets an identity that no other variable has. -/
theorem returns_add {kind : NodeKind} {arity : ℕ} {v : Variable}
    (h : Returns (add kind arity) r v r') :
    v.id ∉ Axes.ids r.handles ∧ v.arity = arity ∧ 0 < arity ∧ v.kind = kind ∧
      r'.handles = r.handles ++ [v] ∧ r'.nextFactor = r.nextFactor := by
  unfold add at h
  simp only [returns_bind, returns_get, returns_set, returns_addWithId] at h
  obtain ⟨_, _, ⟨rfl, rfl⟩, _, _, rfl, hfresh, harity, rfl, rfl⟩ := h
  rw [issued_iff] at hfresh
  exact ⟨hfresh, rfl, Nat.pos_of_ne_zero harity, rfl, rfl, rfl⟩

/-- While there are identities left, the next free one is issued. -/
theorem exists_returns_add_firstFree {kind : NodeKind} {arity : ℕ} (hsize : r.size < UInt32.size)
    (harity : arity ≠ 0) :
    ∃ r', Returns (add kind arity) r ⟨r.firstFree r.size r.nextVariable, arity, kind⟩ r' := by
  unfold add
  simp only [returns_bind, returns_get, returns_set, returns_addWithId]
  exact ⟨_, r, r, ⟨rfl, rfl⟩, ⟨⟩, _, rfl, not_issued_firstFree hsize r.nextVariable, harity, rfl, rfl⟩

/-- Variables can be added while there are identities left. -/
theorem exists_returns_add {kind : NodeKind} {arity : ℕ} (hsize : r.size < UInt32.size)
    (harity : arity ≠ 0) : ∃ v r', Returns (add kind arity) r v r' :=
  ⟨_, exists_returns_add_firstFree hsize harity⟩

end Registry

/-! ### Declarations -/

namespace Network

/-- The nodes of accepted declarations, with the registry that issued their variables. -/
structure Declared (nodes : List Node) (r : Registry) : Prop where
  handles : r.handles = nodes.map (·.handle)
  distinct : (Axes.ids (nodes.map (·.handle))).Nodup
  names : (nodes.map (·.name)).Nodup
  arity : ∀ m ∈ nodes, m.handle.arity = m.outcomes.length
  arity_pos : ∀ m ∈ nodes, 0 < m.handle.arity
  arity_utility : ∀ m ∈ nodes, m.kind = .utility → m.handle.arity = 1

theorem length_filledOutcomes {d : Declaration} {kind : NodeKind} {outcomes : List String}
    (h : filledOutcomes d kind = .ok outcomes) (hkind : kind = .utility) : outcomes.length = 1 := by
  subst hkind
  unfold filledOutcomes at h
  split at h <;> simp_all
  all_goals
    subst h
    rfl

theorem declared_declare {d : Declaration} (hdeclared : Declared nodes r)
    (h : Returns (declare nodes d) r nodes' r') :
    Declared nodes' r' ∧ r'.nextFactor = r.nextFactor := by
  unfold declare at h
  simp only [returns_bind, returns_except, returns_guard, returns_pure] at h
  obtain ⟨kind, _, ⟨hkind, rfl⟩, hname, outcomes, _, ⟨houtcomes, rfl⟩, v, _, hadd, rfl, rfl⟩ := h
  obtain ⟨hfresh, harity, hpos, hvkind, hhandles, hnext⟩ := Registry.returns_add hadd
  have hname' : ∀ m ∈ nodes, m.name ≠ d.name := by simpa using hname
  rw [hdeclared.handles] at hfresh
  refine ⟨?_, hnext⟩
  constructor
  case handles => rw [hhandles, hdeclared.handles, List.map_append, List.map_singleton]
  case distinct =>
    rw [List.map_append, Axes.ids_append, List.nodup_append]
    refine ⟨hdeclared.distinct, by simp, ?_⟩
    rintro id hid _ hid' rfl
    exact hfresh (by simpa [List.mem_singleton.mp hid'] using hid)
  case names =>
    rw [List.map_append, List.nodup_append]
    refine ⟨hdeclared.names, by simp, ?_⟩
    rintro name hname _ hnew rfl
    obtain ⟨m, hm, rfl⟩ := List.mem_map.mp hname
    exact hname' m hm (List.mem_singleton.mp hnew)
  case arity =>
    intro m hm
    rcases List.mem_append.mp hm with hm | hm
    · exact hdeclared.arity m hm
    · rw [List.mem_singleton.mp hm]
      exact harity
  case arity_pos =>
    intro m hm
    rcases List.mem_append.mp hm with hm | hm
    · exact hdeclared.arity_pos m hm
    · rw [List.mem_singleton.mp hm]
      exact harity.symm ▸ hpos
  case arity_utility =>
    intro m hm hutility
    rcases List.mem_append.mp hm with hm | hm
    · exact hdeclared.arity_utility m hm hutility
    · rw [List.mem_singleton.mp hm] at hutility ⊢
      exact harity.trans (length_filledOutcomes houtcomes (hvkind.symm.trans hutility))

theorem declared_foldlM {ds : List Declaration} (hdeclared : Declared nodes r)
    (h : Returns (ds.foldlM declare nodes) r nodes' r') :
    Declared nodes' r' ∧ r'.nextFactor = r.nextFactor := by
  induction ds generalizing nodes r with
  | nil =>
      obtain ⟨rfl, rfl⟩ := returns_pure.mp h
      exact ⟨hdeclared, rfl⟩
  | cons d ds ih =>
      obtain ⟨nodes₁, r₁, hfirst, hrest⟩ := returns_foldlM_cons.mp h
      obtain ⟨hdeclared₁, hnext₁⟩ := declared_declare hdeclared hfirst
      obtain ⟨hdeclared₂, hnext₂⟩ := ih hdeclared₁ hrest
      exact ⟨hdeclared₂, hnext₂.trans hnext₁⟩

theorem declared_declareAll {ds : List Declaration} (h : Returns (declareAll ds) {} nodes r) :
    Declared nodes r ∧ r.nextFactor = 0 :=
  declared_foldlM ⟨rfl, by simp, by simp, by simp, by simp, by simp⟩ h

/-! ### Names -/

theorem find?_name_eq_some_iff (hnames : (nodes.map (·.name)).Nodup) {name : String} {m : Node} :
    nodes.find? (·.name == name) = some m ↔ m ∈ nodes ∧ m.name = name := by
  constructor
  · intro h
    exact ⟨List.mem_of_find?_eq_some h, by simpa using List.find?_some h⟩
  · rintro ⟨hm, rfl⟩
    cases hfind : nodes.find? (·.name == m.name) with
    | none => exact absurd (List.find?_eq_none.mp hfind m hm) (by simp)
    | some m' =>
        have hname : m'.name = m.name := by simpa using List.find?_some hfind
        rw [List.inj_on_of_nodup_map hnames (List.mem_of_find?_eq_some hfind) hm hname]

theorem find_eq_ok_iff (hnames : (nodes.map (·.name)).Nodup) {name : String} {m : Node} :
    Node.find nodes name = .ok m ↔ m ∈ nodes ∧ m.name = name := by
  rw [← find?_name_eq_some_iff hnames, Node.find]
  cases nodes.find? (·.name == name) <;> simp

/-- The handles of names are those of the nodes with these names. -/
theorem mem_handlesOf (hnames : (nodes.map (·.name)).Nodup) {names : List String} {v : Variable} :
    v ∈ handlesOf nodes names ↔ ∃ m ∈ nodes, m.name ∈ names ∧ m.handle = v := by
  simp only [handlesOf, List.mem_filterMap, Option.map_eq_some_iff, find?_name_eq_some_iff hnames]
  constructor
  · rintro ⟨name, hname, m, ⟨hm, rfl⟩, rfl⟩
    exact ⟨m, hm, hname, rfl⟩
  · rintro ⟨m, hm, hname, rfl⟩
    exact ⟨m.name, hname, m, ⟨hm, rfl⟩, rfl⟩

/-- The handles of the nodes found for some names. -/
theorem map_handle_of_forall₂ {names : List String} {ms : List Node}
    (h : List.Forall₂ (fun name m => Node.find nodes name = .ok m) names ms) :
    ms.map (·.handle) = handlesOf nodes names := by
  induction h with
  | nil => rfl
  | @cons name m names ms hm _ ih =>
      have hfind : nodes.find? (·.name == name) = some m := by
        unfold Node.find at hm
        split at hm
        next node hnode => rw [hnode, Except.ok.inj hm]
        next => cases hm
      rw [List.map_cons, ih, handlesOf, handlesOf, List.filterMap_cons_some (by rw [hfind]; rfl)]

/-- Declared names have nodes, whose handles are those of the names. -/
theorem exists_nodes {names : List String} (h : ∀ name ∈ names, ∃ m ∈ nodes, m.name = name) :
    ∃ ms, List.Forall₂ (fun name m => Node.find nodes name = .ok m) names ms ∧
      ms.map (·.handle) = handlesOf nodes names := by
  obtain ⟨ms, hms⟩ := exists_forall₂ (R := fun name m => Node.find nodes name = .ok m) fun name hname => by
    obtain ⟨m, hm, heq⟩ := h name hname
    cases hfind : nodes.find? (·.name == name) with
    | none => exact absurd (List.find?_eq_none.mp hfind m hm) (by simp [heq])
    | some m' => exact ⟨m', by rw [Node.find, hfind]⟩
  exact ⟨ms, hms, map_handle_of_forall₂ hms⟩

theorem Declared.eq_of_handle (h : Declared nodes r) {m m' : Node} (hm : m ∈ nodes)
    (hm' : m' ∈ nodes) (hid : m.handle.id = m'.handle.id) : m = m' := by
  have hnodup : (nodes.map (·.handle.id)).Nodup := by
    simpa [Axes.ids, Function.comp_def] using h.distinct
  exact List.inj_on_of_nodup_map hnodup hm hm' hid

theorem Declared.nodup_handlesOf (h : Declared nodes r) {names : List String}
    (hnames : names.Nodup) : (Axes.ids (handlesOf nodes names)).Nodup := by
  induction names with
  | nil => simp [handlesOf]
  | cons name names ih =>
      obtain ⟨hname, hrest⟩ := List.nodup_cons.mp hnames
      cases hfind : nodes.find? (·.name == name) with
      | none =>
          rw [handlesOf, List.filterMap_cons_none (by rw [hfind]; rfl)]
          exact ih hrest
      | some m =>
          obtain ⟨hm, rfl⟩ := (find?_name_eq_some_iff h.names).mp hfind
          rw [handlesOf, List.filterMap_cons_some (by rw [hfind]; rfl)]
          refine Axes.nodup_ids_cons.mpr ⟨fun hid => hname ?_, ih hrest⟩
          obtain ⟨v, hv, hid⟩ := Axes.mem_ids.mp hid
          obtain ⟨m', hm', hname', rfl⟩ := (mem_handlesOf h.names).mp hv
          rwa [← h.eq_of_handle hm' hm hid]

/-! ### Entries -/

/-- The entries of a definition that have been accepted. -/
structure Checked (nodes : List Node) (entries : List (Entry α)) : Prop where
  targets : (entries.map (·.target)).Nodup
  declared : ∀ e ∈ entries, ∃ m ∈ nodes, m.name = e.target ∧ (m.kind = .decision ↔ e.table = none)
  distinct : ∀ e ∈ entries, e.given.Nodup
  given : ∀ e ∈ entries, ∀ name ∈ e.given, ∃ m ∈ nodes, m.name = name ∧ m.kind ≠ .utility

theorem checkGiven_eq_ok_iff (hnames : (nodes.map (·.name)).Nodup) {target : String}
    {seen given : List String} :
    checkGiven nodes target seen given = .ok () ↔
      given.Nodup ∧ (∀ name ∈ given, name ∉ seen) ∧
        ∀ name ∈ given, ∃ m ∈ nodes, m.name = name ∧ m.kind ≠ .utility := by
  induction given generalizing seen with
  | nil => simp [checkGiven]
  | cons name given ih =>
      simp only [checkGiven, except_bind_eq_ok, except_guard_eq_ok, ih, find_eq_ok_iff hnames]
      constructor
      · rintro ⟨m, ⟨hm, hname⟩, hseen, hkind, hdistinct, hfresh, hgiven⟩
        refine ⟨List.nodup_cons.mpr ⟨fun hmem => hfresh name hmem (by simp), hdistinct⟩, ?_, ?_⟩
        · intro x hx
          rcases List.mem_cons.mp hx with rfl | hx
          · simpa using hseen
          · exact fun hmem => hfresh x hx (by simp [hmem])
        · intro x hx
          rcases List.mem_cons.mp hx with rfl | hx
          · exact ⟨m, hm, hname, hkind⟩
          · exact hgiven x hx
      · rintro ⟨hall, hfreshAll, hgivenAll⟩
        obtain ⟨hname, hdistinct⟩ := List.nodup_cons.mp hall
        obtain ⟨hseen, hfresh⟩ := List.forall_mem_cons.mp hfreshAll
        obtain ⟨⟨m, hm, rfl, hkind⟩, hgiven⟩ := List.forall_mem_cons.mp hgivenAll
        refine ⟨m, ⟨hm, rfl⟩, by simpa using hseen, hkind, hdistinct, fun x hx => ?_, hgiven⟩
        rw [List.mem_append, List.mem_singleton, not_or]
        refine ⟨hfresh x hx, ?_⟩
        rintro rfl
        exact hname hx

theorem checkTable_eq_ok_iff {m : Node} {e : Entry α} :
    checkTable m e = .ok () ↔ (m.kind = .decision ↔ e.table = none) := by
  unfold checkTable
  split <;> simp_all

theorem checkEntry_eq_ok_iff (hnames : (nodes.map (·.name)).Nodup) {entries : List (Entry α)}
    {e : Entry α} :
    checkEntry nodes entries e = .ok () ↔
      (∃ m ∈ nodes, m.name = e.target ∧ (m.kind = .decision ↔ e.table = none)) ∧
        (∀ e' ∈ entries, e'.target ≠ e.target) ∧ e.given.Nodup ∧
        ∀ name ∈ e.given, ∃ m ∈ nodes, m.name = name ∧ m.kind ≠ .utility := by
  simp only [checkEntry, except_bind_eq_ok, except_guard_eq_ok, checkGiven_eq_ok_iff hnames,
    checkTable_eq_ok_iff, find_eq_ok_iff hnames, List.any_eq_true, beq_iff_eq, not_exists, not_and]
  constructor
  · rintro ⟨m, ⟨hm, hname⟩, hfresh, _, ⟨hdistinct, -, hgiven⟩, htable⟩
    exact ⟨⟨m, hm, hname, htable⟩, hfresh, hdistinct, hgiven⟩
  · rintro ⟨⟨m, hm, hname, htable⟩, hfresh, hdistinct, hgiven⟩
    exact ⟨m, ⟨hm, hname⟩, hfresh, (), ⟨hdistinct, fun _ _ => List.not_mem_nil, hgiven⟩, htable⟩

theorem checked_append_singleton {entries : List (Entry α)} {e : Entry α} :
    Checked nodes (entries ++ [e]) ↔ Checked nodes entries ∧
      (∃ m ∈ nodes, m.name = e.target ∧ (m.kind = .decision ↔ e.table = none)) ∧
      (∀ e' ∈ entries, e'.target ≠ e.target) ∧ e.given.Nodup ∧
      ∀ name ∈ e.given, ∃ m ∈ nodes, m.name = name ∧ m.kind ≠ .utility := by
  have htargets : ((entries ++ [e]).map (·.target)).Nodup ↔
      (entries.map (·.target)).Nodup ∧ ∀ e' ∈ entries, e'.target ≠ e.target := by
    rw [List.map_append, List.nodup_append]
    simp
  constructor
  · intro h
    obtain ⟨hdistinct, hfresh⟩ := htargets.mp h.targets
    have hlast : e ∈ entries ++ [e] := by simp
    have hsub : ∀ e' ∈ entries, e' ∈ entries ++ [e] := fun _ => List.mem_append_left _
    exact ⟨⟨hdistinct, fun e' he' => h.declared e' (hsub e' he'),
        fun e' he' => h.distinct e' (hsub e' he'), fun e' he' => h.given e' (hsub e' he')⟩,
      h.declared e hlast, hfresh, h.distinct e hlast, h.given e hlast⟩
  · rintro ⟨h, hdeclared, hfresh, hdistinct, hgiven⟩
    constructor
    case targets => exact htargets.mpr ⟨h.targets, hfresh⟩
    case declared => exact List.forall_mem_append.mpr ⟨h.declared, by simpa using hdeclared⟩
    case distinct => exact List.forall_mem_append.mpr ⟨h.distinct, by simpa using hdistinct⟩
    case given => exact List.forall_mem_append.mpr ⟨h.given, by simpa using hgiven⟩

theorem checked_append_iff {entries rest : List (Entry α)} (hnames : (nodes.map (·.name)).Nodup) :
    Checked nodes (entries ++ rest) ↔
      Checked nodes entries ∧ checkEntries nodes entries rest = .ok () := by
  induction rest generalizing entries with
  | nil => simp [checkEntries]
  | cons e rest ih =>
      rw [List.append_cons, ih, checked_append_singleton, ← checkEntry_eq_ok_iff hnames, and_assoc]
      simp only [checkEntries, except_bind_eq_ok]
      refine and_congr_right fun _ => ⟨?_, ?_⟩
      · rintro ⟨hfirst, hrest⟩
        exact ⟨(), hfirst, hrest⟩
      · rintro ⟨⟨⟩, hfirst, hrest⟩
        exact ⟨hfirst, hrest⟩

/-- The checks on the entries accept exactly the entries in order. -/
theorem checkEntries_eq_ok_iff {entries : List (Entry α)} (hnames : (nodes.map (·.name)).Nodup) :
    checkEntries nodes [] entries = .ok () ↔ Checked nodes entries := by
  have hnil : Checked nodes ([] : List (Entry α)) := ⟨by simp, by simp, by simp, by simp⟩
  have h : Checked nodes ([] ++ entries) ↔ Checked nodes ([] : List (Entry α)) ∧
      checkEntries nodes [] entries = .ok () := checked_append_iff hnames
  rw [List.nil_append] at h
  rw [h, and_iff_right hnil]

theorem checkComplete_eq_ok_iff {entries : List (Entry α)} :
    checkComplete nodes entries = .ok () ↔
      ∀ m ∈ nodes, m.kind ≠ .decision → ∃ e ∈ entries, e.target = m.name := by
  have hnone : ∀ name, (entryOf? entries name).isNone ↔ ¬∃ e ∈ entries, e.target = name := by
    simp [entryOf?]
  unfold checkComplete
  split
  next m hfind =>
    have hm := List.find?_some hfind
    rw [Bool.and_eq_true, hnone, bne_iff_ne] at hm
    simp only [reduceCtorEq, false_iff]
    exact fun h => hm.1 (h m (List.mem_of_find?_eq_some hfind) hm.2)
  next hfind =>
    simp only [true_iff]
    intro m hm hkind
    have := List.find?_eq_none.mp hfind m hm
    rw [Bool.and_eq_true, hnone, bne_iff_ne] at this
    by_contra hentry
    exact this ⟨hentry, hkind⟩

end Network

end Influence
