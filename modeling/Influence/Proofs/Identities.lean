import Influence.Proofs.Network.Declared

/-! # Identities

A registry is used through three operations: a variable is added with the next free identity or with a
given one, and a decision is relabelled as a chance variable.  No sequence of them, failed ones among
them, issues an identity twice or changes a variable otherwise than from a decision to a chance variable
(`issues_identities_once`).

* **Step lemma.** `run_cases` says what an operation can do to the variables.
* **Search.** `firstFreeUpward?` is the search for a free identity with a check at the last one.  It fails
  exactly if the next candidate and everything after it has been issued (`firstFreeUpward?_eq_none_iff`).
  There the search itself starts again from zero. -/

namespace Influence.Registry

variable {r r' : Registry} {v w : Variable} {id : VariableId}

/-! ### Operations -/

/-- An operation on a registry. -/
inductive Operation where
  | add (kind : NodeKind) (arity : ℕ)
  | addWithId (id : VariableId) (kind : NodeKind) (arity : ℕ)
  | relabelAsChance (v : Variable)
deriving DecidableEq, Repr

/-- The computation that an operation stands for. -/
def Operation.run : Operation → RegistryM Variable
  | .add kind arity => Registry.add kind arity
  | .addWithId id kind arity => Registry.addWithId id kind arity
  | .relabelAsChance v => Registry.relabelAsChance v

/-- The variable that an operation is to issue has this kind and arity. -/
inductive Operation.Issues (kind : NodeKind) (arity : ℕ) : Operation → Prop
  | add : Issues kind arity (.add kind arity)
  | addWithId (id : VariableId) : Issues kind arity (.addWithId id kind arity)

/-- The registry that some operations lead to, whether they succeed or fail. -/
def afterOperations (r : Registry) (cs : List Operation) : Registry :=
  cs.foldl (fun r c => (runFrom c.run r).2) r

/-- The identities of the handles that some operations return. -/
def returnedIds : Registry → List Operation → List VariableId
  | _, [] => []
  | r, c :: cs =>
    ((runFrom c.run r).1.toOption.map (·.id)).toList ++ returnedIds (runFrom c.run r).2 cs

theorem runFrom_addWithId (id : VariableId) (kind : NodeKind) (arity : ℕ) (r : Registry) :
    runFrom (addWithId id kind arity) r =
      if r.issued id then (.error (.duplicateId id), r)
      else if arity = 0 then (.error (.withoutOutcome id), r)
      else (.ok ⟨id, arity, kind⟩, r.issue ⟨id, arity, kind⟩) := by
  unfold addWithId
  rw [runFrom_bind_of_returns (returns_get.mpr ⟨rfl, rfl⟩)]
  by_cases hissued : r.issued id
  · simp only [hissued, if_true]
    rfl
  · simp only [hissued]
    by_cases harity : arity = 0
    · simp only [harity, if_true]
      rfl
    · simp only [harity, if_false]
      rfl

theorem runFrom_relabelAsChance (v : Variable) (r : Registry) :
    runFrom (relabelAsChance v) r =
      match r.find? v.id with
      | none => (.error (.relabelUnregistered v), r)
      | some w =>
        if w.kind ≠ .decision then (.error (.relabelKind w.kind v), r)
        else (.ok { w with kind := .chance }, r.withChance v) := by
  unfold relabelAsChance
  rw [runFrom_bind_of_returns (returns_get.mpr ⟨rfl, rfl⟩)]
  cases r.find? v.id with
  | none => rfl
  | some w =>
      dsimp only
      split <;> rfl

/-- An operation fails and leaves the variables alone, issues a new variable, or turns a decision into a
chance variable. -/
theorem run_cases (c : Operation) (r : Registry) :
    (∃ e r', runFrom c.run r = (.error e, r') ∧ r'.handles = r.handles) ∨
    (∃ v r', runFrom c.run r = (.ok v, r') ∧ c.Issues v.kind v.arity ∧ v.id ∉ Axes.ids r.handles ∧
      r'.handles = r.handles ++ [v]) ∨
    ∃ v w, runFrom c.run r = (.ok { w with kind := .chance }, r.withChance v) ∧
      c = .relabelAsChance v ∧ r.find? v.id = some w ∧ w.kind = .decision := by
  have hadd : ∀ (id : VariableId) (kind : NodeKind) (arity : ℕ) (r : Registry),
      (∃ e r', runFrom (addWithId id kind arity) r = (.error e, r') ∧ r'.handles = r.handles) ∨
      ∃ r', runFrom (addWithId id kind arity) r = (.ok ⟨id, arity, kind⟩, r') ∧
        id ∉ Axes.ids r.handles ∧ r'.handles = r.handles ++ [⟨id, arity, kind⟩] := by
    intro id kind arity r
    rw [runFrom_addWithId]
    by_cases hissued : r.issued id
    · exact .inl ⟨_, r, if_pos hissued, rfl⟩
    · rw [if_neg hissued]
      by_cases harity : arity = 0
      · exact .inl ⟨_, r, if_pos harity, rfl⟩
      · exact .inr ⟨_, if_neg harity, mt (issued_iff r id).mpr hissued, rfl⟩
  cases c with
  | add kind arity =>
      rcases hadd (r.firstFree r.size r.nextVariable) kind arity
          { r with nextVariable := r.firstFree r.size r.nextVariable } with h | ⟨r', hrun, h⟩
      · exact .inl h
      · exact .inr (.inl ⟨_, r', hrun, .add, h⟩)
  | addWithId id kind arity =>
      rcases hadd id kind arity r with h | ⟨r', hrun, h⟩
      · exact .inl h
      · exact .inr (.inl ⟨_, r', hrun, .addWithId id, h⟩)
  | relabelAsChance v =>
      rw [Operation.run, runFrom_relabelAsChance]
      cases hfind : r.find? v.id with
      | none => exact .inl ⟨_, r, rfl, rfl⟩
      | some w =>
          by_cases hkind : w.kind = .decision
          · exact .inr (.inr ⟨v, w, by simp [hkind], rfl, hfind, hkind⟩)
          · exact .inl ⟨.relabelKind w.kind v, r, by simp [hkind], rfl⟩

theorem handles_of_error {c : Operation} {e : Error} (h : runFrom c.run r = (.error e, r')) :
    r'.handles = r.handles := by
  rcases run_cases c r with ⟨e', r'', hrun, hhandles⟩ | ⟨u, r'', hrun, -⟩ | ⟨u, w, hrun, -⟩
  · cases h.symm.trans hrun
    exact hhandles
  · cases h.symm.trans hrun
  · cases h.symm.trans hrun

theorem new_of_returns {c : Operation} {kind : NodeKind} {arity : ℕ} (hissues : c.Issues kind arity)
    (h : Returns c.run r v r') : v.id ∉ Axes.ids r.handles ∧ v.arity = arity ∧ v.kind = kind ∧
      r'.handles = r.handles ++ [v] := by
  rcases run_cases c r with ⟨e, r'', hrun, -⟩ | ⟨u, r'', hrun, hissues', hfresh, hhandles⟩ |
    ⟨u, w, hrun, rfl, -⟩
  · cases h.symm.trans hrun
  · cases h.symm.trans hrun
    have hsame : v.arity = arity ∧ v.kind = kind := by
      cases hissues' <;> cases hissues <;> exact ⟨rfl, rfl⟩
    exact ⟨hfresh, hsame.1, hsame.2, hhandles⟩
  · cases hissues

/-! ### Variables along a run -/

/-- What can become of a variable: it stays as it is, or turns from a decision into a chance variable. -/
def Becomes (v w : Variable) : Prop :=
  w.id = v.id ∧ w.arity = v.arity ∧ (w.kind = v.kind ∨ v.kind = .decision ∧ w.kind = .chance)

theorem Becomes.trans {u : Variable} (h : Becomes u v) (h' : Becomes v w) : Becomes u w := by
  obtain ⟨hid, harity, hkind⟩ := h
  obtain ⟨hid', harity', hkind'⟩ := h'
  refine ⟨hid'.trans hid, harity'.trans harity, ?_⟩
  rcases hkind with hkind | ⟨hdecision, hchance⟩
  · rwa [← hkind]
  · rcases hkind' with hkind' | ⟨hdecision', -⟩
    · exact .inr ⟨hdecision, hkind'.trans hchance⟩
    · rw [hchance] at hdecision'
      cases hdecision'

theorem find?_run (c : Operation) (h : r.find? id = some v) :
    ∃ w, (runFrom c.run r).2.find? id = some w ∧ Becomes v w := by
  have hself : Becomes v v := ⟨rfl, rfl, .inl rfl⟩
  rcases run_cases c r with ⟨e, r', hrun, hhandles⟩ | ⟨u, r', hrun, -, -, hhandles⟩ |
    ⟨u, w, hrun, -, hfind, hkind⟩
  · rw [hrun]
    exact ⟨v, by rw [find?, hhandles]; exact h, hself⟩
  · rw [hrun]
    refine ⟨v, ?_, hself⟩
    rw [find?, hhandles, List.find?_append, show List.find? (·.id == id) r.handles = some v from h]
    rfl
  · rw [hrun]
    dsimp only
    rw [find?_withChance, h, Option.map_some]
    refine ⟨_, rfl, ?_⟩
    split
    next hid =>
      -- the variable found is the one that is relabelled, so it was a decision
      have hv : v.id = id := by simpa using List.find?_some h
      have hw : v = w := by
        rw [← (by simpa using hid : v.id = u.id), hv, h] at hfind
        exact Option.some.inj hfind
      exact ⟨rfl, rfl, .inr ⟨hw ▸ hkind, rfl⟩⟩
    next => exact hself

/-- A variable keeps its identity and its arity along a run, and only a decision changes its kind. -/
theorem find?_afterOperations (cs : List Operation) (h : r.find? id = some v) :
    ∃ w, (r.afterOperations cs).find? id = some w ∧ Becomes v w := by
  induction cs generalizing r v with
  | nil => exact ⟨v, h, rfl, rfl, .inl rfl⟩
  | cons c cs ih =>
      obtain ⟨w, hw, hvw⟩ := find?_run c h
      obtain ⟨u, hu, hwu⟩ := ih hw
      exact ⟨u, hu, hvw.trans hwu⟩

theorem ids_run (c : Operation) (r : Registry) :
    Axes.ids (runFrom c.run r).2.handles = Axes.ids r.handles ∨
      ∃ v : Variable, v.id ∉ Axes.ids r.handles ∧
        Axes.ids (runFrom c.run r).2.handles = Axes.ids r.handles ++ [v.id] := by
  rcases run_cases c r with ⟨e, r', hrun, hhandles⟩ | ⟨v, r', hrun, -, hfresh, hhandles⟩ |
    ⟨v, w, hrun, -⟩
  · exact .inl (by rw [hrun, hhandles])
  · exact .inr ⟨v, hfresh, by rw [hrun, hhandles, Axes.ids_append]; rfl⟩
  · exact .inl (by rw [hrun, ids_withChance])

theorem ids_subset_run (c : Operation) (r : Registry) :
    Axes.ids r.handles ⊆ Axes.ids (runFrom c.run r).2.handles := by
  rcases ids_run c r with h | ⟨v, -, h⟩
  · rw [h]
    exact List.Subset.refl _
  · rw [h]
    exact List.subset_append_left _ _

theorem ids_subset_afterOperations (r : Registry) (cs : List Operation) :
    Axes.ids r.handles ⊆ Axes.ids (r.afterOperations cs).handles := by
  induction cs generalizing r with
  | nil => exact List.Subset.refl _
  | cons c cs ih => exact List.Subset.trans (ids_subset_run c r) (ih _)

theorem nodup_afterOperations (h : (Axes.ids r.handles).Nodup) (cs : List Operation) :
    (Axes.ids (r.afterOperations cs).handles).Nodup := by
  induction cs generalizing r with
  | nil => exact h
  | cons c cs ih =>
      refine ih ?_
      rcases ids_run c r with hids | ⟨v, hfresh, hids⟩
      · rwa [hids]
      · rw [hids, List.nodup_append]
        refine ⟨h, by simp, ?_⟩
        rintro id hid _ hid' rfl
        exact hfresh (List.mem_singleton.mp hid' ▸ hid)

theorem mem_ids_of_run {c : Operation} (h : (runFrom c.run r).1 = .ok v) :
    v.id ∈ Axes.ids (runFrom c.run r).2.handles := by
  rcases run_cases c r with ⟨e, r', hrun, -⟩ | ⟨u, r', hrun, -, -, hhandles⟩ | ⟨u, w, hrun, -, hfind, -⟩
  · rw [hrun] at h
    cases h
  · rw [hrun] at h ⊢
    cases h
    rw [hhandles, Axes.ids_append]
    simp
  · rw [hrun] at h ⊢
    cases h
    rw [ids_withChance]
    exact Axes.mem_ids_of_mem (v := w) (List.mem_of_find?_eq_some hfind)

theorem returnedIds_subset (r : Registry) (cs : List Operation) :
    r.returnedIds cs ⊆ Axes.ids (r.afterOperations cs).handles := by
  induction cs generalizing r with
  | nil => exact List.nil_subset _
  | cons c cs ih =>
      intro id hid
      rcases List.mem_append.mp hid with hid | hid
      · obtain ⟨v, hv, rfl⟩ : ∃ v, (runFrom c.run r).1.toOption = some v ∧ v.id = id := by
          simpa using hid
        obtain ⟨_, hok, rfl⟩ := exists_ok_of_toOption (P := (· = v)) ⟨v, hv, rfl⟩
        exact ids_subset_afterOperations _ cs (mem_ids_of_run hok)
      · exact ih _ hid

/-! ### The search for a free identity -/

/-- The search for a free identity, with a check that the next candidate is not past the last identity. -/
def firstFreeUpward? (r : Registry) : ℕ → VariableId → Option VariableId
  | 0, id => some id
  | n + 1, id =>
    if r.issued id then if id + 1 = 0 then none else r.firstFreeUpward? n (id + 1) else some id

theorem toNat_add_one (h : id + 1 ≠ 0) : (id + 1).toNat = id.toNat + 1 := by
  have hne : (id + 1).toNat ≠ 0 := fun h' => h (UInt32.toNat_inj.mp h')
  have hlt := id.toNat_lt
  rw [UInt32.toNat_add, UInt32.toNat_one] at hne ⊢
  omega

/-- A search that does not come to the last identity finds what the plain search finds. -/
theorem firstFreeUpward?_eq_some {n : ℕ} {found : VariableId}
    (h : r.firstFreeUpward? n id = some found) :
    r.firstFree n id = found ∧ id ≤ found ∧ ∀ x, id ≤ x → x < found → r.issued x := by
  induction n generalizing id with
  | zero =>
      cases h
      exact ⟨rfl, UInt32.le_refl _, fun x hx hlt => absurd hx (UInt32.not_le.mpr hlt)⟩
  | succ n ih =>
      unfold firstFreeUpward? at h
      unfold firstFree
      split at h
      next hid =>
        split at h
        next => cases h
        next hlast =>
          obtain ⟨hfound, hle, hissued⟩ := ih h
          have hnext := toNat_add_one hlast
          rw [UInt32.le_iff_toNat_le] at hle
          refine ⟨by rwa [if_pos hid], UInt32.le_iff_toNat_le.mpr (by omega), fun x hx hlt => ?_⟩
          by_cases heq : x = id
          · exact heq ▸ hid
          · refine hissued x (UInt32.le_iff_toNat_le.mpr ?_) hlt
            have hne : x.toNat ≠ id.toNat := fun h => heq (UInt32.toNat_inj.mp h)
            rw [UInt32.le_iff_toNat_le] at hx
            omega
      next hid =>
        cases h
        exact ⟨if_neg hid, UInt32.le_refl _, fun x hx hlt => absurd hx (UInt32.not_le.mpr hlt)⟩

/-- A search that comes to the last identity has found everything issued. -/
theorem issued_of_firstFreeUpward?_eq_none {n : ℕ} (h : r.firstFreeUpward? n id = none) {x : VariableId}
    (hx : id ≤ x) : r.issued x := by
  induction n generalizing id with
  | zero => cases h
  | succ n ih =>
      unfold firstFreeUpward? at h
      split at h
      next hid =>
        by_cases heq : x = id
        · exact heq ▸ hid
        have hne : x.toNat ≠ id.toNat := fun h => heq (UInt32.toNat_inj.mp h)
        rw [UInt32.le_iff_toNat_le] at hx
        split at h
        next hlast =>
          have hid' := congrArg UInt32.toNat hlast
          rw [UInt32.toNat_add, UInt32.toNat_one, UInt32.toNat_zero] at hid'
          have hlt := x.toNat_lt
          have hlt' := id.toNat_lt
          omega
        next hlast =>
          refine ih h (UInt32.le_iff_toNat_le.mpr ?_)
          rw [toNat_add_one hlast]
          omega
      next => cases h

/-- The search comes to the last identity exactly if nothing from its start on is free. -/
theorem firstFreeUpward?_eq_none_iff (hsize : r.size < UInt32.size) :
    r.firstFreeUpward? r.size id = none ↔ ∀ x, id ≤ x → r.issued x := by
  constructor
  · exact fun h x => issued_of_firstFreeUpward?_eq_none h
  · intro hall
    cases hfound : r.firstFreeUpward? r.size id with
    | none => rfl
    | some found =>
        obtain ⟨rfl, hle, -⟩ := firstFreeUpward?_eq_some hfound
        exact absurd (hall _ hle) (not_issued_firstFree hsize id)

/-- If nothing from its start on is free, the search finds the first identity that is free at all. -/
theorem firstFree_of_forall_issued (hsize : r.size < UInt32.size) (hall : ∀ x, id ≤ x → r.issued x) :
    r.firstFree r.size id < id ∧ ∀ x, x < r.firstFree r.size id → r.issued x := by
  obtain ⟨k, hk, hfirst, hissued, -⟩ := exists_firstFree r r.size id
  have hlt : r.firstFree r.size id < id :=
    UInt32.not_le.mp fun hle => not_issued_firstFree hsize id (hall _ hle)
  refine ⟨hlt, fun x hx => ?_⟩
  have htoNat : ∀ j ≤ k, (id + UInt32.ofNat j).toNat = (id.toNat + j) % 2 ^ 32 := fun j hj => by
    rw [UInt32.toNat_add, UInt32.toNat_ofNat_of_lt' (by omega)]
  have hbound := id.toNat_lt
  have hfound := congrArg UInt32.toNat hfirst
  rw [htoNat k (Nat.le_refl k)] at hfound
  rw [UInt32.lt_iff_toNat_lt] at hlt hx
  have hsize' : UInt32.size = 2 ^ 32 := rfl
  -- the search comes to `x` after it has started again, and before it comes to what it finds
  obtain ⟨j, hj⟩ : ∃ j, j = x.toNat + 2 ^ 32 - id.toNat := ⟨_, rfl⟩
  have hjk : j < k := by omega
  have hx' : id + UInt32.ofNat j = x := by
    apply UInt32.toNat_inj.mp
    rw [htoNat j (by omega)]
    omega
  exact hx' ▸ hissued j hjk

/-- While there are identities left, the search finds one: going upward, or from zero if it goes past the
last identity. -/
theorem exists_returns_add_search {kind : NodeKind} {arity : ℕ} (hsize : r.size < UInt32.size)
    (harity : 0 < arity) : ∃ v r', Returns (add kind arity) r v r' ∧
      ((∃ id, r.nextVariable ≤ id ∧ ¬r.issued id) →
        r.firstFreeUpward? r.size r.nextVariable = some v.id ∧ r.nextVariable ≤ v.id ∧
          ∀ id, r.nextVariable ≤ id → id < v.id → r.issued id) ∧
      ((∀ id, r.nextVariable ≤ id → r.issued id) →
        r.firstFreeUpward? r.size r.nextVariable = none ∧ v.id < r.nextVariable ∧
          ∀ id, id < v.id → r.issued id) := by
  obtain ⟨r', hreturns⟩ : ∃ r', Returns (add kind arity) r _ r' :=
    exists_returns_add_firstFree hsize (Nat.pos_iff_ne_zero.mp harity)
  refine ⟨_, r', hreturns, ?_, fun hall =>
    ⟨(firstFreeUpward?_eq_none_iff hsize).mpr hall, firstFree_of_forall_issued hsize hall⟩⟩
  rintro ⟨id, hle, hfree⟩
  cases hfound : r.firstFreeUpward? r.size r.nextVariable with
  | none => exact absurd ((firstFreeUpward?_eq_none_iff hsize).mp hfound id hle) hfree
  | some found =>
      obtain ⟨rfl, hsearch⟩ := firstFreeUpward?_eq_some hfound
      exact ⟨rfl, hsearch⟩

/-- **Identities are issued once.**  Whatever operations have been made, a variable that is added has an
identity that no earlier operation returned, a failure leaves the variables alone, and a variable keeps
its identity, its arity and its kind, unless it turns from a decision into a chance variable.  While there
are identities left one more can be added.  The search for it goes upward to the first free identity; it
goes past the last identity exactly if it finds none, and then starts again from zero. -/
theorem issues_identities_once (before : List Operation) :
    ∀ r, r = afterOperations {} before →
      (Axes.ids r.handles).Nodup ∧
      (∀ (c : Operation) kind arity v r', c.Issues kind arity → Returns c.run r v r' →
        v.id ∉ returnedIds {} before ∧ v.arity = arity ∧ v.kind = kind ∧
          r'.handles = r.handles ++ [v]) ∧
      (∀ kind arity, 0 < arity → r.size < UInt32.size → ∃ v r', Returns (add kind arity) r v r' ∧
        ((∃ id, r.nextVariable ≤ id ∧ ¬r.issued id) →
          r.firstFreeUpward? r.size r.nextVariable = some v.id ∧ r.nextVariable ≤ v.id ∧
            ∀ id, r.nextVariable ≤ id → id < v.id → r.issued id) ∧
        ((∀ id, r.nextVariable ≤ id → r.issued id) →
          r.firstFreeUpward? r.size r.nextVariable = none ∧ v.id < r.nextVariable ∧
            ∀ id, id < v.id → r.issued id)) ∧
      (∀ (c : Operation) e r', runFrom c.run r = (.error e, r') → r'.handles = r.handles) ∧
      ∀ id v, r.find? id = some v → ∀ after : List Operation,
        ∃ w, (r.afterOperations after).find? id = some w ∧ Becomes v w := by
  rintro r rfl
  refine ⟨nodup_afterOperations (r := {}) List.nodup_nil before, fun c kind arity v r' hissues h => ?_,
    fun kind arity harity hsize => exists_returns_add_search hsize harity,
    fun c e r' => handles_of_error, fun id v h after => find?_afterOperations after h⟩
  obtain ⟨hfresh, hvariable⟩ := new_of_returns hissues h
  exact ⟨fun hmem => hfresh (returnedIds_subset {} before hmem), hvariable⟩

/-- The last identity is taken by a decision, which is relabelled later.  The next variable gets the first
identity of all, and the last identity is not issued again. -/
theorem issues_identities_once_of_last :
    let last : Variable := ⟨4294967295, 2, .decision⟩
    let before : List Operation := [.add .utility 0, .addWithId 4294967295 .decision 2]
    let r := afterOperations {} before
    (∃ v r', Returns (add .chance 1) r v r' ∧ v.id = 0 ∧ v.id ∉ returnedIds {} before ∧
      r'.handles = [last, v]) ∧
    (runFrom (addWithId 4294967295 .chance 1) r).2.handles = [last] ∧
    ∃ w, (r.afterOperations [.relabelAsChance last]).find? 4294967295 = some w ∧ Becomes last w ∧
      w.kind = .chance := by
  intro last before r
  obtain ⟨-, hfresh, hadd, hfails, hkeeps⟩ := issues_identities_once before r rfl
  obtain ⟨v, r', hreturns, -, hpast⟩ := hadd .chance 1 (by decide) (by decide +kernel)
  have hlast : ∀ id, r.nextVariable ≤ id → r.issued id := by
    intro id hle
    have hnext : r.nextVariable = 4294967295 := by decide +kernel
    have htoNat : UInt32.toNat 4294967295 = 4294967295 := rfl
    have hlt := id.toNat_lt
    rw [hnext, UInt32.le_iff_toNat_le, htoNat] at hle
    rw [show id = 4294967295 from UInt32.toNat_inj.mp (by omega)]
    decide +kernel
  have hzero : v.id = 0 := by
    by_contra hne
    have hissued := (hpast hlast).2.2 0 (UInt32.pos_iff_ne_zero.mpr hne)
    exact absurd hissued (by decide +kernel)
  obtain ⟨hnew, -, -, hhandles⟩ := hfresh (.add .chance 1) .chance 1 v r' .add hreturns
  obtain ⟨w, hw, hbecomes⟩ := hkeeps 4294967295 last (by decide +kernel) [.relabelAsChance last]
  have hchance : (r.afterOperations [.relabelAsChance last]).find? 4294967295 =
      some { last with kind := .chance } := by decide +kernel
  refine ⟨⟨v, r', hreturns, hzero, hnew, hhandles⟩, hfails (.addWithId 4294967295 .chance 1)
    (.duplicateId 4294967295) r rfl, w, hw, hbecomes, ?_⟩
  rw [← Option.some.inj (hchance.symm.trans hw)]

/-- The search for a free identity can go past the last one: with one variable it finds the first identity
of all, and the next candidate after it. -/
theorem exists_search_past_last :
    ∃ r : Registry, (∃ cs, r = afterOperations {} cs) ∧ r.size = 1 ∧
      r.firstFreeUpward? r.size r.nextVariable = none ∧
      ∃ v r', Returns (add .chance 1) r v r' ∧ v.id = 0 ∧
        (runFrom (add .chance 0) r').1 = .error (.withoutOutcome 1) := by
  refine ⟨_, ⟨[.addWithId 4294967295 .chance 1], rfl⟩, by decide +kernel, by decide +kernel,
    ⟨0, 1, .chance⟩, ⟨[⟨4294967295, 1, .chance⟩, ⟨0, 1, .chance⟩], 1, 0⟩, ?_, rfl, ?_⟩
  · rw [Returns]
    rfl
  · rfl

end Influence.Registry
