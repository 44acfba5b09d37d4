import Influence.Proofs.Network.Compiled
import Influence.Proofs.Outcome

/-! # Rejected definitions

Each check of the compiler fails for causes of one or two families.  A definition that does not compile
is rejected for what it says (`Network.cause_of_compile`): its options fail their check, the cause is a
definition error, or a table holds a cell that is not a number (`Network.IsBadCell`).  It is never
rejected because the compiler has lost a table or a parent (`Network.family_of_compile`). -/

namespace Influence

/-! ### Failed checks -/

section

variable {ε β γ : Type}

theorem except_bind_eq_error {x : Except ε β} {f : β → Except ε γ} {e : ε} :
    (x >>= f) = .error e ↔ x = .error e ∨ ∃ b, x = .ok b ∧ f b = .error e := by
  cases x <;> simp [bind, Except.bind]

theorem except_guard_eq_error {p : Prop} [Decidable p] {e e' : ε} {x : Except ε β} :
    (if p then (throw e' : Except ε PUnit) >>= fun _ => x else x) = .error e ↔
      p ∧ e' = e ∨ ¬p ∧ x = .error e := by
  split
  next h => simp [h, bind, Except.bind, throw, throwThe, MonadExceptOf.throw]
  next h => simp [h]

/-- A fold fails in one of its steps. -/
theorem except_foldlM_eq_error {f : γ → β → Except ε γ} {l : List β} {c : γ} {e : ε}
    (h : l.foldlM f c = .error e) : ∃ c', ∃ b ∈ l, f c' b = .error e := by
  induction l generalizing c with
  | nil => cases h
  | cons b l ih =>
      rw [List.foldlM_cons, except_bind_eq_error] at h
      rcases h with h | ⟨c', -, h⟩
      · exact ⟨c, b, List.mem_cons_self, h⟩
      · obtain ⟨c'', b', hb', h⟩ := ih h
        exact ⟨c'', b', List.mem_cons_of_mem b hb', h⟩

end

namespace Error

variable {e : Error}

theorem isDefinitionError_of_family (h : e.family = .unknownVariable ∨ e.family = .validation) :
    e.isDefinitionError := by
  unfold isDefinitionError
  rcases h with h | h <;> rw [h]

/-- A definition error is no broken invariant. -/
theorem family_ne_internal (h : e.isDefinitionError) : e.family ≠ .internal := fun he => by
  have hno := (isDefinitionError_eq_false_iff e).mpr (.inr (.inr he))
  rw [h] at hno
  cases hno

end Error

namespace Network

variable {α : Type} {nodes : List Node} {entries : List (Entry α)} {r : Registry} {e : Error}

/-- The cause is the first cell of the table of an entry that is not a number. -/
def IsBadCell [Cell α] (entries : List (Entry α)) (e : Error) : Prop :=
  ∃ entry ∈ entries, ∃ table value, entry.table = some table ∧
    table.findSome? Cell.nonFinite? = some value ∧ e = .nonFiniteCell entry.target value

theorem IsBadCell.family [Cell α] (h : IsBadCell entries e) : e.family = .numerical := by
  obtain ⟨_, -, _, _, -, -, rfl⟩ := h
  rfl

theorem find_eq_error {name : String} (h : Node.find nodes name = .error e) :
    e = .unknownVariable name := by
  unfold Node.find at h
  split at h
  · cases h
  · exact (Except.error.inj h).symm

/-! ### Rejected definitions -/

theorem family_of_filledOutcomes {d : Declaration} {kind : NodeKind}
    (h : filledOutcomes d kind = .error e) : e.family = .validation := by
  unfold filledOutcomes at h
  split at h
  · cases h
  · cases h
  · cases h
    rfl
  · cases h
    rfl
  · split at h
    · cases h
      rfl
    · cases h

theorem family_of_parse {text : String} (h : NodeKind.parse text = .error e) :
    e.family = .unsupportedKind := by
  unfold NodeKind.parse at h
  split at h
  · cases h
  · cases h
    rfl

theorem family_of_checkGiven {target : String} {seen given : List String}
    (h : checkGiven nodes target seen given = .error e) :
    e.family = .unknownVariable ∨ e.family = .validation := by
  induction given generalizing seen with
  | nil => cases h
  | cons name given ih =>
      simp only [checkGiven, except_bind_eq_error, except_guard_eq_error] at h
      rcases h with h | ⟨m, -, ⟨-, rfl⟩ | ⟨-, ⟨-, rfl⟩ | ⟨-, h⟩⟩⟩
      · exact .inl (find_eq_error h ▸ rfl)
      · exact .inr rfl
      · exact .inr rfl
      · exact ih h

theorem family_of_checkEntries {earlier entries : List (Entry α)}
    (h : checkEntries nodes earlier entries = .error e) :
    e.family = .unknownVariable ∨ e.family = .validation := by
  induction entries generalizing earlier with
  | nil => cases h
  | cons entry entries ih =>
      simp only [checkEntries, checkEntry, except_bind_eq_error, except_guard_eq_error] at h
      rcases h with (h | ⟨m, -, ⟨-, rfl⟩ | ⟨-, h | ⟨_, -, h⟩⟩⟩) | ⟨_, -, h⟩
      · exact .inl (find_eq_error h ▸ rfl)
      · exact .inr rfl
      · exact family_of_checkGiven h
      · unfold checkTable at h
        split at h
        · cases h
          exact .inr rfl
        · cases h
        · cases h
          exact .inr rfl
        · cases h
      · exact ih h

theorem family_of_checkComplete (h : checkComplete nodes entries = .error e) :
    e.family = .validation := by
  unfold checkComplete at h
  split at h
  · cases h
    rfl
  · cases h

/-- The positions of the parents are in range, so a cycle is all that can be wrong with them. -/
theorem order_parentsOf_eq_error (hchecked : Checked nodes entries)
    (h : Precedence.order (parentsOf nodes entries) = .error e) : e = .cyclicGraph := by
  have hnone : Precedence.outOfRange? (parentsOf nodes entries) = none := by
    refine List.find?_eq_none.mpr fun p hp hle => ?_
    obtain ⟨list, hlist, hp⟩ := List.mem_flatten.mp hp
    obtain ⟨m, -, rfl⟩ := List.mem_map.mp hlist
    obtain ⟨parent, hgiven, rfl⟩ := List.mem_map.mp hp
    obtain ⟨m', hm', hname, -⟩ := mem_givenOf hchecked hgiven
    rw [decide_eq_true_eq, length_parentsOf] at hle
    have hlt : Node.indexOf nodes parent < nodes.length :=
      List.findIdx_lt_length_of_exists ⟨m', hm', beq_iff_eq.mpr hname⟩
    exact absurd hlt (Nat.not_lt.mpr hle)
  unfold Precedence.order at h
  rw [hnone] at h
  dsimp only at h
  split at h
  · cases h
  · exact (Except.error.inj h).symm

theorem family_of_resolveWeight {w : String × α} (h : resolveWeight nodes w = .error e) :
    e.family = .unknownVariable ∨ e.family = .validation := by
  simp only [resolveWeight, except_bind_eq_error, except_guard_eq_error] at h
  rcases h with h | ⟨m, -, ⟨-, rfl⟩ | ⟨-, h⟩⟩
  · exact .inl (find_eq_error h ▸ rfl)
  · exact .inr rfl
  · cases h

theorem family_of_checkWeights [Cell α] {seen : List String}
    {ws : List (String × α)} (h : Config.checkWeights seen ws = .error e) : e.family = .numerical ∨ e.family = .validation := by
  induction ws generalizing seen with
  | nil => cases h
  | cons w ws ih =>
      obtain ⟨name, weight⟩ := w
      unfold Config.checkWeights at h
      split at h
      · cases h
        exact .inl rfl
      · split at h
        · cases h
          exact .inr rfl
        · exact ih h

end Network

namespace Ends

open Network

variable {α : Type} {nodes : List Node} {entries : List (Entry α)} {r : Registry}

/-- A variable is issued unless there is no identity left for it. -/
theorem add (kind : NodeKind) (arity : ℕ) :
    Ends (fun e => e.isDefinitionError) (fun _ _ => True)
      (runFrom (Registry.add kind arity) r) := by
  unfold Registry.add Registry.addWithId
  refine get (bind (of_returns (returns_set (u := ()).mpr rfl) (R := fun _ _ => True) trivial) ?_)
  rintro _ r' -
  refine get (guard (fun _ => rfl) fun _ => guard (fun _ => rfl) fun _ => ?_)
  exact bind (of_returns (returns_set (u := ()).mpr rfl) (R := fun _ _ => True) trivial)
    fun _ _ _ => pure trivial

/-- A declaration is rejected for what it says. -/
theorem declare (d : Declaration) :
    Ends (fun e => e.isDefinitionError) (fun _ _ => True) (runFrom (declare nodes d) r) := by
  unfold Network.declare
  refine check (fun e h => ?_) fun kind _ => ?_
  · rw [Error.isDefinitionError, family_of_parse h]
  refine guard (fun _ => rfl) fun _ => ?_
  refine check (fun e h => ?_) fun outcomes _ => ?_
  · exact Error.isDefinitionError_of_family (.inr (family_of_filledOutcomes h))
  exact bind (add kind outcomes.length) fun _ _ _ => pure trivial

variable [Build] [Cell α]

/-- Distinct axes are rejected only for the number of cells. -/
theorem create {axes : Axes} {cells : Array α} :
    Ends (fun e => e.isDefinitionError) (fun f _ => f.axes = axes ∧ axes.ids.Nodup)
      (runFrom (Factor.create axes (some cells)) r) := by
  unfold Factor.create
  cases hrepeat : Axes.firstRepeat? [] axes with
  | some v => exact bind (R := fun _ _ => False) (throw rfl) fun _ _ h => h.elim
  | none =>
      refine guard (fun _ => rfl) fun _ => of_returns (returns_state.mpr rfl) ⟨rfl, ?_⟩
      exact (Axes.firstRepeat?_eq_none_iff.mp hrepeat).1

/-- The table of a checked entry is rejected for its cells. -/
theorem compileTable {config : Config α} {m : Node} (hchecked : Checked nodes entries)
    (hnames : (nodes.map (·.name)).Nodup) (hm : m ∈ nodes)
    (hentry : ∃ e ∈ entries, e.target = m.name) (hkind : m.kind ≠ .decision) :
    Ends (fun e => e.isDefinitionError ∨ IsBadCell entries e) (fun _ _ => True)
      (runFrom (compileTable config nodes entries m) r) := by
  obtain ⟨entry, hfind⟩ : ∃ entry, entryOf? entries m.name = some entry := by
    obtain ⟨e, he, htarget⟩ := hentry
    refine Option.ne_none_iff_exists'.mp fun hnone => ?_
    exact List.find?_eq_none.mp hnone e he (beq_iff_eq.mpr htarget)
  have hmem : entry ∈ entries := List.mem_of_find?_eq_some hfind
  have htarget : entry.target = m.name := by simpa using List.find?_some hfind
  obtain ⟨table, htable⟩ : ∃ table, entry.table = some table := by
    obtain ⟨m', hm', hname, htable⟩ := hchecked.declared entry hmem
    obtain rfl : m' = m := List.inj_on_of_nodup_map hnames hm' hm (hname.trans htarget)
    exact Option.ne_none_iff_exists'.mp fun hnone => hkind (htable.mpr hnone)
  unfold Network.compileTable
  rw [hfind, Option.bind_some, htable]
  dsimp only
  cases hvalue : table.findSome? Cell.nonFinite? with
  | some value =>
      refine bind (R := fun _ _ => False) (throw (.inr ?_)) fun _ _ h => h.elim
      exact ⟨entry, hmem, table, value, htable, hvalue, by rw [htarget]⟩
  | none =>
      refine bind (create.imp (fun _ => .inl) fun _ _ => id) fun f r' hf => ?_
      split
      · obtain ⟨haxes, hnodup⟩ := hf
        have hnodup' : f.axes.ids.Nodup := haxes ▸ hnodup
        have hlast := Table.ids_without_append_of_last haxes rfl hnodup'
        refine of_returns ((Factor.returns_normalizeFor_of_last hnodup' hlast).mpr ⟨?_, rfl, rfl⟩)
          trivial
        rw [Factor.mentions, Table.mentions_iff, ← Factor.axes, haxes]
        simp
      · exact pure trivial

/-- A definition is rejected for what it says. -/
theorem compileWith (d : Definition α) (config : Config α) :
    Ends (fun e => config.check = .error e ∨ e.isDefinitionError ∨ IsBadCell d.entries e)
      (fun _ _ => True) (runFrom (Network.compileWith d config) {}) := by
  unfold Network.compileWith
  refine check (fun e h => .inl h) fun _ _ => ?_
  have hdeclare : Ends (fun e => config.check = .error e ∨ e.isDefinitionError ∨
      IsBadCell d.entries e) (fun _ _ => True) (runFrom (declareAll d.declarations) {}) :=
    (foldlM (I := fun _ _ _ => True) (fun d _ _ _ _ => declare d) trivial).imp
      (fun _ h => .inr (.inl h)) fun _ _ => id
  refine bind hdeclare.and_returns fun nodes r h => ?_
  obtain ⟨hdeclared, -⟩ := declared_declareAll h.2
  refine check (fun e h => ?_) fun _ hentries => ?_
  · exact .inr (.inl (Error.isDefinitionError_of_family (family_of_checkEntries h)))
  have hchecked := (checkEntries_eq_ok_iff hdeclared.names).mp hentries
  refine check (fun e h => ?_) fun _ hcomplete => ?_
  · exact .inr (.inl (Error.isDefinitionError_of_family (.inr (family_of_checkComplete h))))
  rw [checkComplete_eq_ok_iff] at hcomplete
  refine check (fun e h => ?_) fun order _ => ?_
  · rw [order_parentsOf_eq_error hchecked h]
    exact .inr (.inl rfl)
  -- every table that is compiled is that of a node with an entry
  have htables : ∀ m ∈ (order.filterMap (nodes[·]?)).filter (·.kind ≠ .decision),
      m ∈ nodes ∧ m.kind ≠ .decision := by
    intro m hm
    obtain ⟨hm, hkind⟩ := List.mem_filter.mp hm
    obtain ⟨i, -, hi⟩ := List.mem_filterMap.mp hm
    exact ⟨List.mem_of_getElem? hi, by simpa using hkind⟩
  refine bind (mapM (V := fun _ _ => True)
    (W := fun ms _ => ∀ m ∈ ms, m ∈ nodes ∧ m.kind ≠ .decision) (fun m ms r h => ?_) htables) ?_
  · obtain ⟨⟨hm, hkind⟩, hms⟩ := List.forall_mem_cons.mp h
    exact (compileTable hchecked hdeclared.names hm (hcomplete m hm hkind) hkind).imp
      (fun _ => .inr) fun _ _ _ => ⟨trivial, hms⟩
  rintro factors r -
  refine bind (mapM (V := fun _ _ => True) (W := fun _ _ => True) (fun w ws r _ => ?_) trivial) ?_
  · refine except (fun e h => ?_) fun _ _ => ⟨trivial, trivial⟩
    exact .inr (.inl (Error.isDefinitionError_of_family (family_of_resolveWeight h)))
  · rintro weights r' -
    exact get (pure trivial)

end Ends

namespace Network

variable {α : Type} [Build] [Cell α] {d : Definition α} {config : Config α} {e : Error}

/-- **A definition is rejected for what it says**: its options fail their check, or the cause is a
definition error or a cell that is not a number. -/
theorem cause_of_compile (h : compile d config = .error e) :
    config.check = .error e ∨ e.isDefinitionError ∨ IsBadCell d.entries e :=
  (Ends.compileWith d config).cause h

/-- The compiler never loses a table or a parent. -/
theorem family_of_compile (h : compile d config = .error e) : e.family ≠ .internal := by
  rcases cause_of_compile h with hcheck | hdefinition | hcell
  · rcases family_of_checkWeights hcheck with h | h <;> rw [h] <;> nofun
  · exact Error.family_ne_internal hdefinition
  · rw [hcell.family]
    nofun

end Network

end Influence
