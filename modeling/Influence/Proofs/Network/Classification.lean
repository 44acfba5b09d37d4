import Influence.Proofs.Network.Acceptance
import Influence.Proofs.Network.History
import Influence.Proofs.Network.Rejection

/-! # Which failures are definition errors

A failure of the compiler, or of the call that replaces a table, lies in what the caller supplied.
It is classified so (`Error.isDefinitionError`) but for one kind of mistake: a cell that is not a
number (`Network.isDefinitionError_eq_false_iff_isBadCell`).  Such a cell is reported as a numerical
error, which does not count as a definition error
(`Network.exists_compile_not_isDefinitionError`). -/

namespace Influence.Network

section

variable {α : Type} [Build] [Cell α] {f m : Network α} {name : String} {table : List α} {e : Error}

/-- A table cannot be replaced if there is none, or if the definition with the new one is rejected. -/
theorem cause_of_replaceTable (h : (runFrom (NetworkM.replaceTable name table) m).1 = .error e) :
    e.isDefinitionError ∨ compile (m.definition.withTable name table) m.config = .error e := by
  have hends : Ends (fun e => e.isDefinitionError ∨
      compile (m.definition.withTable name table) m.config = .error e) (fun _ _ => True)
      (runFrom (NetworkM.replaceTable name table) m) := by
    unfold NetworkM.replaceTable
    refine Ends.get ?_
    cases entryOf? m.entries name with
    | none =>
        dsimp only
        split <;> exact Ends.throw (.inl rfl)
    | some entry =>
        refine Ends.guard (fun _ => .inl rfl) fun _ => Ends.check (fun e he => .inr he) fun g _ => ?_
        exact Ends.of_returns (returns_set (u := ()).mpr rfl) trivial
  exact hends.cause h

/-- The tables of a network are made of numbers, so a bad cell is one of a new table. -/
theorem Fresh.isBadCell_withTable (hf : f.Fresh)
    (h : IsBadCell (f.definition.withTable name table).entries e) :
    ∃ value, table.findSome? Cell.nonFinite? = some value ∧ e = .nonFiniteCell name value := by
  obtain ⟨r, hcompiled⟩ := compile_eq_ok_iff.mp hf.again
  obtain ⟨_, hmem, cells, value, htable, hvalue, rfl⟩ := h
  obtain ⟨entry, hentry, rfl⟩ := List.mem_map.mp hmem
  by_cases htarget : entry.target = name
  · rw [if_pos (beq_iff_eq.mpr htarget)] at htable ⊢
    obtain rfl : table = cells := Option.some.inj htable
    exact ⟨value, hvalue, by rw [htarget]⟩
  · rw [if_neg (by simpa using htarget)] at htable
    obtain ⟨cell, hcell, hbad⟩ := List.exists_of_findSome?_eq_some hvalue
    rw [hcompiled.wellFormed.cells_finite entry hentry cells htable cell hcell] at hbad
    cases hbad

/-- **Every failure to compile is a definition error but for a cell that is not a number.**  The same
holds of a new table for a network on which there have been any calls. -/
theorem isDefinitionError_eq_false_iff_isBadCell (h : m.IsReachable) :
    (∀ (definition : Definition α) (config : Config α) (e : Error), config.check = .ok () →
      compile definition config = .error e →
      (e.isDefinitionError = false ↔ IsBadCell definition.entries e)) ∧
    ∀ name table e, m.call (.replaceTable name table) = .error e →
      (e.isDefinitionError = false ↔
        ∃ value, table.findSome? Cell.nonFinite? = some value ∧ e = .nonFiniteCell name value) := by
  have hcompile : ∀ {definition : Definition α} {config : Config α} {e : Error},
      config.check = .ok () → compile definition config = .error e →
      (e.isDefinitionError = false ↔ IsBadCell definition.entries e) := by
    intro definition config e hcheck he
    constructor
    · intro hno
      rcases cause_of_compile he with h | h | h
      · cases hcheck.symm.trans h
      · cases hno.symm.trans h
      · exact h
    · exact fun hbad => (Error.isDefinitionError_eq_false_iff e).mpr (.inl hbad.family)
  refine ⟨fun definition config e => hcompile, fun name table e he => ?_⟩
  obtain ⟨definition, config, n, calls, hn, rfl⟩ := h
  obtain ⟨f, hf, k, ps, -, hversion⟩ := (fresh_of_compile hn).exists_isVersion_afterCalls calls
  rw [hversion] at he
  constructor
  · intro hno
    have hrun : (runFrom (NetworkM.replaceTable name table) (f.advanced k ps)).1 = .error e := by
      have hcall := call_eq_error he
      unfold Call.run at hcall
      rw [runFrom_bind] at hcall
      revert hcall
      generalize runFrom (NetworkM.replaceTable name table) (f.advanced k ps) = p
      intro hcall
      match p, hcall with
      | (.ok _, _), hcall => cases hcall
      | (.error _, _), hcall =>
          cases hcall
          rfl
    rcases cause_of_replaceTable hrun with hyes | hrejected
    · cases hno.symm.trans hyes
    · obtain ⟨r, hcompiled⟩ := compile_eq_ok_iff.mp hf.again
      exact hf.isBadCell_withTable ((hcompile hcompiled.check hrejected).mp hno)
  · rintro ⟨value, -, rfl⟩
    rfl

end

/-- A coin whose first side comes up with a probability that is not a number. -/
def misprinted : Definition Float where
  declarations := [⟨"coin", "chance", ["heads", "tails"]⟩]
  entries := [⟨"coin", [], some [0 / 0, 1]⟩]

/-- A fair coin. -/
def fair : Definition Float where
  declarations := [⟨"coin", "chance", ["heads", "tails"]⟩]
  entries := [⟨"coin", [], some [0.5, 0.5]⟩]

theorem isDefinitionError_eq_false_iff_isBadCell_misprinted : ∃ m : Network Float, m.IsReachable ∧
    (compile misprinted {} = .error (.nonFiniteCell "coin" .notANumber) ∧
      IsBadCell misprinted.entries (.nonFiniteCell "coin" .notANumber)) ∧
    m.call (.replaceTable "coin" [0 / 0, 1]) = .error (.nonFiniteCell "coin" .notANumber) ∧
    ∃ value, [0 / 0, (1 : Float)].findSome? Cell.nonFinite? = some value ∧
      Error.nonFiniteCell "coin" .notANumber = .nonFiniteCell "coin" value := by
  obtain ⟨m, hm⟩ : ∃ m, compile fair {} = .ok m := ⟨_, rfl⟩
  have hreachable : m.IsReachable := ⟨fair, {}, m, [], hm, rfl⟩
  obtain ⟨hcompile, hreplace⟩ := isDefinitionError_eq_false_iff_isBadCell hreachable
  have hrejected : compile misprinted {} = .error (.nonFiniteCell "coin" .notANumber) := rfl
  have hkept : m.call (.replaceTable "coin" [0 / 0, 1]) =
      .error (.nonFiniteCell "coin" .notANumber) := by
    cases hm
    rfl
  exact ⟨m, hreachable, ⟨hrejected, (hcompile _ _ _ rfl hrejected).mp rfl⟩, hkept,
    (hreplace _ _ _ hkept).mp rfl⟩

/-- A cell that is not a number is no definition error, although it is the definition that holds it. -/
theorem exists_compile_not_isDefinitionError : ∃ (definition : Definition Float)
    (config : Config Float) (e : Error), config.check = .ok () ∧
      compile definition config = .error e ∧ e.isDefinitionError = false :=
  ⟨misprinted, {}, .nonFiniteCell "coin" .notANumber, rfl, rfl, rfl⟩

end Influence.Network
