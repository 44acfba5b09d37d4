import Influence.Proofs.Network.Declared

/-! # Entries of the same shape

The checks of the compiler look at the shape of an entry: its target, its parents, and whether it has a
table.  Entries that differ in the cells of their tables alone are therefore accepted alike, and lead
to the same parents. -/

namespace Influence

variable {α : Type}

/-- Two entries that differ in the cells of their tables alone. -/
structure Entry.SameShape (e e' : Entry α) : Prop where
  target : e'.target = e.target
  given : e'.given = e.given
  table : e'.table = none ↔ e.table = none

namespace Network

variable {nodes : List Node} {es es' earlier earlier' : List (Entry α)}

theorem rel_entryOf? {R : Entry α → Entry α → Prop} (h : List.Forall₂ R es es')
    (hR : ∀ e e', R e e' → e'.target = e.target) (name : String) :
    Option.Rel R (entryOf? es name) (entryOf? es' name) := by
  induction h with
  | nil => exact .none
  | @cons e e' es es' he _ ih =>
      unfold entryOf? at ih ⊢
      rw [List.find?_cons, List.find?_cons, hR e e' he]
      cases e.target == name with
      | true => exact .some he
      | false => exact ih

theorem givenOf_congr_of_rel {R : Entry α → Entry α → Prop} (h : List.Forall₂ R es es')
    (htarget : ∀ e e', R e e' → e'.target = e.target) (hgiven : ∀ e e', R e e' → e'.given = e.given) :
    givenOf es' = givenOf es := by
  funext name
  unfold givenOf
  have hentry := rel_entryOf? h htarget name
  revert hentry
  generalize entryOf? es name = o
  generalize entryOf? es' name = o'
  rintro (he | _)
  · exact hgiven _ _ he
  · rfl

theorem givenOf_congr (h : List.Forall₂ Entry.SameShape es es') : givenOf es' = givenOf es :=
  givenOf_congr_of_rel h (fun _ _ he => he.target) fun _ _ he => he.given

theorem checkTable_congr {e e' : Entry α} (h : e.SameShape e') (m : Node) :
    checkTable m e' = checkTable m e := by
  have htarget := h.target
  have htable := h.table
  unfold checkTable
  rw [htarget]
  cases hkind : m.kind <;> cases he : e.table <;> cases he' : e'.table <;> simp_all

/-- The checks do not look at the cells of tables. -/
theorem checkEntries_congr (h : List.Forall₂ Entry.SameShape es es')
    (hearlier : earlier'.map (·.target) = earlier.map (·.target)) :
    checkEntries nodes earlier' es' = checkEntries nodes earlier es := by
  induction h generalizing earlier earlier' with
  | nil => rfl
  | @cons e e' es es' he _ ih =>
      have hany : (earlier'.any fun x => x.target == e.target) =
          earlier.any fun x => x.target == e.target := by
        have hmap : ∀ l : List (Entry α),
            (l.any fun x => x.target == e.target) = (l.map (·.target)).any (· == e.target) := fun l => by
          rw [List.any_map]
          rfl
        rw [hmap, hmap, hearlier]
      have hcheck : checkEntry nodes earlier' e' = checkEntry nodes earlier e := by
        simp only [checkEntry, he.target, he.given, hany, checkTable_congr he]
      have hnext : (earlier' ++ [e']).map (·.target) = (earlier ++ [e]).map (·.target) := by
        rw [List.map_append, List.map_append, hearlier]
        simp [he.target]
      rw [checkEntries, checkEntries, hcheck, ih hnext]

theorem checkComplete_congr (h : List.Forall₂ Entry.SameShape es es') :
    checkComplete nodes es' = checkComplete nodes es := by
  have hnone : ∀ {o o' : Option (Entry α)}, Option.Rel Entry.SameShape o o' → o'.isNone = o.isNone := by
    rintro _ _ (_ | _) <;> rfl
  simp only [checkComplete, hnone (rel_entryOf? h (fun _ _ he => he.target) _)]

end Network

end Influence
