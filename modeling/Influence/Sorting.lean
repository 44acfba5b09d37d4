/-! # Sorting

`Sorting.sort` puts the items of a list in ascending order by inserting them one by one.  Items of
equal rank stay in the order of the list, because each item is inserted before the first one that it
may precede, and the items are taken from the last to the first.

* `perm_sort`: nothing is lost and nothing is added.
* `pairwise_sort`: of any two items of the result the first may precede the second, for every total
  and transitive relation. -/

namespace Influence.Sorting

variable {β : Type} (precedes : β → β → Bool)

/-- Inserts an item before the first one that it may precede. -/
def insert (x : β) : List β → List β
  | [] => [x]
  | y :: ys => if precedes x y then x :: y :: ys else y :: insert x ys

/-- The items in ascending order. -/
def sort : List β → List β
  | [] => []
  | x :: xs => insert precedes x (sort xs)

theorem perm_insert (x : β) (ys : List β) : (insert precedes x ys).Perm (x :: ys) := by
  induction ys with
  | nil => exact .refl _
  | cons y ys ih =>
    unfold insert
    split
    · exact .refl _
    · exact (ih.cons y).trans (.swap x y ys)

theorem perm_sort (xs : List β) : (sort precedes xs).Perm xs := by
  induction xs with
  | nil => exact .refl _
  | cons x xs ih => exact (perm_insert precedes x _).trans (ih.cons x)

@[simp] theorem length_sort (xs : List β) : (sort precedes xs).length = xs.length :=
  (perm_sort precedes xs).length_eq

@[simp] theorem mem_sort {x : β} {xs : List β} : x ∈ sort precedes xs ↔ x ∈ xs :=
  (perm_sort precedes xs).mem_iff

theorem pairwise_insert (total : ∀ a b, precedes a b ∨ precedes b a)
    (transitive : ∀ a b c, precedes a b → precedes b c → precedes a c) (x : β) {ys : List β}
    (h : ys.Pairwise (precedes · ·)) : (insert precedes x ys).Pairwise (precedes · ·) := by
  induction h with
  | nil => simp [insert]
  | @cons y ys hy hys ih =>
    unfold insert
    split
    next hxy =>
      refine .cons (fun z hz => ?_) (.cons hy hys)
      rcases List.mem_cons.1 hz with rfl | hz
      · exact hxy
      · exact transitive x y z hxy (hy z hz)
    next hxy =>
      refine .cons (fun z hz => ?_) ih
      rcases List.mem_cons.1 ((perm_insert precedes x ys).mem_iff.1 hz) with rfl | hz
      · exact (total y z).resolve_right hxy
      · exact hy z hz

theorem pairwise_sort (total : ∀ a b, precedes a b ∨ precedes b a)
    (transitive : ∀ a b c, precedes a b → precedes b c → precedes a c) (xs : List β) :
    (sort precedes xs).Pairwise (precedes · ·) := by
  induction xs with
  | nil => exact .nil
  | cons x xs ih => exact pairwise_insert precedes total transitive x ih

end Influence.Sorting
