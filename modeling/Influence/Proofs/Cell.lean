import Mathlib
import Influence.Table.Combine

/-! # Laws of cells

`Cell` assumes no law, and most results need none.  The laws that some of them need are those of two
classes, which hold of exact fractions and of floating-point numbers.

* `Cell.Unital`: one is a unit of multiplication.  Most results need it on the left only
  (`Cell.LeftUnital`).
* `Cell.Ordered`: cells that are numbers are ordered.  A cell that differs from itself is not a number
  (`Cell.IsNumber`), and nothing is assumed of it.

In an ordered arithmetic the largest of some numbers is one of them and none is larger
(`largest?_spec`). -/

namespace Influence

namespace Cell

variable {α : Type} [Cell α]

/-- One is a left unit of the multiplication of cells. -/
class LeftUnital (α : Type) [Cell α] : Prop where
  one_mul : ∀ x : α, 1 * x = x

/-- One is a unit of the multiplication of cells. -/
class Unital (α : Type) [Cell α] : Prop where
  one_mul : ∀ x : α, 1 * x = x
  mul_one : ∀ x : α, x * 1 = x

/-- Whether a cell is a number, which is whether it equals itself. -/
def IsNumber (x : α) : Prop := x == x

/-- Of two numbers not both are smaller than the other one, and every number lies above the smaller or
below the larger one of two numbers. -/
class Ordered (α : Type) [Cell α] : Prop where
  asymm : ∀ {x y : α}, IsNumber x → IsNumber y → less x y → ¬less y x
  less_or_less : ∀ {x z : α} (y : α), IsNumber x → IsNumber y → IsNumber z → less x z →
    less x y ∨ less y z

instance [Unital α] : LeftUnital α := ⟨Unital.one_mul⟩

instance : Unital ℚ := ⟨one_mul, mul_one⟩

instance : Ordered ℚ where
  asymm _ _ h := by
    rw [less_rat, decide_eq_true_iff] at h ⊢
    exact h.not_gt
  less_or_less y _ _ _ h := by
    rw [less_rat, decide_eq_true_iff] at h
    simp only [less_rat, decide_eq_true_iff]
    exact (lt_or_ge _ _).imp_right fun hy => hy.trans_lt h

theorem isNumber_rat (x : ℚ) : IsNumber x := beq_self_eq_true x

/-! ### The largest cell -/

section

variable [Ordered α] {x y z best : α} {row : List α}

theorem not_less_self (hx : IsNumber x) : ¬less x x := fun h => Ordered.asymm hx hx h h

theorem not_less_trans (hx : IsNumber x) (hy : IsNumber y) (hz : IsNumber z) (hxy : ¬less x y)
    (hyz : ¬less y z) : ¬less x z := fun h =>
  (Ordered.less_or_less y hx hy hz h).elim hxy hyz

/-- The larger of two numbers is one of them, and neither is larger than it. -/
theorem larger_spec (hx : IsNumber x) (hy : IsNumber y) :
    (larger x y = x ∨ larger x y = y) ∧ ¬less (larger x y) x ∧ ¬less (larger x y) y := by
  unfold larger
  split
  next h => exact ⟨.inr rfl, Ordered.asymm hx hy h, not_less_self hy⟩
  next h =>
    rw [if_pos (show (x == x) = true from hx)]
    exact ⟨.inl rfl, not_less_self hx, h⟩

/-- The largest cell of a row of numbers is one of its cells and none is larger. -/
theorem largest?_spec (hrow : ∀ a ∈ row, IsNumber a) (h : largest? row = some best) :
    best ∈ row ∧ ∀ a ∈ row, ¬less best a := by
  cases row with
  | nil => cases h
  | cons a row =>
      obtain rfl : row.foldl larger a = best := Option.some.inj h
      clear h
      induction row generalizing a with
      | nil => simpa using not_less_self (hrow a (by simp))
      | cons b row ih =>
          have ha := hrow a (by simp)
          have hb := hrow b (by simp)
          obtain ⟨hchoice, hfirst, hsecond⟩ := larger_spec ha hb
          have hlarger : IsNumber (larger a b) := by
            rcases hchoice with h | h <;> rw [h] <;> assumption
          have hnumbers : ∀ c ∈ larger a b :: row, IsNumber c :=
            List.forall_mem_cons.mpr ⟨hlarger, fun c hc => hrow c (by simp [hc])⟩
          obtain ⟨hmem, hle⟩ := ih (larger a b) hnumbers
          have hbest := hnumbers _ hmem
          have hmax := hle _ List.mem_cons_self
          rw [List.foldl_cons]
          refine ⟨?_, List.forall_mem_cons.mpr ⟨?_, List.forall_mem_cons.mpr ⟨?_, ?_⟩⟩⟩
          · rcases List.mem_cons.mp hmem with hmem | hmem
            · rw [hmem]
              rcases hchoice with h | h <;> simp [h]
            · simp [hmem]
          · exact not_less_trans hbest hlarger ha hmax hfirst
          · exact not_less_trans hbest hlarger hb hmax hsecond
          · exact fun c hc => hle c (by simp [hc])

end

end Cell

theorem Fold.fold_product_singleton {α : Type} [Cell α] [Cell.LeftUnital α] (x : α) :
    Fold.product.fold [x] = x := Cell.LeftUnital.one_mul x

end Influence
