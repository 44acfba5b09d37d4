import Influence.Factor

/-! # Sizes that are numbers

In the exact build (`Exact.build`) sizes are the numbers of joint outcomes, and no table is too
large: every check of a filling succeeds (`Exact.check_filling`).  The theory of elimination is
stated for this build.  What the release build computes is compared with it in
`Influence.Proofs.Builds`. -/

namespace Influence

open scoped Exact

namespace Exact

@[simp] theorem word_eq (n : Nat) : Build.word n = n := rfl

@[simp] theorem check_filling {α : Type} (p : Filling α) : p.check = .ok () := rfl

@[simp] theorem requireRoom_eq (n : Nat) : Factor.requireRoom n = pure () := rfl

end Exact

namespace Axes

@[simp] theorem size_nil : size [] = 1 := rfl

@[simp] theorem size_cons (v : Variable) (axes : Axes) : size (v :: axes) = v.arity * size axes := rfl

end Axes

end Influence
