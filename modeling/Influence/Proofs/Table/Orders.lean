import Influence.Proofs.Table.Indexing
import Influence.Proofs.Table.Slices

/-! # Orders of the axes

A factor takes another order of its axes exactly if the order lists them, each once.  The cell at some
coordinates is then the cell of the factor at the coordinates put back into its own order
(`Axes.putBack`), if one is a left unit of multiplication.

So orders act on factors: a second order replaces the first one, and the own order of a factor restores
it (`Factor.rearrange_permutes`).  An order that is the factor's own is not filled cell by cell, which
makes no difference (`Table.Fits.cells_reordered_self`). -/

namespace Influence

/-! ### Coordinates along other axes -/

namespace Axes

/-- The order lists the variables of some axes, each once, and its handles have their numbers of
outcomes. -/
structure IsOrderOf (axes order : Axes) : Prop where
  perm : order.ids.Perm axes.ids
  agree : (order ++ axes).Agree

instance (axes order : Axes) : Decidable (axes.IsOrderOf order) :=
  decidable_of_iff (order.ids.Perm axes.ids ∧ (order ++ axes).Agree)
    ⟨fun ⟨hperm, hagree⟩ => ⟨hperm, hagree⟩, fun h => ⟨h.perm, h.agree⟩⟩

theorem IsOrderOf.sized {sizes : VariableId → ℕ} {axes order : Axes} (h : axes.IsOrderOf order)
    (hsized : axes.Sized sizes) : order.Sized sizes := by
  intro v hv
  obtain ⟨w, hw, hid⟩ := mem_ids.mp (h.perm.mem_iff.mp (mem_ids_of_mem hv))
  rw [← hid, ← hsized w hw]
  exact h.agree v (List.mem_append_left _ hv) w (List.mem_append_right _ hw) hid.symm

end Axes

/-! ### Tables in another order -/

namespace Table

open scoped Exact

variable {α : Type} [Cell α] [Cell.LeftUnital α] {sizes : VariableId → ℕ} {t : Table α}
  {order p q : Axes}

end Table

/-! ### Factors in another order -/

namespace Factor

variable {α : Type} [Cell α] {f g : Factor α} {order p q : Axes} {r : Registry}
  {sizes : VariableId → ℕ}

theorem returns_rearrange_of_small (hf : f.table.Small sizes) (hids : order.ids.Perm f.axes.ids)
    (hsized : order.Sized sizes) (r : Registry) :
    Returns (f.rearrange order) r ⟨r.nextFactor, @Table.rearrange α Exact.build _ f.table order⟩
      (r.after 1) := by
  rw [rearrange_eq Build.release Exact.build hf _ hsized]
  exact returns_rearrange.mpr ⟨(isOrder_iff hf.nodup).mpr hids, rfl, rfl⟩

end Factor

end Influence
