import Influence.Proofs.SmallFactors
import Influence.Proofs.Table.Marginal

/-! # Conditionals

`normalizeFor` moves a variable to the last place and divides every row along it by its sum, so that the
factor becomes a conditional of that variable (`Factor.IsConditionalOf`).  Rows that add up to zero
stay as they are.  Normalizing once more changes nothing (`Table.Fits.normalizeFor_normalizeFor`).

A row may be multiplied by any number but zero before it is normalized, unless it adds up to zero
(`Table.IsRescaled`). -/

namespace Influence

namespace Table

/-! ### Rows -/

section

variable {row row' : List ℚ}

theorem sum_normalize (h : row.sum ≠ 0) : (Cell.normalize row).sum = 1 := by
  rw [normalize_rat, if_neg h]
  simp only [div_eq_mul_inv]
  rw [List.sum_map_mul_right, List.map_id', mul_inv_cancel₀ h]

theorem normalize_normalize (row : List ℚ) :
    Cell.normalize (Cell.normalize row) = Cell.normalize row := by
  by_cases h : row.sum = 0
  · have hkept : Cell.normalize row = row := by rw [normalize_rat, if_pos h]
    rw [hkept, hkept]
  · rw [normalize_rat (Cell.normalize row), sum_normalize h, if_neg one_ne_zero]
    simp

/-- The second row is the first one multiplied by a number other than zero. -/
def IsMultiple (row row' : List ℚ) : Prop := ∃ c ≠ 0, row' = row.map (c * ·)

/-- The second row is a multiple of the first one, and is that row if it adds up to zero. -/
structure IsRescaled (row row' : List ℚ) : Prop where
  multiple : IsMultiple row row'
  zero : row.sum = 0 → row' = row

/-- A row and its multiple become the same distribution. -/
theorem IsRescaled.normalize_eq (h : IsRescaled row row') :
    Cell.normalize row' = Cell.normalize row := by
  by_cases hsum : row.sum = 0
  · rw [h.zero hsum]
  · obtain ⟨c, hc, rfl⟩ := h.multiple
    have hscaled : (row.map (c * ·)).sum = c * row.sum := by rw [List.sum_map_mul_left, List.map_id']
    rw [normalize_rat, normalize_rat, hscaled, if_neg (mul_ne_zero hc hsum), if_neg hsum, List.map_map]
    refine List.map_congr_left fun a _ => ?_
    exact mul_div_mul_left a row.sum hc

theorem flatMap_normalize_eq {rows rows' : List (List ℚ)} (h : List.Forall₂ IsRescaled rows rows') :
    rows'.flatMap Cell.normalize = rows.flatMap Cell.normalize := by
  induction h with
  | nil => rfl
  | cons hrow _ ih => rw [List.flatMap_cons, List.flatMap_cons, hrow.normalize_eq, ih]

end

/-! ### Tables -/

section

open scoped Exact

variable {sizes : VariableId → ℕ} {t : Table ℚ} {v : Variable} {x : Assignment}

theorem Fits.normalizeFor (ht : t.Fits sizes) (hv : t.mentions v) (hsize : v.arity = sizes v.id) :
    (t.normalizeFor v).Fits sizes :=
  ht.replaceRows hv hsize fun row hrow => by rw [Cell.length_normalize, hrow]

theorem Fits.rowAt_normalizeFor (ht : t.Fits sizes) (hv : t.mentions v) (hsize : v.arity = sizes v.id)
    (hx : x.Valid sizes) : rowAt (t.normalizeFor v) v x = Cell.normalize (rowAt t v x) :=
  ht.rowAt_replaceRows hv hsize (fun row hrow => by rw [Cell.length_normalize, hrow]) hx

theorem Fits.moveLast_normalizeFor (ht : t.Fits sizes) (hv : t.mentions v)
    (hsize : v.arity = sizes v.id) : (t.normalizeFor v).moveLast v = t.normalizeFor v := by
  obtain ⟨front, last, haxes, hid, -⟩ := exists_axes_moveLast ht hv hsize
  exact moveLast_of_id_last (t := t.normalizeFor v) haxes hid (ht.normalizeFor hv hsize).wellFormed.nodup

/-- Normalizing once more changes nothing. -/
theorem Fits.normalizeFor_normalizeFor (ht : t.Fits sizes) (hzero : Assignment.Valid sizes fun _ => 0)
    (hv : t.mentions v) (hsize : v.arity = sizes v.id) :
    (t.normalizeFor v).normalizeFor v = t.normalizeFor v := by
  have honce := ht.normalizeFor hv hsize
  have hmoved := ht.moveLast_normalizeFor hv hsize
  have hv' : (t.normalizeFor v).mentions v := by
    have hids : (t.normalizeFor v).axes.ids = _ := (ht.moveLast hv hsize).2
    rw [mentions_iff, hids]
    simp
  apply honce.eq_of_valueAt (honce.normalizeFor hv' hsize) ?_ hzero
  · intro y hy
    apply valueAt_eq_of_rowAt_eq (v := v) ?_ (hsize ▸ hy v.id)
    rw [honce.rowAt_normalizeFor hv' hsize hy, ht.rowAt_normalizeFor hv hsize hy, normalize_normalize]
  · show ((t.normalizeFor v).moveLast v).axes = _
    rw [hmoved]

end

end Table

/-! ### Factors -/

namespace Factor

variable {sizes : VariableId → ℕ} {f g : Factor ℚ} {v : Variable} {r : Registry}

/-- The factor has a variable as its last axis and the other axes of another factor in their order.  In
every state of these, it has the values of that factor divided by their sum, which add up to one, or the
values themselves if they add up to zero. -/
structure IsConditionalOf [Build] (f : Factor ℚ) (v : Variable) (g : Factor ℚ) : Prop where
  wellFormed : g.table.WellFormed
  ids : g.axes.ids = Axes.ids (f.axes.filter fun w => !(w.id == v.id)) ++ [v.id]
  divided : ∀ x : Assignment, x.InRange f.axes → (Table.rowAt f.table v x).sum ≠ 0 →
    Table.rowAt g.table v x = (Table.rowAt f.table v x).map (· / (Table.rowAt f.table v x).sum) ∧
    (Table.rowAt g.table v x).sum = 1
  kept : ∀ x : Assignment, x.InRange f.axes → (Table.rowAt f.table v x).sum = 0 →
    Table.rowAt g.table v x = Table.rowAt f.table v x

theorem isConditionalOf_normalizeFor (hf : f.table.Small sizes) (hv : f.axes.Includes v) (id : ℕ) :
    IsConditionalOf f v ⟨id, @Table.normalizeFor ℚ Exact.build _ f.table v⟩ := by
  have hrow : ∀ x : Assignment, x.InRange f.axes →
      Table.rowAt (@Table.normalizeFor ℚ Exact.build _ f.table v) v x =
        Cell.normalize (Table.rowAt f.table v x) := by
    intro x hx
    obtain ⟨sizes, hfits, hvalid⟩ := hf.fits.wellFormed.exists_fits_valid hx
    exact hfits.rowAt_normalizeFor hv.mentions (hv.sized hfits.sized) hvalid
  have hsize := hv.sized hf.sized
  constructor
  case wellFormed => exact (Table.Small.normalizeFor (B := Exact.build) hf hv.mentions hsize).wellFormed
  case ids =>
    have hothers : f.table.axes.without v = f.axes.filter fun w => !(w.id == v.id) :=
      Axes.without_eq_filter hf.nodup v
    show (@Table.moveLast ℚ Exact.build _ f.table v).axes.ids = _
    rw [(hf.fits.moveLast hv.mentions hsize).2, hothers]
  case divided =>
    intro x hx hsum
    rw [hrow x hx]
    exact ⟨by rw [Table.normalize_rat, if_neg hsum], Table.sum_normalize hsum⟩
  case kept =>
    intro x hx hsum
    rw [hrow x hx, Table.normalize_rat, if_pos hsum]

theorem returns_normalizeFor_of_small (hf : f.table.Small sizes) (hv : f.mentions v)
    (hsize : v.arity = sizes v.id) (r : Registry) : Returns (f.normalizeFor v) r
      ⟨r.nextFactor + 1, @Table.normalizeFor ℚ Exact.build _ f.table v⟩ (r.after 2) := by
  rw [normalizeFor_eq Build.release Exact.build hf hsize]
  exact (returns_normalizeFor hf.nodup).mpr ⟨hv, rfl, rfl⟩

/-- A conditional of a variable, and the same one again. -/
theorem exists_returns_normalizeFor (hf : f.table.WellFormed) (hv : f.axes.Includes v) (r : Registry) :
    ∃ g, Returns (f.normalizeFor v) r g (r.after 2) ∧ IsConditionalOf f v g ∧
      ∀ r', ∃ h, Returns (g.normalizeFor v) r' h (r'.after 2) ∧ h.table = g.table := by
  obtain ⟨sizes, hsmall, hzero⟩ := hf.exists_small
  have hsize := hv.sized hsmall.sized
  have hconditional := isConditionalOf_normalizeFor hsmall hv (r.nextFactor + 1)
  have hmentions : (@Table.normalizeFor ℚ Exact.build _ f.table v).mentions v := by
    have hids := hconditional.ids
    rw [Table.mentions_iff,
      show (@Table.normalizeFor ℚ Exact.build _ f.table v).axes.ids = _ from hids]
    simp
  refine ⟨_, returns_normalizeFor_of_small hsmall hv.mentions hsize r, hconditional, fun r' => ?_⟩
  exact ⟨_, returns_normalizeFor_of_small (f := ⟨_, _⟩)
      (Table.Small.normalizeFor (B := Exact.build) hsmall hv.mentions hsize) hmentions hsize r',
    hsmall.fits.normalizeFor_normalizeFor hzero hv.mentions hsize⟩

/-- Cells that are normalized to the same table make the same factor. -/
theorem create_normalizeFor_congr [Build] {axes front : Axes} {cells cells' : Array ℚ} {v : Variable}
    (haxes : axes = front ++ [v]) (hsize : cells'.size = cells.size)
    (h : axes.ids.Nodup → Table.normalizeFor ⟨axes, cells'⟩ v = Table.normalizeFor ⟨axes, cells⟩ v) :
    (create axes (some cells') >>= fun f => f.normalizeFor v) =
      (create axes (some cells) >>= fun f => f.normalizeFor v) := by
  funext r
  show runFrom _ r = runFrom _ r
  by_cases hok : axes.ids.Nodup ∧ cells.size = axes.size
  · obtain ⟨hnodup, hcells⟩ := hok
    have hreturns : ∀ cs : Array ℚ, cs.size = axes.size →
        runFrom (create axes (some cs) >>= fun f => f.normalizeFor v) r =
          (.ok ⟨r.nextFactor + 2, Table.normalizeFor ⟨axes, cs⟩ v⟩, r.after 3) := by
      intro cs hcs
      refine returns_bind.mpr ⟨_, _, returns_create_some.mpr ⟨hnodup, hcs, rfl, rfl⟩, ?_⟩
      have hlast := Table.ids_without_append_of_last haxes rfl hnodup
      have hv : Axes.mentions axes v := by simp [haxes, Axes.mentions]
      exact (returns_normalizeFor_of_last (f := ⟨r.nextFactor, axes, cs⟩) hnodup hlast).mpr
        ⟨hv, rfl, rfl⟩
    rw [hreturns cells hcells, hreturns cells' (hsize.trans hcells), h hnodup]
  · have hfails : ∀ cs : Array ℚ, cs.size = cells.size → create axes (some cs) =
        throw ((Axes.firstRepeat? [] axes).elim (.sizeMismatch axes.size cells.size) .repeatedAxis) := by
      intro cs hcs
      simp only [create, hcs]
      cases hrepeat : Axes.firstRepeat? [] axes with
      | some u => rfl
      | none =>
          have hsizes : cells.size ≠ axes.size := fun heq =>
            hok ⟨(Axes.firstRepeat?_eq_none_iff.mp hrepeat).1, heq⟩
          simp only [if_pos hsizes]
          rfl
    rw [hfails cells rfl, hfails cells' hsize]

end Factor

end Influence
