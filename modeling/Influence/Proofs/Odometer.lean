import Influence.Proofs.Coordinates
import Influence.Table.Combine

/-! # The walk over an output table

The odometer of `Table.Combine` keeps one running offset for each source.  `turn_standing` says that
one turn takes an odometer that stands at coordinates in range to one that stands at the next cell,
so every running offset is the offset that `Projection.offset` computes from the coordinates.

`toList_fillRange` follows: filling a range gives the cells that `cellAt` reads directly, one for
each index of the range, and `combine` gives them for the whole table (`toList_combine`). -/

namespace Influence

variable {α : Type}

/-! ### One turn -/

theorem Layout.offset_drop {ss : List ℕ} {k : ℕ} (hk : k < ss.length) (c : ℕ) (cs : List ℕ) :
    offset (ss.drop k) (c :: cs) = c * ss.getD k 0 + offset (ss.drop (k + 1)) cs := by
  rw [List.drop_eq_getElem_cons hk, offset_cons, List.getD_eq_getElem _ _ hk]

namespace Odometer

/-- The wheels of the output axes from position `k` on. -/
def wheelsFrom (k : ℕ) (out : Axes) (sources : List (Projection α)) : List Wheel :=
  (out.zipIdx k).map fun (v, i) => ⟨v.arity, sources.map fun p => p.strides.getD i 0⟩

theorem wheels_eq_wheelsFrom (out : Axes) (sources : List (Projection α)) :
    wheels out sources = wheelsFrom 0 out sources := rfl

@[simp] theorem wheelsFrom_nil (k : ℕ) (sources : List (Projection α)) :
    wheelsFrom k [] sources = [] := rfl

@[simp] theorem wheelsFrom_cons (k : ℕ) (v : Variable) (out : Axes)
    (sources : List (Projection α)) :
    wheelsFrom k (v :: out) sources =
      ⟨v.arity, sources.map fun p => p.strides.getD k 0⟩ :: wheelsFrom (k + 1) out sources := rfl

/-- The offsets of all sources after one step along an axis. -/
theorem zipWith_add_strides (sources : List (Projection α)) (f g : Projection α → ℕ) :
    List.zipWith (· + ·) (sources.map f) (sources.map g) = sources.map fun p => f p + g p := by
  rw [List.zipWith_map, List.zipWith_self]

/-- The offsets of all sources, with the part of the axis at position `k` apart. -/
theorem map_offset_cons {sources : List (Projection α)} (b : Projection α → ℕ) {k : ℕ}
    {v : Variable} {out : Axes}
    (hlen : ∀ p ∈ sources, p.strides.length = k + (v :: out).length) (c : ℕ) (cs : List ℕ) :
    (sources.map fun p => b p + Layout.offset (p.strides.drop k) (c :: cs)) =
      sources.map fun p =>
        b p + c * p.strides.getD k 0 + Layout.offset (p.strides.drop (k + 1)) cs := by
  refine List.map_congr_left fun p hp => ?_
  rw [Layout.offset_drop (by rw [hlen p hp, List.length_cons]; omega)]
  ring

/-- Turning the wheels from position `k` on takes every source to the next cell.  The part `b` of
the offsets, which belongs to the axes before `k`, stays as it is. -/
theorem turn_wheelsFrom (sources : List (Projection α)) (b : Projection α → ℕ) {k : ℕ} {out : Axes}
    {cs : List ℕ} (hcs : Layout.InRange out.arities cs)
    (hlen : ∀ p ∈ sources, p.strides.length = k + out.length) :
    turn (wheelsFrom k out sources) cs
        (sources.map fun p => b p + Layout.offset (p.strides.drop k) cs) =
      ((Layout.successor out.arities cs).1,
        sources.map (fun p =>
          b p + Layout.offset (p.strides.drop k) (Layout.successor out.arities cs).1),
        (Layout.successor out.arities cs).2) := by
  induction out generalizing k b cs with
  | nil =>
      cases cs with
      | nil => rfl
      | cons c cs => cases hcs
  | cons v out ih =>
      cases cs with
      | nil => cases hcs
      | cons c cs =>
          rw [Axes.arities_cons, Layout.inRange_cons] at hcs
          obtain ⟨hc, hcs⟩ := hcs
          have hdrop : ∀ p ∈ sources, ∀ c' cs',
              Layout.offset (p.strides.drop k) (c' :: cs') =
                c' * p.strides.getD k 0 + Layout.offset (p.strides.drop (k + 1)) cs' :=
            fun p hp => Layout.offset_drop (by rw [hlen p hp, List.length_cons]; omega)
          have hinner := ih (fun p => b p + c * p.strides.getD k 0) (k := k + 1) hcs
            fun p hp => by rw [hlen p hp, List.length_cons]; omega
          rw [map_offset_cons b hlen, wheelsFrom_cons, turn, hinner]
          simp only [Axes.arities_cons, Layout.successor]
          rcases Layout.successor (Axes.arities out) cs with ⟨cs', wrapped⟩
          cases wrapped with
          | false =>
              simp only
              congr 2
              exact List.map_congr_left fun p hp => by rw [hdrop p hp]; ring
          | true =>
              simp only [zipWith_add_strides]
              split
              · congr 2
                exact List.map_congr_left fun p hp => by rw [hdrop p hp]; ring
              · -- the wheel has passed its last outcome, so the steps taken back are those taken
                have harity : v.arity = c + 1 := by omega
                rw [List.zipWith_map, List.zipWith_self]
                congr 2
                refine List.map_congr_left fun p hp => ?_
                rw [hdrop p hp, harity, Nat.zero_mul, Nat.mul_comm _ (c + 1)]
                refine Nat.sub_eq_of_eq_add ?_
                ring

variable {out : Axes} {sources : List (Projection α)}

/-- One turn takes an odometer to the next cell. -/
theorem turn_standing (hlen : ∀ p ∈ sources, p.strides.length = out.length)
    {cs : List ℕ} (hcs : Layout.InRange out.arities cs) :
    (standingAt sources cs).next (wheels out sources) =
      standingAt sources (Layout.successor out.arities cs).1 := by
  have h := turn_wheelsFrom sources (fun p => p.base) (k := 0) hcs (by simpa using hlen)
  simp only [List.drop_zero] at h
  simp only [next, standingAt, Projection.offset, wheels_eq_wheelsFrom, h]

theorem next_standingAt_coords (hlen : ∀ p ∈ sources, p.strides.length = out.length)
    (hpos : ∀ v ∈ out, 0 < v.arity) (i : ℕ) :
    (standingAt sources (Layout.coords out.arities i)).next (wheels out sources) =
      standingAt sources (Layout.coords out.arities (i + 1)) := by
  have hpos' : ∀ a ∈ out.arities, 0 < a := by simpa [Axes.arities] using hpos
  rw [turn_standing hlen (Layout.inRange_coords hpos' i), Layout.successor_coords hpos']

end Odometer

/-! ### Ranges of cells -/

section

variable [Build] [Cell α] {op : Fold} {out : Axes} {sources : List (Projection α)}

theorem toList_fillFrom (hlen : ∀ p ∈ sources, p.strides.length = out.length)
    (hpos : ∀ v ∈ out, 0 < v.arity) (n i : ℕ) (filled : Array α) :
    (fillFrom op sources (Odometer.wheels out sources) n
        (Odometer.standingAt sources (Layout.coords out.arities i)) filled).toList =
      filled.toList ++
        (List.range n).map fun j => cellAt op sources (Layout.coords out.arities (i + j)) := by
  induction n generalizing i filled with
  | zero => simp [fillFrom]
  | succ n ih =>
      have hcell : op.fold (List.zipWith Projection.read sources
          (Odometer.standingAt sources (Layout.coords out.arities i)).offsets) =
          cellAt op sources (Layout.coords out.arities i) := by
        simp only [Odometer.standingAt, cellAt, List.zipWith_map_right, List.zipWith_self]
      rw [fillFrom, Odometer.next_standingAt_coords hlen hpos, ih, hcell,
        List.range_succ_eq_map]
      simp [Function.comp_def, Nat.add_comm, Nat.add_left_comm]

theorem toList_fillRange (hlen : ∀ p ∈ sources, p.strides.length = out.length)
    (hpos : ∀ v ∈ out, 0 < v.arity) (start n : ℕ) :
    (fillRange op out sources start n).toList =
      (List.range n).map fun j => cellAt op sources (Layout.coords out.arities (start + j)) := by
  rw [fillRange, toList_fillFrom hlen hpos]
  simp

theorem toList_combine (hlen : ∀ p ∈ sources, p.strides.length = out.length)
    (hpos : ∀ v ∈ out, 0 < v.arity) :
    (combine op out sources).toList =
      (List.range out.size).map fun i => cellAt op sources (Layout.coords out.arities i) := by
  rw [combine, toList_fillRange hlen hpos]
  simp

end

end Influence
