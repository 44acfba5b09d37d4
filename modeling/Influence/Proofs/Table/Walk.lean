import Influence.Proofs.Table.Builds

/-! # The walk stays inside its tables

`Odometer.turn?` and `fillRange?` do what `turn` and `fillRange` do, except that they give nothing
where an offset would be taken back below zero or a cell read that its table does not have.

Over views of tables the careful walk always gives what the plain walk gives (`fillRange?_eq`),
because the offsets of a view are those of cells of its table (`Projection.IsView.offset_lt`).  Without
distinct axes, or with handles that do not agree on the outcomes of a variable, the walk may leave a
table (`exists_fillRange?_eq_none`).

The cells of a range depend on their indices alone, so a table may be filled in chunks of any lengths
(`flatMap_chunks`), unless it has so many cells that no word can hold their number. -/

namespace Influence

variable {α : Type}

/-! ### The careful walk -/

namespace Odometer

/-- One turn as `turn` makes it, if no offset is taken back below zero. -/
def turn? : List Wheel → List ℕ → List ℕ → Option (List ℕ × List ℕ × Bool)
  | w :: ws, c :: cs, offsets =>
    match turn? ws cs offsets with
    | none => none
    | some (cs, offsets, false) => some (c :: cs, offsets, false)
    | some (cs, offsets, true) =>
      let moved := List.zipWith (· + ·) offsets w.strides
      if c + 1 < w.arity then some ((c + 1) :: cs, moved, false)
      else if ∀ q ∈ moved.zip w.strides, q.2 * w.arity ≤ q.1 then
        some (0 :: cs, List.zipWith (fun o s => o - s * w.arity) moved w.strides, true)
      else none
  | _, coords, offsets => some (coords, offsets, true)

/-- The odometer at the next output cell, if no offset is taken back below zero. -/
def next? (wheels : List Wheel) (o : Odometer) : Option Odometer :=
  (turn? wheels o.coords o.offsets).map fun (coords, offsets, _) => ⟨coords, offsets⟩

/-- Along the walk a wheel that goes back takes from each offset no more than it has added. -/
theorem turn?_wheelsFrom (sources : List (Projection α)) (b : Projection α → ℕ) {k : ℕ} {out : Axes}
    {cs : List ℕ} (hcs : Layout.InRange out.arities cs)
    (hlen : ∀ p ∈ sources, p.strides.length = k + out.length) :
    turn? (wheelsFrom k out sources) cs
        (sources.map fun p => b p + Layout.offset (p.strides.drop k) cs) =
      some (turn (wheelsFrom k out sources) cs
        (sources.map fun p => b p + Layout.offset (p.strides.drop k) cs)) := by
  induction out generalizing k b cs with
  | nil => rfl
  | cons v out ih =>
      cases cs with
      | nil => cases hcs
      | cons c cs =>
          rw [Axes.arities_cons, Layout.inRange_cons] at hcs
          obtain ⟨hc, hcs⟩ := hcs
          have hlen' : ∀ p ∈ sources, p.strides.length = k + 1 + out.length := fun p hp => by
            rw [hlen p hp, List.length_cons]; omega
          have hstart := map_offset_cons b hlen c cs
          have hinner := ih (fun p => b p + c * p.strides.getD k 0) hcs hlen'
          have hturn := turn_wheelsFrom sources (fun p => b p + c * p.strides.getD k 0) hcs hlen'
          rw [hstart, wheelsFrom_cons, turn?, turn, hinner, hturn]
          rcases Layout.successor (Axes.arities out) cs with ⟨cs', wrapped⟩
          cases wrapped with
          | false => rfl
          | true =>
              simp only [zipWith_add_strides]
              split
              next => rfl
              next hlast =>
                have harity : v.arity = c + 1 := by omega
                rw [if_pos]
                rw [List.zip_map', List.forall_mem_map]
                intro p _
                calc p.strides.getD k 0 * v.arity = c * p.strides.getD k 0 + p.strides.getD k 0 := by
                      rw [harity]; ring
                  _ ≤ _ := by omega

variable {out : Axes} {sources : List (Projection α)}

theorem next?_standingAt (hlen : ∀ p ∈ sources, p.strides.length = out.length)
    {cs : List ℕ} (hcs : Layout.InRange out.arities cs) :
    (standingAt sources cs).next? (wheels out sources) =
      some ((standingAt sources cs).next (wheels out sources)) := by
  have h := turn?_wheelsFrom sources (fun p => p.base) (k := 0) hcs (by simpa using hlen)
  simp only [List.drop_zero] at h
  simp only [next?, next, standingAt, Projection.offset, wheels_eq_wheelsFrom, h, Option.map_some]

end Odometer

section

variable [Build] [Cell α]

/-- The cells that `fillFrom` appends, if each is read inside its table and no offset is taken back
below zero. -/
def fillFrom? (op : Fold) (sources : List (Projection α)) (wheels : List Wheel) :
    ℕ → Odometer → Array α → Option (Array α)
  | 0, _, filled => some filled
  | n + 1, o, filled =>
    if ∀ q ∈ sources.zip o.offsets, q.2 < q.1.cells.size then
      (o.next? wheels).bind fun o' =>
        fillFrom? op sources wheels n o'
          (filled.push (op.fold (List.zipWith Projection.read sources o.offsets)))
    else none

/-- The cells of `fillRange`, if each is read inside its table and no offset is taken back below
zero. -/
def fillRange? (op : Fold) (out : Axes) (sources : List (Projection α)) (start n : ℕ) :
    Option (Array α) :=
  fillFrom? op sources (Odometer.wheels out sources) n
    (Odometer.standingAt sources (Layout.coords out.arities start)) (Array.emptyWithCapacity n)

/-- A table filled in consecutive ranges of given lengths, from an index on. -/
def chunks (op : Fold) (out : Axes) (sources : List (Projection α)) : ℕ → List ℕ → List (Array α)
  | _, [] => []
  | start, n :: lengths =>
    fillRange op out sources start n :: chunks op out sources (start + n) lengths

variable {op : Fold} {out : Axes} {sources : List (Projection α)}

theorem fillFrom?_eq (hlen : ∀ p ∈ sources, p.strides.length = out.length)
    (hpos : ∀ v ∈ out, 0 < v.arity)
    (hread : ∀ p ∈ sources, ∀ cs, Layout.InRange out.arities cs → p.offset cs < p.cells.size)
    (n i : ℕ) (filled : Array α) :
    fillFrom? op sources (Odometer.wheels out sources) n
        (Odometer.standingAt sources (Layout.coords out.arities i)) filled =
      some (fillFrom op sources (Odometer.wheels out sources) n
        (Odometer.standingAt sources (Layout.coords out.arities i)) filled) := by
  have hpos' : ∀ a ∈ out.arities, 0 < a := by simpa [Axes.arities] using hpos
  induction n generalizing i filled with
  | zero => rfl
  | succ n ih =>
      have hrange := Layout.inRange_coords hpos' i
      have hinside : ∀ q ∈ sources.zip
          (Odometer.standingAt sources (Layout.coords out.arities i)).offsets,
          q.2 < q.1.cells.size := by
        rw [Odometer.standingAt, List.zip_map_right, List.zip_eq_zipWith, List.zipWith_self,
          List.map_map, List.forall_mem_map]
        exact fun p hp => hread p hp _ hrange
      rw [fillFrom?, if_pos hinside, Odometer.next?_standingAt hlen hrange, Option.bind_some,
        Odometer.next_standingAt_coords hlen hpos, ih, fillFrom,
        Odometer.next_standingAt_coords hlen hpos]

theorem fillRange?_eq (hlen : ∀ p ∈ sources, p.strides.length = out.length)
    (hpos : ∀ v ∈ out, 0 < v.arity)
    (hread : ∀ p ∈ sources, ∀ cs, Layout.InRange out.arities cs → p.offset cs < p.cells.size)
    (start n : ℕ) :
    fillRange? op out sources start n = some (fillRange op out sources start n) :=
  fillFrom?_eq hlen hpos hread n start _

theorem flatMap_chunks (hlen : ∀ p ∈ sources, p.strides.length = out.length)
    (hpos : ∀ v ∈ out, 0 < v.arity) (lengths : List ℕ) (start : ℕ) :
    (chunks op out sources start lengths).flatMap (·.toList) =
      (fillRange op out sources start lengths.sum).toList := by
  induction lengths generalizing start with
  | nil => rfl
  | cons n lengths ih =>
      rw [chunks, List.flatMap_cons, ih, List.sum_cons, toList_fillRange hlen hpos,
        toList_fillRange hlen hpos, toList_fillRange hlen hpos, List.range_add, List.map_append,
        List.map_map]
      refine congrArg _ (List.map_congr_left fun j _ => ?_)
      rw [Function.comp_apply, Nat.add_assoc]

/-- The cells of a range, read without a default. -/
theorem exists_getElem?_fillRange (hlen : ∀ p ∈ sources, p.strides.length = out.length)
    (hpos : ∀ v ∈ out, 0 < v.arity)
    (hread : ∀ p ∈ sources, ∀ cs, Layout.InRange out.arities cs → p.offset cs < p.cells.size)
    (hroom : ∀ p ∈ sources, p.cells.size < Build.room) (start n : ℕ) {j : ℕ} (hj : j < n) :
    ∃ xs, List.Forall₂ (fun (p : Projection α) x =>
        p.cells[p.offset (Layout.coords out.arities (start + j))]? = some x) sources xs ∧
      (fillRange op out sources start n)[j]? = some (op.fold xs) := by
  have hrange := Layout.inRange_coords (show ∀ a ∈ out.arities, 0 < a by simpa [Axes.arities] using hpos)
    (start + j)
  refine ⟨sources.map fun p => p.read (p.offset (Layout.coords out.arities (start + j))), ?_, ?_⟩
  · rw [List.forall₂_map_right_iff, List.forall₂_same]
    intro p hp
    have hlt := hread p hp _ hrange
    rw [Projection.read, Build.word_of_lt (hlt.trans (hroom p hp)), Array.getElem?_eq_getElem hlt,
      Array.getD_eq_getD_getElem?, Array.getElem?_eq_getElem hlt, Option.getD_some]
  · rw [← Array.getElem?_toList, toList_fillRange hlen hpos, List.getElem?_map, List.getElem?_range hj]
    rfl

end

section

variable [Cell α]

/-- **The walk is direct indexing.**  Over distinct axes with outcomes, from views of tables that are in
memory, every range of cells that the odometer fills holds at each place the fold of the source cells at
the coordinates of that place; it reads no cell beyond a table and takes no offset below zero.  If the
number of all cells fits, chunks of any lengths put together are the whole table. -/
theorem fillRange_eq_cellAt (op : Fold) (out : Axes) (hpos : ∀ v ∈ out, 0 < v.arity)
    (hnodup : out.ids.Nodup) (views : List (Table α × Assignment))
    (hviews : ∀ view ∈ views, Projection.IsView out view.1 view.2)
    (hroom : ∀ view ∈ views, view.1.cells.size < Build.room) :
    let sources := views.map fun (t, x) => Projection.pinned out t x
    (∀ start n, start + n ≤ out.count →
      fillRange? op out sources start n = some (fillRange op out sources start n) ∧
      (fillRange op out sources start n).size = n ∧
      ∀ j < n, ∃ xs, List.Forall₂ (fun (p : Projection α) x =>
          p.cells[p.base + Layout.offset p.strides (Layout.coords out.arities (start + j))]? = some x)
          sources xs ∧
        (fillRange op out sources start n)[j]? = some (op.fold xs)) ∧
    (out.count < Build.room → (Filling.mk op out sources).check = .ok () ∧
      (combine op out sources).size = out.count ∧
      ∀ lengths : List ℕ, lengths.sum = out.count →
        (chunks op out sources 0 lengths).flatMap (·.toList) = (combine op out sources).toList) := by
  intro sources
  have hcovered : (Filling.mk op out sources).IsCovered := .of_views op _ hnodup hpos hviews hroom
  refine ⟨fun start n _ => ⟨fillRange?_eq hcovered.length hpos hcovered.offset_lt start n, ?_, fun j hj =>
    exists_getElem?_fillRange hcovered.length hpos hcovered.offset_lt hcovered.room start n hj⟩,
    fun hcount => ⟨hcovered.check_eq hcount, ?_, fun lengths hsum => ?_⟩⟩
  · rw [fillRange, size_fillFrom]
    simp
  · rw [size_combine, Axes.size_of_lt hcount]
  · rw [flatMap_chunks hcovered.length hpos, hsum, combine, Axes.size_of_lt hcount]

end

/-- Two sources over axes of two and three outcomes: the first has a further axis, which is held at its
second outcome, and lacks the slower axis of the output; the second lacks the faster one. -/
theorem fillRange_eq_cellAt_of_two :
    let out : Axes := [⟨0, 2, .chance⟩, ⟨1, 3, .chance⟩]
    let views : List (Table ℚ × Assignment) :=
      [(⟨[⟨1, 3, .chance⟩, ⟨2, 2, .chance⟩], #[1, 2, 3, 4, 5, 6]⟩, fun _ => 1),
        (⟨[⟨0, 2, .chance⟩], #[10, 20]⟩, fun _ => 0)]
    let sources := views.map fun (t, x) => Projection.pinned out t x
    fillRange? .sum out sources 2 3 = some (fillRange .sum out sources 2 3) ∧
    fillRange .sum out sources 2 3 = #[16, 22, 24] ∧
    (∃ xs, List.Forall₂ (fun (p : Projection ℚ) x =>
        p.cells[p.base + Layout.offset p.strides (Layout.coords out.arities 3)]? = some x) sources xs ∧
      (fillRange .sum out sources 2 3)[1]? = some (Fold.sum.fold xs)) ∧
    (Filling.mk .sum out sources).check = .ok () ∧
    (chunks .sum out sources 0 [2, 3, 1]).flatMap (·.toList) = (combine .sum out sources).toList := by
  intro out views sources
  obtain ⟨hcells, hwhole⟩ := fillRange_eq_cellAt .sum out (by decide) (by decide) views (by decide)
    (by decide)
  obtain ⟨hcareful, -, hread⟩ := hcells 2 3 (by decide)
  obtain ⟨hcheck, -, hchunks⟩ := hwhole (by decide)
  exact ⟨hcareful, by decide +kernel, hread 1 (by decide), hcheck, hchunks [2, 3, 1] (by decide)⟩

/-- Sixteen axes of sixteen outcomes.  Together they have `2 ^ 64` outcomes. -/
def sixteenAxes : Axes := (List.range 16).map fun i => ⟨i.toUInt32, 16, .chance⟩

theorem combine_sixteenAxes (op : Fold) (sources : List (Projection ℚ)) :
    combine op sixteenAxes sources = #[] :=
  Array.eq_empty_of_size_eq_zero ((size_combine _ _ _).trans (by decide +kernel))

/-- Where the walk leaves a table: over an axis on whose outcomes the source does not agree, and over an
axis that is listed twice.  Over sixteen axes of sixteen outcomes the whole table has no cells, which is
not what its chunks add up to. -/
theorem exists_fillRange?_eq_none :
    (∃ (out : Axes) (t : Table ℚ), (∀ v ∈ out, 0 < v.arity) ∧ out.ids.Nodup ∧ t.WellFormed ∧
      t.axes.ids ⊆ out.ids ∧
      fillRange? .product out [Projection.pinned out t fun _ => 0] 0 out.count = none) ∧
    (∃ (out : Axes) (t : Table ℚ), (∀ v ∈ out, 0 < v.arity) ∧ Projection.IsView out t (fun _ => 0) ∧
      fillRange? .product out [Projection.pinned out t fun _ => 0] 0 out.count = none) ∧
    ∃ (out : Axes) (t : Table ℚ), (∀ v ∈ out, 0 < v.arity) ∧ out.ids.Nodup ∧
      Projection.IsView out t (fun _ => 0) ∧ combine .product out [Projection.pinned out t fun _ => 0] = #[] ∧
      ∀ lengths : List ℕ, lengths.sum = out.count →
        (chunks .product out [Projection.pinned out t fun _ => 0] 0 lengths).flatMap (·.toList) ≠
          (combine .product out [Projection.pinned out t fun _ => 0]).toList := by
  refine ⟨⟨[⟨0, 3, .chance⟩], ⟨[⟨0, 2, .chance⟩], #[1, 2]⟩, by decide, by decide, by decide, by decide,
      by decide +kernel⟩,
    ⟨[⟨0, 2, .chance⟩, ⟨0, 2, .chance⟩], ⟨[⟨0, 2, .chance⟩], #[1, 2]⟩, by decide, by decide,
      by decide +kernel⟩,
    ⟨sixteenAxes, .scalar 1, by decide, by decide, by decide, combine_sixteenAxes _ _, fun lengths hsum h => ?_⟩⟩
  have hlen : ∀ p ∈ [Projection.pinned sixteenAxes (Table.scalar (1 : ℚ)) fun _ => 0],
      p.strides.length = sixteenAxes.length := by decide +kernel
  rw [flatMap_chunks hlen (by decide), combine_sixteenAxes, hsum] at h
  have hsize : (fillRange .product sixteenAxes [Projection.pinned sixteenAxes (Table.scalar (1 : ℚ)) fun _ => 0] 0
      sixteenAxes.count).size = 0 := by rw [← Array.length_toList, h]; rfl
  rw [fillRange, size_fillFrom] at hsize
  exact absurd hsize (by decide +kernel)

end Influence
