import Influence.Factor
import Influence.Proofs.Coordinates

/-! # Flat indices and coordinates of a factor

`Factor.index` adds up coordinates times strides, and `Factor.outcomes` divides an index by one
arity after the other, the last axis first.  The two are inverse to each other
(`Factor.index_eq_ok_iff_outcomes`), they fail exactly outside their ranges, and `index` counts the
cells in the lexicographic order of their coordinates (`Layout.offset_lt_offset_iff`): a step along
an axis is longer than all steps along the later axes together.  So the decoded indices list all
coordinates (`Axes.isListing_coordinates`). -/

namespace Influence

namespace Layout

theorem inRange_iff_forall₂ {as cs : List ℕ} : InRange as cs ↔ List.Forall₂ (· < ·) cs as := by
  induction as generalizing cs with
  | nil =>
      rw [List.forall₂_nil_right_iff]
      constructor
      · rintro ⟨⟩
        rfl
      · rintro rfl
        exact .nil
  | cons a as ih =>
      cases cs with
      | nil => exact ⟨nofun, nofun⟩
      | cons c cs => rw [inRange_cons, List.forall₂_cons, ih]

/-- A step along an axis of stride `s` is longer than all steps along the later axes together. -/
theorem mul_add_lt_mul_add_iff {c d s m n : ℕ} (hm : m < s) (hn : n < s) :
    c * s + m < d * s + n ↔ c < d ∨ c = d ∧ m < n := by
  rcases Nat.lt_trichotomy c d with h | rfl | h
  · have hstep : (c + 1) * s ≤ d * s := Nat.mul_le_mul_right s h
    rw [Nat.succ_mul] at hstep
    exact ⟨fun _ => .inl h, fun _ => by omega⟩
  · simp
  · have hstep : (d + 1) * s ≤ c * s := Nat.mul_le_mul_right s h
    rw [Nat.succ_mul] at hstep
    constructor
    · exact fun _ => by omega
    · rintro (h' | ⟨rfl, -⟩) <;> omega

/-- The cells follow each other in the lexicographic order of their coordinates. -/
theorem offset_lt_offset_iff {as cs ds : List ℕ} (hcs : InRange as cs) (hds : InRange as ds) :
    offset (strides as) cs < offset (strides as) ds ↔ List.Lex (· < ·) cs ds := by
  induction hcs generalizing ds with
  | nil =>
      cases hds
      simp [strides]
  | cons _ hcs ih =>
      obtain _ | ⟨_, hds⟩ := hds
      rw [List.cons_lex_cons_iff, ← ih hds]
      exact mul_add_lt_mul_add_iff (offset_lt hcs) (offset_lt hds)

end Layout

namespace Factor

variable {α : Type} {f : Factor α} {axes : Axes} {cs ds : List ℕ} {i j : ℕ}

theorem inRange_arities_iff :
    Layout.InRange axes.arities cs ↔ List.Forall₂ (fun c (v : Variable) => c < v.arity) cs axes := by
  rw [Layout.inRange_iff_forall₂, Axes.arities, List.forall₂_map_right_iff]

theorem outOfRange?_eq_none_iff (hlength : cs.length = axes.length) :
    outOfRange? axes cs = none ↔ Layout.InRange axes.arities cs := by
  induction axes generalizing cs with
  | nil =>
      obtain rfl := List.length_eq_zero_iff.mp hlength
      exact ⟨fun _ => .nil, fun _ => rfl⟩
  | cons v axes ih =>
      cases cs with
      | nil => cases hlength
      | cons c cs =>
          rw [outOfRange?, Axes.arities_cons, Layout.inRange_cons,
            ← ih (Nat.succ.inj hlength)]
          split
          · simp; omega
          · simp; omega

section

variable [Build]

theorem word_offset (hf : f.table.WellFormed) (hcs : Layout.InRange f.axes.arities cs) :
    Layout.offset f.axes.distances cs < f.cells.size ∧
      Build.word (Layout.offset f.axes.distances cs) = Layout.offset f.axes.distances cs := by
  have hlt : Layout.offset f.axes.distances cs < f.cells.size :=
    (Layout.offset_lt hcs).trans_eq hf.size_cells.symm
  exact ⟨hlt, Build.word_of_holds _ hf.holds_cells _ hlt.le⟩

theorem index_eq_ok_iff (hf : f.table.WellFormed) :
    f.index cs = .ok i ↔
      Layout.InRange f.axes.arities cs ∧ Layout.offset f.axes.distances cs = i := by
  rw [index]
  split
  case isTrue hlength =>
    refine ⟨nofun, fun h => absurd h.1.length_eq ?_⟩
    rwa [Axes.arities, List.length_map]
  case isFalse hlength =>
    rw [← outOfRange?_eq_none_iff (not_not.mp hlength)]
    cases hrange : outOfRange? f.axes cs with
    | none =>
        have hcs := (outOfRange?_eq_none_iff (not_not.mp hlength)).mp hrange
        simp [(word_offset hf hcs).2]
    | some cv => simp

omit [Build] in
theorem outcomes_eq_ok_iff :
    f.outcomes i = .ok cs ↔ i < f.cells.size ∧ Layout.coords f.axes.arities i = cs := by
  rw [outcomes]
  split
  case isTrue h => exact ⟨nofun, fun h' => absurd h'.1 (by omega)⟩
  case isFalse h => simp; omega

/-- Flat indices and coordinates are inverse to each other. -/
theorem index_eq_ok_iff_outcomes (hf : f.table.WellFormed) :
    f.index cs = .ok i ↔ f.outcomes i = .ok cs := by
  have hsize : f.cells.size = Layout.size f.axes.arities := hf.size_cells
  have hpos : ∀ a ∈ f.axes.arities, 0 < a := List.forall_mem_map.mpr hf.arity_pos
  rw [index_eq_ok_iff hf, outcomes_eq_ok_iff, hsize]
  constructor
  · rintro ⟨hcs, rfl⟩
    exact ⟨Layout.offset_lt hcs, Layout.coords_offset hcs⟩
  · rintro ⟨hi, rfl⟩
    exact ⟨Layout.inRange_coords hpos i, Layout.offset_coords hi⟩

theorem cellAt_eq_ok_iff [Cell α] {x : α} (hf : f.table.WellFormed) :
    f.cellAt cs = .ok x ↔ Layout.InRange f.axes.arities cs ∧
      f.table.read (Layout.offset f.axes.distances cs) = x := by
  by_cases hcs : Layout.InRange f.axes.arities cs
  · have hinside : ¬f.cells.size ≤ Layout.offset f.axes.distances cs :=
      Nat.not_le.mpr (word_offset hf hcs).1
    rw [cellAt, (index_eq_ok_iff hf).mpr ⟨hcs, rfl⟩, and_iff_right hcs]
    have hread : (Build.strict && decide (f.cells.size ≤ Layout.offset f.axes.distances cs)) = false := by
      simp [hinside]
    change (if (_ && _) = true then _ else _) = _ ↔ _
    rw [hread]
    exact ⟨Except.ok.inj, congrArg Except.ok⟩
  · refine iff_of_false (fun h => hcs ?_) fun h => hcs h.1
    cases hi : f.index cs with
    | ok i => exact ((index_eq_ok_iff hf).mp hi).1
    | error e =>
        rw [cellAt, hi] at h
        cases h

theorem cellAt_coords [Cell α] (hf : f.table.WellFormed) (hi : i < f.axes.count) :
    f.cellAt (Layout.coords f.axes.arities i) = .ok (f.table.read i) := by
  have hpos : ∀ a ∈ f.axes.arities, 0 < a := List.forall_mem_map.mpr hf.arity_pos
  refine (cellAt_eq_ok_iff hf).mpr ⟨Layout.inRange_coords hpos i, ?_⟩
  rw [Axes.distances, Layout.offset_coords hi]

/-- The cells along the last axis, at some coordinates of the other axes. -/
theorem cellAt_append_singleton_iff [Cell α] {front : Axes} {v : Variable} {k : ℕ} {x : α}
    (hf : f.table.WellFormed) (haxes : f.axes = front ++ [v])
    (hcs : Layout.InRange front.arities cs) : f.cellAt (cs ++ [k]) = .ok x ↔
      k < v.arity ∧ f.table.read (Layout.offset front.distances cs * v.arity + k) = x := by
  have harities : f.axes.arities = front.arities ++ [v.arity] := by simp [haxes, Axes.arities]
  rw [cellAt_eq_ok_iff hf, Axes.distances, harities, Layout.inRange_append_singleton, and_iff_right hcs,
    Layout.offset_append_singleton hcs.length_eq]
  rfl

theorem exists_index_iff (hf : f.table.WellFormed) :
    (∃ i, f.index cs = .ok i) ↔
      List.Forall₂ (fun c (v : Variable) => c < v.arity) cs f.axes := by
  simp only [index_eq_ok_iff hf, exists_and_left, exists_eq', and_true]
  exact inRange_arities_iff

omit [Build] in
theorem exists_outcomes_iff : (∃ cs, f.outcomes i = .ok cs) ↔ i < f.cells.size := by
  simp only [outcomes_eq_ok_iff, exists_and_left, exists_eq', and_true]

/-- The cells of a factor have exactly the coordinates in range, one vector of them each. -/
theorem bijOn_index (hf : f.table.WellFormed) :
    Set.BijOn f.index {cs | List.Forall₂ (fun c (v : Variable) => c < v.arity) cs f.axes}
      (Except.ok '' Set.Iio f.cells.size) := by
  refine ⟨fun cs hcs => ?_, fun cs hcs ds hds heq => ?_, ?_⟩
  · obtain ⟨i, hi⟩ := (exists_index_iff hf).mpr hcs
    rw [hi]
    exact ⟨i, exists_outcomes_iff.mp ⟨cs, (index_eq_ok_iff_outcomes hf).mp hi⟩, rfl⟩
  · obtain ⟨i, hi⟩ := (exists_index_iff hf).mpr hcs
    have hcs' : f.outcomes i = .ok cs := (index_eq_ok_iff_outcomes hf).mp hi
    have hds' : f.outcomes i = .ok ds := (index_eq_ok_iff_outcomes hf).mp (heq ▸ hi)
    exact Except.ok.inj (hcs'.symm.trans hds')
  · rintro _ ⟨i, hi, rfl⟩
    obtain ⟨cs, hcs⟩ := exists_outcomes_iff.mpr hi
    have hindex := (index_eq_ok_iff_outcomes hf).mpr hcs
    exact ⟨cs, (exists_index_iff hf).mp ⟨i, hindex⟩, hindex⟩

theorem lt_iff_lex (hf : f.table.WellFormed) (hi : f.index cs = .ok i) (hj : f.index ds = .ok j) :
    i < j ↔ List.Lex (· < ·) cs ds := by
  obtain ⟨hcs, rfl⟩ := (index_eq_ok_iff hf).mp hi
  obtain ⟨hds, rfl⟩ := (index_eq_ok_iff hf).mp hj
  exact Layout.offset_lt_offset_iff hcs hds

/-- The coordinates in range and the flat indices of a well-formed factor correspond to each other:
`index` and `outcomes` succeed exactly there, each undoes the other, and the indices run through the
coordinates in lexicographic order, the first axis first. -/
theorem index_outcomes_inverse (f : Factor α) (hf : f.table.WellFormed) :
    (∀ cs, (∃ i, f.index cs = .ok i) ↔
      List.Forall₂ (fun c (v : Variable) => c < v.arity) cs f.axes) ∧
    (∀ i, (∃ cs, f.outcomes i = .ok cs) ↔ i < f.cells.size) ∧
    (∀ cs i, f.index cs = .ok i → f.outcomes i = .ok cs) ∧
    (∀ i cs, f.outcomes i = .ok cs → f.index cs = .ok i) ∧
    Set.BijOn f.index {cs | List.Forall₂ (fun c (v : Variable) => c < v.arity) cs f.axes}
      (Except.ok '' Set.Iio f.cells.size) ∧
    ∀ cs ds i j, f.index cs = .ok i → f.index ds = .ok j →
      (List.Lex (· < ·) cs ds ↔ i < j) :=
  ⟨fun _ => exists_index_iff hf, fun _ => exists_outcomes_iff,
    fun _ _ => (index_eq_ok_iff_outcomes hf).mp, fun _ _ => (index_eq_ok_iff_outcomes hf).mpr,
    bijOn_index hf, fun _ _ _ _ hi hj => (lt_iff_lex hf hi hj).symm⟩

end

/-- Six cells over three axes, the second of which has a single outcome. -/
def sixCells : Factor ℚ :=
  ⟨0, ⟨[⟨0, 2, .chance⟩, ⟨1, 1, .decision⟩, ⟨2, 3, .chance⟩], #[1, 2, 3, 4, 5, 6]⟩⟩

/-- The last of the six cells. -/
theorem index_outcomes_inverse_sixCells :
    sixCells.table.WellFormed ∧ sixCells.index [1, 0, 2] = .ok 5 ∧
      sixCells.outcomes 5 = .ok [1, 0, 2] := by
  have hf : sixCells.table.WellFormed :=
    ⟨by decide +kernel, by decide +kernel, by decide +kernel, by decide +kernel⟩
  have h : sixCells.index [1, 0, 2] = .ok 5 := by decide +kernel
  exact ⟨hf, h, (index_outcomes_inverse sixCells hf).2.2.1 _ _ h⟩

end Factor

/-! ### All coordinates -/

namespace Axes

variable {axes : Axes}

/-- The list has all coordinates along some axes, each once, in the order of the cells: `Factor.outcomes`
decodes an index to the coordinates in that place. -/
structure IsListing [Build] (axes : Axes) (css : List (List ℕ)) : Prop where
  mem : ∀ cs, cs ∈ css ↔ List.Forall₂ (fun c (v : Variable) => c < v.arity) cs axes
  order : css.Pairwise (List.Lex (· < ·))
  outcomes : ∀ {α : Type} (f : Factor α), f.table.WellFormed → f.axes = axes →
    ∀ i cs, f.outcomes i = .ok cs ↔ css[i]? = some cs

/-- The coordinates of all cells, in their order. -/
def coordinates (axes : Axes) : List (List ℕ) :=
  (List.range axes.count).map (Layout.coords axes.arities)

theorem isListing_coordinates [Build] (hpos : ∀ v ∈ axes, 0 < v.arity) : axes.IsListing axes.coordinates := by
  have hpos' : ∀ a ∈ axes.arities, 0 < a := List.forall_mem_map.mpr hpos
  have hrange := Layout.inRange_coords hpos'
  constructor
  case mem =>
    intro cs
    rw [coordinates, List.mem_map, ← Factor.inRange_arities_iff]
    constructor
    · rintro ⟨i, -, rfl⟩
      exact hrange i
    · exact fun hcs => ⟨_, List.mem_range.mpr (Layout.offset_lt hcs), Layout.coords_offset hcs⟩
  case order =>
    refine List.pairwise_map.mpr (List.pairwise_lt_range.imp_of_mem fun {i j} hi hj hlt => ?_)
    rw [List.mem_range] at hi hj
    rwa [← Layout.offset_lt_offset_iff (hrange i) (hrange j), Layout.offset_coords hi,
      Layout.offset_coords hj]
  case outcomes =>
    rintro α f hf rfl i cs
    rw [Factor.outcomes_eq_ok_iff, show f.cells.size = f.axes.count from hf.size_cells]
    simp [coordinates, List.getElem?_eq_some_iff]

end Axes

end Influence
