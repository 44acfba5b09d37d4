import Influence.Proofs.Elimination.Decision

/-! # Best rows

A rule shares one mass equally among the best outcomes of every row of the table from which it is taken.
`Table.IsArgmax` says so of one row.

The table and its rule are treated alike from then on: axes that the decision does not observe are
dropped from both at the first outcome, whether or not the table is constant along them.  Each row of
the one is therefore still the best choice for that row of the other (`Tables.picksBest_of_decide`). -/

namespace Influence

open scoped Exact

variable {α : Type} [Cell α] {sizes : VariableId → ℕ} {x : Assignment}

namespace Table

variable {t t' : Table α} {d v : Variable} {row shares : List α} {rows : List (List α)}

/-! ### One row -/

/-- The shares give equal parts of one to the outcomes whose values equal the largest value, and
nothing to the others. -/
def IsArgmax (values shares : List α) : Prop :=
  ∃ best ∈ values, (∀ a ∈ values, ¬Cell.less best a) ∧ 0 < values.countP (· == best) ∧
    shares = values.map fun a => if a == best then 1 / (values.countP (· == best) : α) else 0

/-- A row has a best choice only if some cell equals the largest one. -/
theorem bestShares?_eq_some (h : bestShares? row = some shares) :
    ∃ best, Cell.largest? row = some best ∧ 0 < row.countP (· == best) ∧
      shares = row.map fun a => if a == best then 1 / (row.countP (· == best) : α) else 0 := by
  unfold bestShares? at h
  obtain ⟨best, hbest, h⟩ := Option.bind_eq_some_iff.mp h
  dsimp only at h
  split at h
  · cases h
  next hties => exact ⟨best, hbest, Nat.pos_of_ne_zero hties, (Option.some.inj h).symm⟩

theorem isArgmax_of_bestShares? [Cell.Ordered α] (hrow : ∀ a ∈ row, Cell.IsNumber a)
    (h : bestShares? row = some shares) : IsArgmax row shares := by
  obtain ⟨best, hbest, hties, hshares⟩ := bestShares?_eq_some h
  obtain ⟨hmem, hlargest⟩ := Cell.largest?_spec hrow hbest
  exact ⟨best, hmem, hlargest, hties, hshares⟩

/-! ### The rows of a rule -/

/-- The best choice for a row, or the row itself if there is none. -/
def bestOrSelf (row : List α) : List α := (bestShares? row).getD row

theorem bestOrSelf_of_eq_some (h : bestShares? row = some shares) : bestOrSelf row = shares := by
  rw [bestOrSelf, h, Option.getD_some]

theorem length_bestOrSelf (row : List α) : (bestOrSelf row).length = row.length := by
  unfold bestOrSelf
  cases h : bestShares? row with
  | none => rfl
  | some shares => exact length_of_bestShares? h

theorem bestRows_eq_ok {state : ℕ} {cells : List α} (h : bestRows state rows = .ok cells) :
    cells = rows.flatMap bestOrSelf ∧ ∀ row ∈ rows, ∃ shares, bestShares? row = some shares := by
  induction rows generalizing state cells with
  | nil => exact ⟨(Except.ok.inj h).symm, by simp⟩
  | cons row rows ih =>
      unfold bestRows at h
      cases hshares : bestShares? row with
      | none =>
          rw [hshares] at h
          cases h
      | some shares =>
          rw [hshares] at h
          dsimp only at h
          cases hrest : bestRows (state + 1) rows with
          | error e =>
              rw [hrest] at h
              cases h
          | ok rest =>
              rw [hrest] at h
              obtain rfl : shares ++ rest = cells := Except.ok.inj h
              obtain ⟨hcells, hall⟩ := ih hrest
              refine ⟨?_, List.forall_mem_cons.mpr ⟨⟨shares, hshares⟩, hall⟩⟩
              rw [List.flatMap_cons, bestOrSelf_of_eq_some hshares, ← hcells]

/-- A rule replaces every row by the best choice for it. -/
theorem rule_eq_ok (h : t.rule v = .ok t') :
    t' = t.replaceRows bestOrSelf v ∧
      ∀ row ∈ Table.rows v.arity (t.moveLast v).cells, ∃ shares, bestShares? row = some shares := by
  simp only [rule] at h
  cases hrows : bestRows 0 (Table.rows v.arity (t.moveLast v).cells) with
  | error state =>
      rw [hrows] at h
      cases h
  | ok cells =>
      rw [hrows] at h
      obtain rfl := Except.ok.inj h
      obtain ⟨rfl, hall⟩ := bestRows_eq_ok hrows
      exact ⟨rfl, hall⟩

/-- A row of a rule is the best choice for the row of the table at the same outcomes. -/
theorem Fits.bestShares?_rowAt [Cell.LeftUnital α] (ht : t.Fits sizes) (hv : t.mentions v)
    (hsize : v.arity = sizes v.id) (h : t.rule v = .ok t') (hx : x.Valid sizes) :
    bestShares? (rowAt t v x) = some (rowAt t' v x) := by
  obtain ⟨rfl, hall⟩ := rule_eq_ok h
  obtain ⟨row, -, hrow⟩ := ht.getElem?_rows hv hsize
  obtain ⟨shares, hshares⟩ := hall _ (List.mem_of_getElem? (hrow x hx))
  rw [ht.rowAt_replaceRows hv hsize (fun row hrow => by rw [length_bestOrSelf, hrow]) hx, hshares,
    bestOrSelf_of_eq_some hshares]

theorem Fits.rowAt_restrict [Cell.LeftUnital α] (ht : t.Fits sizes) (hv : t.mentions v)
    (hne : v.id ≠ d.id) (hsize : d.arity = sizes d.id) (hx : x.Valid sizes) (k : ℕ) :
    rowAt (t.restrict v k) d x = rowAt t d (x.set v k) := by
  refine List.map_congr_left fun j hj => ?_
  have hset : (x.set d j).Valid sizes := hx.set (hsize ▸ List.mem_range.mp hj)
  rw [ht.valueAt_restrict hv hset, Assignment.set_comm x hne.symm]

end Table

/-! ### Tables and their rules -/

namespace Tables

variable [Cell.LeftUnital α] {s : Setting α} {d v : Variable} {ts : List (Table α)}
  {p : Table α × Table α}

/-- Every row of the second table is the best choice for that row of the first. -/
def PicksBest (sizes : VariableId → ℕ) (d : Variable) (p : Table α × Table α) : Prop :=
  ∀ x : Assignment, x.Valid sizes →
    Table.bestShares? (Table.rowAt p.1 d x) = some (Table.rowAt p.2 d x)

theorem PicksBest.dropAxis (h : PicksBest sizes d p) (hp : Paired sizes p)
    (hsize : d.arity = sizes d.id) (hv : v.id ∈ p.2.axes.ids) (hne : v.id ≠ d.id) :
    PicksBest sizes d (dropAxis p v) := by
  unfold Tables.dropAxis
  split
  next =>
    intro x hx
    have hleft : p.1.mentions v := Table.mentions_iff.mpr (hp.perm.mem_iff.mpr hv)
    have hright : p.2.mentions v := Table.mentions_iff.mpr hv
    have hset : (x.set v 0).Valid sizes := hx.set (Nat.zero_lt_of_lt (hx v.id))
    rw [hp.left.rowAt_restrict hleft hne hsize hx, hp.right.rowAt_restrict hright hne hsize hx]
    exact h _ hset
  next => exact h

theorem PicksBest.dropAxes {vars : Axes} (h : PicksBest sizes d p) (hp : Paired sizes p)
    (hsize : d.arity = sizes d.id) (hnodup : vars.ids.Nodup) (hvars : vars.ids ⊆ p.2.axes.ids)
    (hd : d.id ∉ vars.ids) : PicksBest sizes d (vars.foldl Tables.dropAxis p) := by
  induction vars generalizing p with
  | nil => exact h
  | cons v vars ih =>
      obtain ⟨hv, hnodup⟩ := Axes.nodup_ids_cons.mp hnodup
      rw [Axes.ids_cons, List.cons_subset] at hvars
      rw [Axes.ids_cons, List.mem_cons, not_or] at hd
      rw [List.foldl_cons]
      refine ih (h.dropAxis hp hsize hvars.1 (Ne.symm hd.1)) (hp.dropAxis v) hnodup (fun id hid => ?_) hd.2
      exact hp.mem_dropAxis (hvars.2 hid) fun heq => hv (heq ▸ hid)

/-- The rule found for a decision picks the best outcomes of the table found with it. -/
theorem picksBest_of_decide (hts : ∀ t ∈ ts, t.Fits sizes) (hsize : d.arity = sizes d.id)
    (h : decide s d ts = .ok p) : PicksBest sizes d p := by
  have hproduct : (Table.product (bearing s d ts)).Fits sizes :=
    Table.fits_foldAll fun t ht => hts t (List.mem_of_mem_filter ht)
  unfold decide at h
  split at h
  · cases h
  next hne =>
    have hmentions := mentions_product_bearing hne
    split at h
    · cases h
    next rule hrule =>
      obtain ⟨hfits, hperm⟩ := hproduct.rule hmentions hsize hrule
      have hpaired : Paired sizes (Table.product (bearing s d ts), rule) :=
        ⟨hproduct, hfits, hperm.symm⟩
      have hbest : PicksBest sizes d (Table.product (bearing s d ts), rule) := fun x hx =>
        hproduct.bestShares?_rowAt hmentions hsize hrule hx
      obtain rfl := Except.ok.inj h
      refine hbest.dropAxes hpaired hsize (Axes.nodup_ids_filter hfits.wellFormed.nodup _)
        (Axes.ids_filter_sublist _ _).subset ?_
      rw [unobserved, Axes.mem_ids_filter_mentions]
      simp

end Tables

end Influence
