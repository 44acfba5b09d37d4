import Mathlib
import Influence.Layout

/-! # Indices and coordinates

`Layout.coords` and `Layout.offset` are inverse to each other between the indices below
`Layout.size` and the coordinates in range (`coords_offset`, `offset_coords`).

`Layout.successor` advances coordinates by one cell, the last axis first.  It follows the indices
(`successor_coords`), and its flag says that the walk has gone once around the table. -/

namespace Influence.Layout

/-! ### Coordinates in range -/

@[simp] theorem inRange_cons {a c : ℕ} {as cs : List ℕ} :
    InRange (a :: as) (c :: cs) ↔ c < a ∧ InRange as cs := by
  constructor
  · rintro (_ | ⟨hc, hcs⟩)
    exact ⟨hc, hcs⟩
  · rintro ⟨hc, hcs⟩
    exact .cons hc hcs

theorem InRange.length_eq {as cs : List ℕ} (h : InRange as cs) : cs.length = as.length := by
  induction h with
  | nil => rfl
  | cons _ _ ih => simp [ih]

theorem InRange.size_pos {as cs : List ℕ} (h : InRange as cs) : 0 < size as := by
  induction h with
  | nil => simp
  | cons hc _ ih => exact Nat.mul_pos (by omega) ih

theorem inRange_coords {as : List ℕ} (h : ∀ a ∈ as, 0 < a) (i : ℕ) : InRange as (coords as i) := by
  induction as with
  | nil => exact .nil
  | cons a as ih =>
      rw [coords_cons]
      exact .cons (Nat.mod_lt _ (h a (by simp))) (ih fun b hb => h b (by simp [hb]))

theorem inRange_append_singleton {a c : ℕ} {as cs : List ℕ} :
    InRange (as ++ [a]) (cs ++ [c]) ↔ InRange as cs ∧ c < a := by
  constructor
  · intro h
    have hlength : cs.length = as.length := by simpa using h.length_eq
    induction as generalizing cs with
    | nil =>
        obtain rfl := List.length_eq_zero_iff.mp hlength
        exact ⟨.nil, (inRange_cons.mp h).1⟩
    | cons b as ih =>
        obtain ⟨d, cs, rfl⟩ := List.exists_cons_of_length_eq_add_one hlength
        obtain ⟨hd, h⟩ := inRange_cons.mp h
        obtain ⟨hcs, hc⟩ := ih h (Nat.succ.inj hlength)
        exact ⟨.cons hd hcs, hc⟩
  · rintro ⟨hcs, hc⟩
    induction hcs with
    | nil => exact .cons hc .nil
    | cons hd _ ih => exact .cons hd ih

/-! ### Round trips -/

/-- Along one more axis the cells follow each other without a gap. -/
theorem offset_append_singleton {as cs : List ℕ} (h : cs.length = as.length) (a c : ℕ) :
    offset (strides (as ++ [a])) (cs ++ [c]) = offset (strides as) cs * a + c := by
  induction as generalizing cs with
  | nil =>
      obtain rfl := List.length_eq_zero_iff.mp h
      simp [strides]
  | cons b as ih =>
      obtain ⟨d, cs, rfl⟩ := List.exists_cons_of_length_eq_add_one h
      simp only [List.cons_append, strides, offset_cons, size_append, ih (Nat.succ.inj h), size_cons,
        size_nil]
      ring

theorem offset_lt {as cs : List ℕ} (h : InRange as cs) : offset (strides as) cs < size as := by
  induction h with
  | nil => simp [strides]
  | @cons a c as cs hc _ ih =>
      simp only [strides, offset_cons, size_cons]
      calc c * size as + offset (strides as) cs < c * size as + size as := by omega
        _ = (c + 1) * size as := by ring
        _ ≤ a * size as := Nat.mul_le_mul_right _ hc

/-- The coordinates of an index do not change when the index goes once around the table. -/
theorem coords_add_mul_size (as : List ℕ) (i k : ℕ) : coords as (i + k * size as) = coords as i := by
  induction as generalizing i k with
  | nil => rfl
  | cons a as ih =>
      simp only [coords_cons, size_cons]
      rcases Nat.eq_zero_or_pos (size as) with h0 | hpos
      · simp [h0]
      · rw [← Nat.mul_assoc, ih, Nat.add_mul_div_right _ _ hpos, Nat.add_mul_mod_self_right]

theorem coords_offset {as cs : List ℕ} (h : InRange as cs) :
    coords as (offset (strides as) cs) = cs := by
  induction h with
  | nil => rfl
  | @cons a c as cs hc hcs ih =>
      have hlt := offset_lt hcs
      simp only [strides, offset_cons, coords_cons]
      rw [Nat.add_comm, coords_add_mul_size, ih, Nat.add_mul_div_right _ _ hcs.size_pos,
        Nat.div_eq_of_lt hlt, Nat.zero_add, Nat.mod_eq_of_lt hc]

theorem offset_coords {as : List ℕ} {i : ℕ} (h : i < size as) :
    offset (strides as) (coords as i) = i := by
  induction as generalizing i with
  | nil => simp [strides] at h ⊢; omega
  | cons a as ih =>
      have hpos : 0 < size as := Nat.pos_of_ne_zero fun h0 => by simp [h0] at h
      have hdiv : i / size as < a := Nat.div_lt_of_lt_mul (by rw [size_cons, Nat.mul_comm] at h; exact h)
      have hround : coords as i = coords as (i % size as) := by
        conv_lhs => rw [← Nat.mod_add_div' i (size as)]
        rw [coords_add_mul_size]
      simp only [strides, coords_cons, offset_cons]
      rw [Nat.mod_eq_of_lt hdiv, hround, ih (Nat.mod_lt i hpos), Nat.add_comm]
      exact Nat.mod_add_div' i (size as)

/-! ### The next cell -/

/-- The coordinates of the next cell.  The flag says that the first axis went back to its first
outcome as well. -/
def successor : List ℕ → List ℕ → List ℕ × Bool
  | a :: as, c :: cs =>
    match successor as cs with
    | (cs, false) => (c :: cs, false)
    | (cs, true) => if c + 1 < a then ((c + 1) :: cs, false) else (0 :: cs, true)
  | _, _ => ([], true)

theorem successor_coords {as : List ℕ} (h : ∀ a ∈ as, 0 < a) (i : ℕ) :
    successor as (coords as i) = (coords as (i + 1), decide ((i + 1) % size as = 0)) := by
  induction as with
  | nil => simp [successor, Nat.mod_one]
  | cons a as ih =>
      have ha : 0 < a := h a (by simp)
      have hpos : 0 < size as := size_pos fun b hb => h b (by simp [hb])
      have hsplit : (i + 1) % (a * size as) = (i + 1) % size as + size as * ((i + 1) / size as % a) := by
        rw [Nat.mul_comm, Nat.mod_mul]
      simp only [coords_cons, successor, ih fun b hb => h b (by simp [hb]), size_cons]
      by_cases hwrap : (i + 1) % size as = 0
      · have hdvd : size as ∣ i + 1 := Nat.dvd_of_mod_eq_zero hwrap
        have hquot : (i + 1) / size as = i / size as + 1 := Nat.succ_div_of_dvd hdvd
        have hlt : i / size as % a < a := Nat.mod_lt _ ha
        simp only [hwrap, decide_true, hsplit, hquot, Nat.zero_add]
        by_cases hc : i / size as % a + 1 < a
        · have hmod : (i / size as + 1) % a = i / size as % a + 1 := by
            rw [Nat.add_mod, Nat.mod_eq_of_lt (a := 1) (by omega), Nat.mod_eq_of_lt hc]
          simp [hc, hmod, hpos.ne']
        · have hmod : (i / size as + 1) % a = 0 := by
            rw [← Nat.mod_add_mod, show i / size as % a + 1 = a by omega, Nat.mod_self]
          simp [hc, hmod]
      · have hquot : (i + 1) / size as = i / size as := by
          rw [Nat.succ_div, if_neg fun hd => hwrap (Nat.mod_eq_zero_of_dvd hd), Nat.add_zero]
        simp [hwrap, hsplit, hquot]

end Influence.Layout
