import Influence.Proofs.Elimination.Blocks
import Influence.Proofs.Elimination.Resolve

/-! # What a rule maximizes

A rule is the best rule of the tables that bear on its decision.  The decision maker wants the best
outcome of the whole pool instead, with everything hidden summed out.

`IsRuleFor.takesBest_iff` says where the two agree if all tables of the pool but one are laws: the
rule takes only best outcomes exactly if the tables that mention the decision, but were passed over
because they do not bear on it, do not depend on it, or nothing depends on it at all. -/

namespace Influence

open scoped Exact

variable {sizes rank : VariableId → ℕ}

/-- The function has the same value at all outcomes of a variable. -/
def ConstantAt (d : Variable) (F : Assignment → ℚ) (z : Assignment) : Prop :=
  ∀ j < d.arity, ∀ k < d.arity, F (z.set d j) = F (z.set d k)

/-- The rule gives mass only to outcomes of a decision that have the largest value. -/
def TakesBest (d : Variable) (value rule : Assignment → ℚ) (z : Assignment) : Prop :=
  ∀ k < d.arity, 0 < rule (z.set d k) → ∀ j < d.arity, value (z.set d j) ≤ value (z.set d k)

instance (d : Variable) (F : Assignment → ℚ) (z : Assignment) : Decidable (ConstantAt d F z) :=
  inferInstanceAs (Decidable (∀ j < d.arity, ∀ k < d.arity, _ = _))

instance (d : Variable) (value rule : Assignment → ℚ) (z : Assignment) :
    Decidable (TakesBest d value rule z) :=
  inferInstanceAs (Decidable (∀ k < d.arity, 0 < _ → ∀ j < d.arity, _ ≤ _))

/-- Whether a table mentions a decision but does not bear on it. -/
def Tables.isPassedOver {α : Type} (decision : Variable) (parents : List Variable) (t : Table α) :
    Bool :=
  t.mentions decision && !bearsOn decision parents t

section

variable {d : Variable} {value value' rule rule' F G : Assignment → ℚ} {z : Assignment}

theorem ConstantAt.mul (hF : ConstantAt d F z) (hG : ConstantAt d G z) :
    ConstantAt d (fun x => F x * G x) z := fun j hj k hk => by
  change F _ * G _ = F _ * G _
  rw [hF j hj k hk, hG j hj k hk]

theorem ConstantAt.takesBest (h : ConstantAt d value z) : TakesBest d value rule z :=
  fun k hk _ j hj => (h j hj k hk).le

/-- A rule that gives mass to every outcome takes only best ones if all are equally good. -/
theorem takesBest_iff_constantAt (h : ∀ k < d.arity, 0 < rule (z.set d k)) :
    TakesBest d value rule z ↔ ConstantAt d value z := by
  constructor
  · intro hbest j hj k hk
    exact le_antisymm (hbest k hk (h k hk) j hj) (hbest j hj (h j hj) k hk)
  · exact ConstantAt.takesBest

theorem takesBest_congr (hvalue : ∀ k < d.arity, value (z.set d k) = value' (z.set d k))
    (hrule : ∀ k < d.arity, rule (z.set d k) = rule' (z.set d k)) :
    TakesBest d value rule z ↔ TakesBest d value' rule' z := by
  refine forall₂_congr fun k hk => ?_
  rw [hrule k hk, hvalue k hk]
  exact imp_congr_right fun _ => forall₂_congr fun j hj => by rw [hvalue j hj]

theorem constantAt_congr (h : ∀ k < d.arity, F (z.set d k) = G (z.set d k)) :
    ConstantAt d F z ↔ ConstantAt d G z :=
  forall₂_congr fun j hj => forall₂_congr fun k hk => by rw [h j hj, h k hk]

/-- No other distribution over the outcomes has a larger mean value. -/
theorem TakesBest.sum_le {other : Assignment → ℚ} (h : TakesBest d value rule z)
    (hrule : Table.IsConditional sizes d rule) (hother : Table.IsConditional sizes d other)
    (hsize : d.arity = sizes d.id) (hz : z.Valid sizes) :
    ∑ k ∈ Finset.range d.arity, other (z.set d k) * value (z.set d k) ≤
      ∑ k ∈ Finset.range d.arity, rule (z.set d k) * value (z.set d k) := by
  have hset : ∀ k ∈ Finset.range d.arity, (z.set d k).Valid sizes := fun k hk => by
    rw [Finset.mem_range, hsize] at hk
    exact hz.set hk
  obtain ⟨best, hbest, hmass⟩ : ∃ k ∈ Finset.range d.arity, 0 < rule (z.set d k) := by
    refine Finset.exists_lt_of_sum_lt ?_
    rw [hrule.sum_one z hz, Finset.sum_const_zero]
    exact one_pos
  have hle : ∀ k ∈ Finset.range d.arity, value (z.set d k) ≤ value (z.set d best) := fun k hk =>
    h best (Finset.mem_range.mp hbest) hmass k (Finset.mem_range.mp hk)
  calc ∑ k ∈ Finset.range d.arity, other (z.set d k) * value (z.set d k)
      ≤ ∑ k ∈ Finset.range d.arity, other (z.set d k) * value (z.set d best) :=
        Finset.sum_le_sum fun k hk =>
          mul_le_mul_of_nonneg_left (hle k hk) (hother.nonneg _ (hset k hk))
    _ = ∑ k ∈ Finset.range d.arity, rule (z.set d k) * value (z.set d best) := by
        rw [← Finset.sum_mul, ← Finset.sum_mul, hother.sum_one z hz, hrule.sum_one z hz]
    _ = ∑ k ∈ Finset.range d.arity, rule (z.set d k) * value (z.set d k) := by
        refine Finset.sum_congr rfl fun k hk => ?_
        rcases (hrule.nonneg _ (hset k hk)).lt_or_eq with hpos | hzero
        · rw [le_antisymm (hle k hk)
            (h k (Finset.mem_range.mp hk) hpos best (Finset.mem_range.mp hbest))]
        · rw [← hzero, zero_mul, zero_mul]

end

namespace Tables

variable {ts : List (Table ℚ)} {d : Variable} {parents : List Variable} {z : Assignment}

/-- The tables that bear on a decision, those passed over and those that do not mention it. -/
theorem weight_split (d : Variable) (parents : List Variable) (ts : List (Table ℚ))
    (x : Assignment) :
    weight ts x = weight (ts.filter (bearsOn d parents)) x *
      (weight (ts.filter (isPassedOver d parents)) x * weight (ts.filter (!·.mentions d)) x) := by
  rw [← weight_filter_mul (bearsOn d parents) ts x, mul_comm,
    ← weight_filter_mul (·.mentions d) (ts.filter (!bearsOn d parents ·)) x, List.filter_filter,
    List.filter_filter]
  have hpassed : (ts.filter fun t => t.mentions d && !bearsOn d parents t) =
      ts.filter (isPassedOver d parents) := rfl
  have hother : (ts.filter fun t => (!t.mentions d) && !bearsOn d parents t) =
      ts.filter (!·.mentions d) :=
    List.filter_congr fun t _ => by cases h : t.mentions d <;> simp [bearsOn, h]
  rw [hpassed, hother, mul_comm (weight (ts.filter (!·.mentions d)) x)]

theorem constantAt_weight (h : ∀ t ∈ ts, ConstantAt d t.valueAt z) :
    ConstantAt d (weight ts) z := fun j hj k hk =>
  weight_congr fun t ht => h t ht j hj k hk

theorem constantAt_of_not_mentions {t : Table ℚ} (h : ¬t.mentions d) :
    ConstantAt d t.valueAt z := fun j _ k _ => by
  have hfree := Table.mentions_iff.not.mp h
  rw [t.valueAt_set_of_notMem z hfree, t.valueAt_set_of_notMem z hfree]

/-- Between a best rule of the tables that bear on a decision and the best outcomes of all tables
stand only those that were passed over. -/
theorem takesBest_iff {rule : Assignment → ℚ}
    (hbest : Table.IsBestRule sizes d (weight (ts.filter (bearsOn d parents))) rule)
    {t : Table ℚ} {rest : List (Table ℚ)} (hperm : ts.Perm (t :: rest))
    (hrest : ∀ s ∈ rest, ∀ x : Assignment, x.Valid sizes →
      0 ≤ s.valueAt x ∧ ∀ k < sizes d.id, s.valueAt (x.set d k) = s.valueAt x)
    (hsize : d.arity = sizes d.id) (hz : z.Valid sizes) :
    TakesBest d (weight ts) rule z ↔
      ConstantAt d (weight (ts.filter (isPassedOver d parents))) z ∨
        ConstantAt d (weight ts) z := by
  have hset : ∀ k < d.arity, (z.set d k).Valid sizes := fun k hk => hz.set (by rwa [← hsize])
  have hconst : ∀ s ∈ rest, ConstantAt d s.valueAt z := fun s hs j hj k hk => by
    rw [(hrest s hs z hz).2 j (by rwa [← hsize]), (hrest s hs z hz).2 k (by rwa [← hsize])]
  have hother : ConstantAt d (weight (ts.filter (!·.mentions d))) z :=
    constantAt_weight fun s hs => constantAt_of_not_mentions (by simpa using (List.mem_filter.mp hs).2)
  -- a test that the one special table fails selects constant nonnegative tables
  have hselect : ∀ p : Table ℚ → Bool, ¬p t → ConstantAt d (weight (ts.filter p)) z ∧
      ∀ k < d.arity, 0 ≤ weight (ts.filter p) (z.set d k) := by
    intro p hp
    have hsub : ∀ s ∈ ts.filter p, s ∈ rest := by
      intro s hs
      obtain ⟨hs, hps⟩ := List.mem_filter.mp hs
      rcases List.mem_cons.mp (hperm.mem_iff.mp hs) with rfl | hs
      · exact absurd hps hp
      · exact hs
    exact ⟨constantAt_weight fun s hs => hconst s (hsub s hs), fun k hk =>
      weight_nonneg fun s hs => (hrest s (hsub s hs) _ (hset k hk)).1⟩
  have hsplit := weight_split d parents ts
  by_cases hpassed : isPassedOver d parents t
  · -- the rule sees nothing that depends on the decision
    obtain ⟨hseen, -⟩ := hselect (bearsOn d parents) fun hbears => by
      simp [isPassedOver, hbears] at hpassed
    have hmass : ∀ k < d.arity, 0 < rule (z.set d k) := fun k hk =>
      (hbest.pos_iff _ (hset k hk)).mpr fun j hj => by
        rw [Assignment.set_set]
        exact (hseen j hj k hk).le
    rw [takesBest_iff_constantAt hmass]
    refine ⟨.inr, ?_⟩
    rintro (hconstant | hconstant)
    · rw [funext hsplit]
      exact hseen.mul (hconstant.mul hother)
    · exact hconstant
  · obtain ⟨hconstant, hnonneg⟩ := hselect (isPassedOver d parents) hpassed
    refine iff_of_true ?_ (.inl hconstant)
    by_cases hmentions : t.mentions d
    · -- everything but the tables that bear on the decision is a nonnegative constant
      obtain ⟨-, hnonneg'⟩ := hselect (!·.mentions d) (by simp [hmentions])
      intro k hk hmass j hj
      have hle := (hbest.pos_iff _ (hset k hk)).mp hmass j hj
      rw [Assignment.set_set] at hle
      rw [hsplit, hsplit, hconstant j hj k hk, hother j hj k hk]
      exact mul_le_mul_of_nonneg_right hle (mul_nonneg (hnonneg k hk) (hnonneg' k hk))
    · obtain ⟨hseen, -⟩ := hselect (bearsOn d parents) (by simp [bearsOn, hmentions])
      have hall : ConstantAt d (weight ts) z := by
        rw [funext hsplit]
        exact hseen.mul (hconstant.mul hother)
      exact hall.takesBest

end Tables

namespace StepM

variable {w w₁ : Workspace ℚ} {s : Setting ℚ} {d : Variable} {rule : Factor ℚ}
  {before after : List Law} {u : Table ℚ}

theorem IsRuleFor.weight_eq (h : IsRuleFor sizes s d w w₁ rule)
    (hts : ∀ t ∈ w.tables, t.Fits sizes) {x : Assignment} (hx : x.Valid sizes) :
    Tables.weight w₁.tables x =
      Axes.sumOver (w.hidden s [] [] true) (Tables.weight w.tables) x := by
  rw [h.reaches.tables_eq]
  exact (Tables.weight_eliminateHidden hts s [] [] true).2.2 x hx

/-- **What a rule maximizes.**  In a pool of laws and one other table the rule of a decision takes
only best outcomes exactly if the tables passed over do not depend on the decision, or nothing
does. -/
theorem IsRuleFor.takesBest_iff (h : IsRuleFor sizes s d w w₁ rule)
    (htables : w.tables = Law.tables before ++ u :: Law.tables after)
    (hlaws : ∀ l ∈ before ++ after, l.Sound sizes rank)
    (hnodup : (Law.heads (before ++ after)).ids.Nodup) (hu : u.Fits sizes)
    (hhidden : ∀ id ∈ Axes.ids (w.hidden s [] [] true), id ∈ (Law.heads (before ++ after)).ids)
    (hlate : ∀ l ∈ before ++ after, rank d.id < rank l.head.id →
      l.head.id ∈ Axes.ids (w.hidden s [] [] true))
    (hd : d.id ∉ (Law.heads (before ++ after)).ids) (hsize : d.arity = sizes d.id)
    {z : Assignment} (hz : z.Valid sizes) :
    let value := Axes.sumOver (w.hidden s [] [] true) (Tables.weight w.tables)
    TakesBest d value rule.table.valueAt z ↔
      ConstantAt d (Tables.weight
        (w₁.tables.filter (Tables.isPassedOver d (s.dependencies.parents d)))) z ∨
        ConstantAt d value z := by
  have hset : ∀ k < d.arity, (z.set d k).Valid sizes := fun k hk => hz.set (by rwa [← hsize])
  obtain ⟨blocks, hblocks, hstart⟩ := Decomposes.start (fun l hl => (hlaws l hl).toNormal) hu
  rw [← htables] at hstart
  have hts : ∀ t ∈ w.tables, t.Fits sizes := by
    intro t ht
    rw [← hstart] at ht
    obtain ⟨b, hb, rfl⟩ := List.mem_map.mp ht
    exact (hblocks.sound b hb).fits
  let order := s.heuristic.order (w.hidden s [] [] true) w.pool
  have hperm : order.Perm (w.hidden s [] [] true) := s.heuristic.perm_order _ _
  have hids : ∀ id, id ∈ Axes.ids order ↔ id ∈ Axes.ids (w.hidden s [] [] true) := fun id =>
    (hperm.map _).mem_iff
  have hnodupOrder : (([] ++ order : Axes)).ids.Nodup :=
    (hperm.map _).nodup_iff.mpr Workspace.nodup_hidden
  obtain ⟨blocks', hblocks', htables'⟩ := hblocks.eliminateAll hnodupOrder
    (fun v hv => Workspace.sized_hidden hts v (hperm.mem_iff.mp hv))
    (by
      rw [hstart]
      exact fun id hid => Workspace.hidden_subset ((hids id).mp hid))
  rw [List.nil_append] at hblocks'
  obtain ⟨t, rest, hperm', hrest⟩ := hblocks'.exists_perm_cons hlaws hnodup
    (fun id hid => hhidden id ((hids id).mp hid))
    (fun l hl hlt => (hids _).mpr (hlate l hl hlt)) hd
  rw [htables', hstart] at hperm'
  have hbest := h.best
  have hweight : ∀ k < d.arity, Tables.weight w₁.tables (z.set d k) =
      Axes.sumOver (w.hidden s [] [] true) (Tables.weight w.tables) (z.set d k) := fun k hk =>
    h.weight_eq hts (hset k hk)
  intro value
  rw [← takesBest_congr hweight fun _ _ => rfl, ← constantAt_congr hweight]
  exact Tables.takesBest_iff hbest (by rwa [h.reaches.tables_eq]) hrest hsize hz

end StepM

end Influence
