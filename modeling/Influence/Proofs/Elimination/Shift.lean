import Influence.Proofs.Elimination.Laws
import Influence.Proofs.Elimination.Decision

/-! # Shifted variables

A run compares variables by their identities and asks for nothing else.  So if the same number is added
to all identities, then everything that is done with tables gives the same cells, for shifted axes:
what is eliminated (`Tables.eliminateAll_shift`), and what is found for a decision
(`Tables.decide_shift`). -/

namespace Influence

open scoped Exact

variable {α : Type} {k : VariableId}

/-- The variable whose identity is larger by `k`. -/
def Variable.shift (k : VariableId) (v : Variable) : Variable := { v with id := v.id + k }

namespace Variable

variable {v w : Variable}

@[simp] theorem id_shift (k : VariableId) (v : Variable) : (v.shift k).id = v.id + k := rfl

@[simp] theorem arity_shift (k : VariableId) (v : Variable) : (v.shift k).arity = v.arity := rfl

@[simp] theorem id_beq_shift (k : VariableId) (v w : Variable) :
    ((v.shift k).id == (w.shift k).id) = (v.id == w.id) := by
  rw [Bool.eq_iff_iff, beq_iff_eq, beq_iff_eq]
  exact UInt32.add_left_inj k

end Variable

/-! ### Axes -/

/-- The axes of shifted variables. -/
def Axes.shift (k : VariableId) (axes : Axes) : Axes := axes.map (Variable.shift k)

namespace Axes

variable {axes seen : Axes} {v : Variable} {id : VariableId}

@[simp] theorem shift_nil (k : VariableId) : shift k [] = [] := rfl

@[simp] theorem shift_cons (k : VariableId) (v : Variable) (axes : Axes) :
    shift k (v :: axes) = v.shift k :: axes.shift k := rfl

@[simp] theorem shift_append (k : VariableId) (a b : Axes) :
    shift k (a ++ b) = a.shift k ++ b.shift k := List.map_append

@[simp] theorem length_shift (k : VariableId) (axes : Axes) : (axes.shift k).length = axes.length :=
  List.length_map _

@[simp] theorem arities_shift (k : VariableId) (axes : Axes) : (axes.shift k).arities = axes.arities := by
  simp [arities, shift, Function.comp_def]

theorem ids_shift (k : VariableId) (axes : Axes) : (axes.shift k).ids = axes.ids.map (· + k) := by
  simp [ids, shift, Function.comp_def]

theorem mem_ids_shift : id ∈ (axes.shift k).ids ↔ id - k ∈ axes.ids := by
  rw [ids_shift, List.mem_map]
  constructor
  · rintro ⟨i, hi, rfl⟩
    rwa [UInt32.add_sub_cancel]
  · exact fun h => ⟨_, h, UInt32.sub_add_cancel _ _⟩

theorem add_mem_ids_shift : id + k ∈ (axes.shift k).ids ↔ id ∈ axes.ids := by
  rw [mem_ids_shift, UInt32.add_sub_cancel]

theorem nodup_ids_shift (h : axes.ids.Nodup) : (axes.shift k).ids.Nodup := by
  rw [ids_shift]
  exact h.map fun _ _ => (UInt32.add_left_inj k).mp

@[simp] theorem mentions_shift (k : VariableId) (axes : Axes) (v : Variable) :
    (axes.shift k).mentions (v.shift k) = axes.mentions v := by
  rw [mentions, shift, List.any_map]
  exact congrArg (axes.any ·) (funext fun w => Variable.id_beq_shift k w v)

@[simp] theorem count_shift (k : VariableId) (axes : Axes) : (axes.shift k).count = axes.count := by
  rw [count, count, arities_shift]

@[simp] theorem size_shift (k : VariableId) (axes : Axes) : (axes.shift k).size = axes.size := by
  rw [size, size, count_shift]

@[simp] theorem distances_shift (k : VariableId) (axes : Axes) : (axes.shift k).distances = axes.distances := by
  rw [distances, distances, arities_shift]

@[simp] theorem strideOf_shift (k : VariableId) (v : Variable) (axes : Axes) :
    (axes.shift k).strideOf (v.shift k) = axes.strideOf v := by
  induction axes with
  | nil => rfl
  | cons w axes ih => rw [shift_cons, strideOf, strideOf, Variable.id_beq_shift, count_shift, ih]

theorem without_shift (k : VariableId) (axes : Axes) (v : Variable) :
    (axes.shift k).without (v.shift k) = (axes.without v).shift k := by
  rw [without, without, shift, shift, List.eraseP_map]
  exact congrArg (fun p => (axes.eraseP p).map _) (funext fun w => Variable.id_beq_shift k w v)

theorem union_shift (k : VariableId) (seen axes : Axes) :
    union (seen.shift k) (axes.shift k) = (union seen axes).shift k := by
  induction axes generalizing seen with
  | nil => rfl
  | cons v axes ih =>
      rw [shift_cons, union, union, mentions_shift, ← ih]
      split
      · rfl
      · rw [shift_append, shift_cons, shift_nil]

/-- A test on shifted axes selects the shifts of what it selects before. -/
theorem filter_shift {p q : Variable → Bool} (h : ∀ v ∈ axes, q (v.shift k) = p v) :
    (axes.shift k).filter q = Axes.shift k (axes.filter p) := by
  rw [shift, List.filter_map]
  exact congrArg _ (List.filter_congr h)

end Axes

/-! ### Tables -/

/-- The table over shifted axes. -/
def Table.shift (k : VariableId) (t : Table α) : Table α := ⟨t.axes.shift k, t.cells⟩

namespace Table

variable {t : Table α} {sizes : VariableId → ℕ}

@[simp] theorem axes_shift (k : VariableId) (t : Table α) : (t.shift k).axes = t.axes.shift k := rfl

@[simp] theorem cells_shift (k : VariableId) (t : Table α) : (t.shift k).cells = t.cells := rfl

@[simp] theorem mentions_shift (k : VariableId) (t : Table α) (v : Variable) :
    (t.shift k).mentions (v.shift k) = t.mentions v := Axes.mentions_shift k t.axes v

/-- A shifted table is read at the outcomes of the variables before. -/
theorem valueAt_shift [Zero α] (k : VariableId) (t : Table α) (x : Assignment) :
    (t.shift k).valueAt x = t.valueAt fun id => x (id + k) := by
  have hon : x.on (t.axes.shift k) = Assignment.on (fun id => x (id + k)) t.axes := by
    simp [Assignment.on, Axes.shift, Function.comp_def]
  rw [valueAt, axes_shift, Axes.distances_shift, hon]
  rfl

theorem Fits.shift (h : t.Fits fun id => sizes (id + k)) : (t.shift k).Fits sizes where
  wellFormed := {
    nodup := Axes.nodup_ids_shift h.wellFormed.nodup
    arity_pos := fun v hv => by
      obtain ⟨w, hw, rfl⟩ := List.mem_map.mp hv
      exact h.wellFormed.arity_pos w hw
    size_cells := h.wellFormed.size_cells.trans (Axes.count_shift k t.axes).symm
    holds_cells := rfl }
  sized := fun v hv => by
    obtain ⟨w, hw, rfl⟩ := List.mem_map.mp hv
    exact h.sized w hw

theorem flatMap_axes_shift (k : VariableId) (ts : List (Table α)) :
    (ts.map (shift k)).flatMap (·.axes) = Axes.shift k (ts.flatMap (·.axes)) := by
  rw [List.flatMap_map, Axes.shift, List.map_flatMap]
  rfl

theorem ofTable_shift (k : VariableId) (axes : Axes) (t : Table α) :
    Projection.ofTable (axes.shift k) (t.shift k) = Projection.ofTable axes t := by
  rw [Projection.ofTable, Projection.ofTable, Axes.shift, List.map_map]
  exact congrArg (fun f => Projection.mk t.cells (axes.map f) 0)
    (funext fun v => Axes.strideOf_shift k v t.axes)

variable [Cell α]

/-- What is combined depends on the numbers of outcomes of the axes, not on the identities. -/
theorem combine_shift (k : VariableId) (op : Fold) (axes : Axes) (sources : List (Projection α)) :
    combine op (axes.shift k) sources = combine op axes sources := by
  have hwheels : Odometer.wheels (axes.shift k) sources = Odometer.wheels axes sources := by
    simp [Odometer.wheels, Axes.shift, List.zipIdx_map, Function.comp_def]
  rw [combine, combine, fillRange, fillRange, hwheels, Axes.size_shift, Axes.arities_shift]

theorem foldAll_shift (k : VariableId) (op : Fold) (ts : List (Table α)) :
    foldAll op (ts.map (shift k)) = (foldAll op ts).shift k := by
  let axesOf (ts : List (Table α)) : Axes := Axes.union [] (ts.flatMap (·.axes))
  have haxes : ∀ ts, axesOf (ts.map (shift k)) = (axesOf ts).shift k := fun ts => by
    simp only [axesOf, flatMap_axes_shift]
    exact Axes.union_shift k [] _
  have hcells : ∀ ts, combine op (axesOf (ts.map (shift k)))
      ((ts.map (shift k)).map (Projection.ofTable (axesOf (ts.map (shift k))))) =
        combine op (axesOf ts) (ts.map (Projection.ofTable (axesOf ts))) := fun ts => by
    rw [haxes, combine_shift, List.map_map]
    exact congrArg _ (List.map_congr_left fun t _ => ofTable_shift k (axesOf ts) t)
  match ts with
  | [t] => rfl
  | [] => exact congrArg₂ Table.mk (haxes []) (hcells [])
  | t :: u :: ts => exact congrArg₂ Table.mk (haxes (t :: u :: ts)) (hcells (t :: u :: ts))

theorem product_shift (k : VariableId) (ts : List (Table α)) :
    product (ts.map (shift k)) = (product ts).shift k := foldAll_shift k .product ts

/-- How a table is filled does not depend on the identities of its axes. -/
theorem table_shift (k : VariableId) (op : Fold) (axes : Axes) (sources : List (Projection α)) :
    (⟨op, axes.shift k, sources⟩ : Filling α).table =
      (⟨op, axes, sources⟩ : Filling α).table.shift k :=
  congrArg (Table.mk _) (combine_shift k op axes sources)

theorem sumOut_shift (k : VariableId) (t : Table α) (v : Variable) :
    (t.shift k).sumOut (v.shift k) = (t.sumOut v).shift k := by
  rw [sumOut, sumOut, summation, summation, ← table_shift]
  simp only [axes_shift, Axes.without_shift, ofTable_shift, Axes.strideOf_shift]
  rfl

theorem restrict_shift (k : VariableId) (t : Table α) (v : Variable) (j : ℕ) :
    (t.shift k).restrict (v.shift k) j = (t.restrict v j).shift k := by
  rw [restrict, restrict, restriction, restriction, ← table_shift]
  simp only [axes_shift, Axes.without_shift, ofTable_shift, Axes.strideOf_shift]

theorem rearrange_shift (k : VariableId) (t : Table α) (order : Axes) :
    (t.shift k).rearrange (order.shift k) = (t.rearrange order).shift k := by
  have hids : ((order.shift k).ids == (t.shift k).axes.ids) = (order.ids == t.axes.ids) := by
    rw [Bool.eq_iff_iff, beq_iff_eq, beq_iff_eq, axes_shift, Axes.ids_shift, Axes.ids_shift]
    exact (List.map_injective_iff.mpr fun _ _ => (UInt32.add_left_inj k).mp).eq_iff
  rw [rearrange, rearrange, hids, reordering, ofTable_shift, table_shift]
  split <;> rfl

theorem moveLast_shift (k : VariableId) (t : Table α) (v : Variable) :
    (t.shift k).moveLast (v.shift k) = (t.moveLast v).shift k := by
  rw [moveLast, moveLast, ← rearrange_shift, Axes.shift_append, ← Axes.without_shift]
  rfl

theorem rule_shift (k : VariableId) (t : Table α) (v : Variable) :
    (t.shift k).rule (v.shift k) = (t.rule v).map (shift k) := by
  simp only [rule, moveLast_shift]
  cases h : bestRows 0 (rows v.arity (t.moveLast v).cells) with
  | error state => simp only [cells_shift, Variable.arity_shift, h, Except.map]
  | ok cells =>
      simp only [cells_shift, Variable.arity_shift, h, Except.map]
      rfl

theorem normalizeFor_shift (k : VariableId) (t : Table α) (v : Variable) :
    (t.shift k).normalizeFor (v.shift k) = (t.normalizeFor v).shift k := by
  rw [normalizeFor, normalizeFor, moveLast_shift]
  rfl

theorem isConstantAlong_shift (k : VariableId) (t : Table α) (v : Variable) :
    (t.shift k).isConstantAlong (v.shift k) = t.isConstantAlong v := by
  simp only [isConstantAlong, restrict_shift]
  rfl

end Table

/-! ### Pools -/

namespace Tables

variable {ts : List (Table α)} {d v : Variable} {parents : List Variable} {s s' : Setting α}

theorem axes_map_shift (k : VariableId) (ts : List (Table α)) :
    axes (ts.map (Table.shift k)) = (axes ts).shift k := Table.flatMap_axes_shift k ts

/-- A test on shifted tables selects the shifts of what it selects before. -/
theorem filter_map_shift {p q : Table α → Bool} (h : ∀ t, q (t.shift k) = p t) (ts : List (Table α)) :
    (ts.map (Table.shift k)).filter q = (ts.filter p).map (Table.shift k) := by
  rw [List.filter_map]
  exact congrArg _ (List.filter_congr fun t _ => h t)

theorem bearsOn_shift (k : VariableId) (d : Variable) (parents : List Variable) (t : Table α) :
    bearsOn (d.shift k) (Axes.shift k parents) (t.shift k) = bearsOn d parents t := by
  have hempty : (Axes.shift k parents).isEmpty = parents.isEmpty := List.isEmpty_map
  have hany : (t.axes.shift k).any (Axes.mentions (Axes.shift k parents)) =
      t.axes.any (Axes.mentions parents) := by
    rw [Axes.shift, List.any_map]
    exact congrArg (t.axes.any ·) (funext fun v => Axes.mentions_shift k parents v)
  rw [bearsOn, bearsOn, Table.mentions_shift, hempty, Table.axes_shift, Axes.length_shift, hany]

theorem bearing_shift (h : s'.dependencies.parents (d.shift k) = Axes.shift k (s.dependencies.parents d))
    (ts : List (Table α)) :
    bearing s' (d.shift k) (ts.map (Table.shift k)) = (bearing s d ts).map (Table.shift k) := by
  rw [bearing, h]
  exact filter_map_shift (bearsOn_shift k d _) ts

variable [Cell α]

theorem eliminate_shift (k : VariableId) (v : Variable) (ts : List (Table α)) :
    eliminate (v.shift k) (ts.map (Table.shift k)) = (eliminate v ts).map (Table.shift k) := by
  have hmentions : ∀ t : Table α, (t.shift k).mentions (v.shift k) = t.mentions v := fun t =>
    Table.mentions_shift k t v
  have hany : (ts.map (Table.shift k)).any (·.mentions (v.shift k)) = ts.any (·.mentions v) := by
    rw [List.any_map]
    exact congrArg (ts.any ·) (funext hmentions)
  have htouched : (ts.map (Table.shift k)).filter (·.mentions (v.shift k)) =
      (ts.filter (·.mentions v)).map (Table.shift k) := filter_map_shift hmentions ts
  have hrest : (ts.map (Table.shift k)).filter (!·.mentions (v.shift k)) =
      (ts.filter (!·.mentions v)).map (Table.shift k) :=
    filter_map_shift (fun t => congrArg (!·) (hmentions t)) ts
  rw [eliminate, summand, hany, htouched, hrest, Table.product_shift, Table.sumOut_shift, eliminate,
    List.map_append]
  split <;> rfl

/-- **What is left by an elimination is shifted with the tables.** -/
theorem eliminateAll_shift (k : VariableId) (vars : Axes) (ts : List (Table α)) :
    eliminateAll (vars.shift k) (ts.map (Table.shift k)) =
      (eliminateAll vars ts).map (Table.shift k) := by
  induction vars generalizing ts with
  | nil => rfl
  | cons v vars ih => rw [Axes.shift_cons, eliminateAll_cons, eliminateAll_cons, eliminate_shift, ih]

theorem dropAxis_shift (k : VariableId) (p : Table α × Table α) (v : Variable) :
    dropAxis (p.1.shift k, p.2.shift k) (v.shift k) =
      ((dropAxis p v).1.shift k, (dropAxis p v).2.shift k) := by
  rw [dropAxis, dropAxis, Table.isConstantAlong_shift, Table.restrict_shift, Table.restrict_shift]
  split <;> rfl

theorem dropUnobserved_shift
    (h : s'.dependencies.parents (d.shift k) = Axes.shift k (s.dependencies.parents d))
    (p : Table α × Table α) :
    dropUnobserved s' (d.shift k) (p.1.shift k, p.2.shift k) =
      ((dropUnobserved s d p).1.shift k, (dropUnobserved s d p).2.shift k) := by
  have hfoldl : ∀ (vars : Axes) (p : Table α × Table α),
      (vars.shift k).foldl dropAxis (p.1.shift k, p.2.shift k) =
        ((vars.foldl dropAxis p).1.shift k, (vars.foldl dropAxis p).2.shift k) := by
    intro vars
    induction vars with
    | nil => exact fun _ => rfl
    | cons v vars ih =>
        intro p
        rw [Axes.shift_cons, List.foldl_cons, List.foldl_cons, dropAxis_shift, ih]
  have hunobserved : unobserved s' (d.shift k) (p.2.shift k) = (unobserved s d p.2).shift k := by
    rw [unobserved, h]
    refine Axes.filter_shift fun v _ => ?_
    rw [← Axes.shift_cons, Axes.mentions_shift]
  rw [dropUnobserved, hunobserved, hfoldl]
  rfl

/-- **What is found for a decision is shifted with the tables.** -/
theorem decide_shift (h : s'.dependencies.parents (d.shift k) = Axes.shift k (s.dependencies.parents d))
    {p : Table α × Table α} (hdecide : decide s d ts = .ok p) :
    decide s' (d.shift k) (ts.map (Table.shift k)) = .ok (p.1.shift k, p.2.shift k) := by
  unfold decide at hdecide ⊢
  rw [bearing_shift h, List.isEmpty_map, Table.product_shift, Table.rule_shift]
  split at hdecide
  · cases hdecide
  next hne =>
    rw [if_neg hne]
    split at hdecide
    · cases hdecide
    next rule hrule =>
      obtain rfl := Except.ok.inj hdecide
      rw [hrule]
      exact congrArg Except.ok (dropUnobserved_shift h (.product (bearing s d ts), rule))

end Tables

/-! ### Laws -/

/-- The law of a shifted variable. -/
def Law.shift (k : VariableId) (l : Law) : Law := ⟨l.head.shift k, l.table.shift k⟩

namespace Law

theorem tables_map_shift (k : VariableId) (laws : List Law) :
    tables (laws.map (shift k)) = (tables laws).map (Table.shift k) := by
  rw [tables, tables, List.map_map, List.map_map]
  rfl

theorem heads_map_shift (k : VariableId) (laws : List Law) :
    heads (laws.map (shift k)) = (heads laws).shift k := by
  rw [heads, heads, Axes.shift, List.map_map, List.map_map]
  rfl

end Law

end Influence
