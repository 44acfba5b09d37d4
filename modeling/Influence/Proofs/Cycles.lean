import Influence.Proofs.Precedence

/-! # Orders and cycles

A search for an order ends after at most as many steps as there are nodes, and what it has then placed
tells whether the graph has a cycle (`order_decides_cycles`).

A step of the search strikes all entries of a node at once.  `advanceEach?` strikes them one at a time,
each from a counter that has to be positive, and lets a child join the queue when its counter comes down
to zero.  It never fails on a state that the search reaches, and does the same as the step
(`Settled.advanceEach?_eq`). -/

namespace Influence.Precedence

variable {parents : List (List ℕ)} {p : Progress} {node : ℕ}

/-! ### One entry at a time -/

/-- The children of a node in ascending order, each as often as it lists the node. -/
def children (parents : List (List ℕ)) (node : ℕ) : List ℕ :=
  parents.zipIdx.flatMap fun (list, i) => List.replicate (list.count node) i

/-- Strikes one entry for each of some children, and appends to `unlocked` the children whose counters
come down to zero.  It fails at a counter that is zero already. -/
def strikeEach? : List ℕ → List ℕ → List ℕ → Option (List ℕ × List ℕ)
  | [], pending, unlocked => some (pending, unlocked)
  | child :: rest, pending, unlocked =>
    match pending[child]? with
    | some (count + 1) =>
      strikeEach? rest (pending.set child count) (if count = 0 then unlocked ++ [child] else unlocked)
    | _ => none

/-- Places the first node of the queue and strikes its entries one at a time. -/
def advanceEach? (parents : List (List ℕ)) (p : Progress) : Option Progress :=
  match p.ready with
  | [] => some p
  | node :: rest =>
    (strikeEach? (children parents node) p.pending []).map fun (pending, unlocked) =>
      ⟨pending, rest ++ unlocked, p.placed ++ [node]⟩

/-- Some entries of the child that comes after `before` are struck. -/
theorem strikeEach?_replicate {k count : ℕ} (h : k ≤ count) (before after rest unlocked : List ℕ) :
    strikeEach? (List.replicate k before.length ++ rest) (before ++ count :: after) unlocked =
      strikeEach? rest (before ++ (count - k) :: after)
        (if 0 < k ∧ k = count then unlocked ++ [before.length] else unlocked) := by
  induction k generalizing count unlocked with
  | zero => simp
  | succ k ih =>
      obtain ⟨count, rfl⟩ : ∃ c, count = c + 1 := ⟨count - 1, by omega⟩
      have hget : (before ++ (count + 1) :: after)[before.length]? = some (count + 1) := by simp
      have hset : (before ++ (count + 1) :: after).set before.length count =
          before ++ count :: after := by simp
      rw [List.replicate_succ, List.cons_append, strikeEach?, hget]
      dsimp only
      rw [hset, ih (by omega), Nat.add_sub_add_right]
      by_cases hzero : count = 0
      · simp [hzero, show k = 0 by omega]
      · by_cases hk : k = count
        · subst hk
          simp [hzero, Nat.pos_of_ne_zero hzero]
        · simp [hzero, hk]

/-- If no counter is smaller than the number of entries to be struck from it, striking them one at a
time comes to the same as striking all at once. -/
theorem strikeEach?_children {ls : List (List ℕ)} {pending : List ℕ}
    (h : List.Forall₂ (fun list count => list.count node ≤ count) ls pending)
    (before unlocked : List ℕ) :
    strikeEach? ((ls.zipIdx before.length).flatMap fun (list, i) => List.replicate (list.count node) i)
        (before ++ pending) unlocked =
      some (before ++ strike ls node pending, unlocked ++
        (((ls.zip (strike ls node pending)).zipIdx before.length).filter fun ((list, count), _) =>
          count == 0 && list.contains node).map (·.2)) := by
  induction h generalizing before unlocked with
  | nil => simp [strikeEach?, strike]
  | @cons list count ls pending hcount _ ih =>
      have hnext := ih (before ++ [count - list.count node])
        (if 0 < list.count node ∧ list.count node = count then unlocked ++ [before.length] else unlocked)
      rw [List.length_append, List.length_singleton, List.append_assoc, List.singleton_append] at hnext
      rw [List.zipIdx_cons, List.flatMap_cons, strikeEach?_replicate hcount, hnext]
      have hstrike : strike (list :: ls) node (count :: pending) =
          (count - list.count node) :: strike ls node pending := rfl
      have hlast : (0 < list.count node ∧ list.count node = count) ↔
          (count - list.count node == 0 && list.contains node) = true := by
        simp [← List.count_pos_iff]
        omega
      rw [hstrike, List.zip_cons_cons, List.zipIdx_cons, List.filter_cons]
      simp only [hlast]
      split <;> simp

theorem Settled.count_le (h : Settled parents p) (hnode : node ∉ p.placed) {i : ℕ}
    (hi : i < parents.length) : (parents.getD i []).count node ≤ p.pending.getD i 0 := by
  rw [h.pending i hi, ← countP_notMem_append hnode]
  exact Nat.le_add_left _ _

/-- No entry is struck from a counter that is zero. -/
theorem Settled.advanceEach?_eq (h : Settled parents p) :
    advanceEach? parents p = some (advance parents p) := by
  unfold advanceEach? advance
  cases hready : p.ready with
  | nil => rfl
  | cons node rest =>
      have hnode : node ∉ p.placed := fun hmem =>
        (List.nodup_append.mp h.nodup).2.2 node hmem node (by simp [hready]) rfl
      have hcounts : List.Forall₂ (fun list count => list.count node ≤ count) parents p.pending := by
        refine List.forall₂_iff_get.mpr ⟨h.length.symm, fun i hi hi' => ?_⟩
        have hle := h.count_le hnode hi
        rwa [List.getD_eq_getElem _ _ hi, List.getD_eq_getElem _ _ hi'] at hle
      have hstrike := strikeEach?_children hcounts [] []
      simp only [List.nil_append, List.length_nil] at hstrike
      dsimp only
      rw [show children parents node = parents.zipIdx.flatMap fun (list, i) =>
        List.replicate (list.count node) i from rfl, hstrike]
      rfl

/-! ### The end of the search -/

theorem advance_advanceBy (parents : List (List ℕ)) (n : ℕ) (p : Progress) :
    advance parents (advanceBy parents n p) = advanceBy parents (n + 1) p := by
  induction n generalizing p with
  | zero => rfl
  | succ n ih => exact ih (advance parents p)

/-- No node joins the queue twice, so it is empty after as many steps as there are nodes. -/
theorem ready_advanceBy {n : ℕ} (hn : parents.length ≤ n) :
    (advanceBy parents n (start parents)).ready = [] := by
  have hsettled := settled_advanceBy n (settled_start parents)
  rcases length_placed_advanceBy n (start parents) with hlength | hready
  · have hsub : List.Subperm _ (List.range parents.length) := hsettled.nodup.subperm fun i hi =>
      List.mem_range.mpr (hsettled.lt i hi)
    have hle := hsub.length_le
    rw [List.length_append, hlength, List.length_range] at hle
    exact List.length_eq_zero_iff.mp (by omega)
  · exact hready

/-! ### Cycles -/

/-- Some node can be reached from itself along the parents. -/
def HasCycle (parents : List (List ℕ)) : Prop := ∃ i, Relation.TransGen (IsParent parents) i i

theorem order_of_outOfRange {i q : ℕ} (hq : IsParent parents q i) (hrange : parents.length ≤ q) :
    ∃ i q, IsParent parents q i ∧ parents.length ≤ q ∧
      order parents = .error (.parentRange q parents.length) := by
  unfold order
  cases hfind : outOfRange? parents with
  | none => exact absurd (outOfRange?_eq_none_iff.mp hfind i q hq) (by omega)
  | some q =>
      obtain ⟨list, hlist, hmem⟩ := List.mem_flatten.mp (List.mem_of_find?_eq_some hfind)
      obtain ⟨i, hi, rfl⟩ := List.getElem_of_mem hlist
      refine ⟨i, q, ?_, by simpa using List.find?_some hfind, rfl⟩
      rwa [IsParent, List.getD_eq_getElem _ _ hi]

theorem order_eq_error_cyclicGraph (hrange : ∀ i q, IsParent parents q i → q < parents.length)
    (hnone : ¬∃ nodes, order parents = .ok nodes) : order parents = .error .cyclicGraph := by
  unfold order at hnone ⊢
  rw [outOfRange?_eq_none_iff.mpr hrange] at hnone ⊢
  dsimp only at hnone ⊢
  split
  next hlength => exact absurd ⟨_, if_pos hlength⟩ hnone
  next => rfl

theorem not_hasCycle_of_order {nodes : List ℕ} (h : order parents = .ok nodes) :
    ¬HasCycle parents := by
  obtain ⟨hperm, hrespects⟩ := order_sound h
  rintro ⟨i, hcycle⟩
  have hmem : ∀ a b, IsParent parents a b → b ∈ nodes := by
    intro a b hab
    rw [hperm.mem_iff, List.mem_range]
    by_contra hb
    rw [IsParent, List.getD_eq_default _ _ (Nat.le_of_not_lt hb)] at hab
    exact List.not_mem_nil hab
  exact acyclic_of_idxOf_lt (fun a b hab => hrespects b a hab (hmem a b hab)) i hcycle

theorem exists_order_iff (hrange : ∀ i q, IsParent parents q i → q < parents.length) :
    (∃ nodes, order parents = .ok nodes) ↔ ¬HasCycle parents :=
  ⟨fun ⟨_, h⟩ => not_hasCycle_of_order h, fun h => exists_order hrange fun i hi => h ⟨i, hi⟩⟩

theorem order_eq_error_cyclicGraph_iff (hrange : ∀ i q, IsParent parents q i → q < parents.length) :
    order parents = .error .cyclicGraph ↔ HasCycle parents := by
  constructor
  · intro herror
    by_contra hcycle
    obtain ⟨nodes, hnodes⟩ := (exists_order_iff hrange).mpr hcycle
    cases hnodes.symm.trans herror
  · exact fun hcycle => order_eq_error_cyclicGraph hrange fun ⟨_, h⟩ => not_hasCycle_of_order h hcycle

/-- **The search decides whether there is a cycle.**  A parent that is not a node is an internal error.
Otherwise there is an order exactly if there is no cycle, and it lists every node once and after its
parents; a cycle is reported.  After as many steps as there are nodes the queue is empty and the search
stands still, and no step strikes an entry from a counter that is zero. -/
theorem order_decides_cycles (parents : List (List ℕ)) :
    ((∃ i q, IsParent parents q i ∧ parents.length ≤ q) →
      ∃ e, order parents = .error e ∧ e.family = .internal ∧
        ∃ i q, IsParent parents q i ∧ parents.length ≤ q ∧ e = .parentRange q parents.length) ∧
    ((∀ i q, IsParent parents q i → q < parents.length) →
      ((∃ nodes, order parents = .ok nodes) ↔ ¬HasCycle parents) ∧
      (order parents = .error .cyclicGraph ↔ HasCycle parents) ∧
      ∀ nodes, order parents = .ok nodes →
        nodes.Perm (List.range parents.length) ∧ Respects parents nodes) ∧
    (∀ n, parents.length ≤ n → (advanceBy parents n (start parents)).ready = [] ∧
      advanceBy parents n (start parents) = advanceBy parents parents.length (start parents)) ∧
    ∀ n, advanceEach? parents (advanceBy parents n (start parents)) =
      some (advanceBy parents (n + 1) (start parents)) := by
  refine ⟨?_, fun hrange => ⟨exists_order_iff hrange, order_eq_error_cyclicGraph_iff hrange,
    fun _ => order_sound⟩, fun n hn => ⟨ready_advanceBy hn, ?_⟩, fun n => ?_⟩
  · rintro ⟨i, q, hq, hrange⟩
    obtain ⟨i, q, hq, hrange, herror⟩ := order_of_outOfRange hq hrange
    exact ⟨_, herror, rfl, i, q, hq, hrange, rfl⟩
  · obtain ⟨k, rfl⟩ := Nat.exists_eq_add_of_le hn
    induction k with
    | zero => rfl
    | succ k ih =>
        rw [← Nat.add_assoc, ← advance_advanceBy, ih (Nat.le_add_right _ _)]
        exact advance_of_ready_nil (ready_advanceBy (Nat.le_refl _))
  · rw [(settled_advanceBy n (settled_start parents)).advanceEach?_eq, advance_advanceBy]

/-- A parent out of range, a node that is its own parent, and a node that lists another one twice. -/
theorem order_decides_cycles_of_three :
    (∃ e, order [[], [2]] = .error e ∧ e.family = .internal) ∧
    (order [[0], []] = .error .cyclicGraph ∧ HasCycle [[0], []]) ∧
    (∃ nodes, order [[2], [0, 0], []] = .ok nodes ∧ nodes.Perm [0, 1, 2] ∧
      Respects [[2], [0, 0], []] nodes) ∧ ¬HasCycle [[2], [0, 0], []] := by
  have hrange : ∀ parents : List (List ℕ), (∀ list ∈ parents, ∀ q ∈ list, q < parents.length) →
      ∀ i q, IsParent parents q i → q < parents.length := fun parents h =>
    outOfRange?_eq_none_iff.mp (by simpa [outOfRange?] using h)
  obtain ⟨e, herror, hinternal, -⟩ :=
    (order_decides_cycles [[], [2]]).1 ⟨1, 2, by simp [IsParent], by simp⟩
  obtain ⟨-, hself, -⟩ := order_decides_cycles [[0], []]
  obtain ⟨-, htwice, -⟩ := order_decides_cycles [[2], [0, 0], []]
  obtain ⟨-, hcyclic, -⟩ := hself (hrange _ (by decide))
  obtain ⟨hacyclic, -, hsound⟩ := htwice (hrange _ (by decide))
  have hok : order [[2], [0, 0], []] = .ok [2, 0, 1] := rfl
  exact ⟨⟨e, herror, hinternal⟩, ⟨rfl, hcyclic.mp rfl⟩, ⟨_, hok, hsound _ hok⟩,
    hacyclic.mp ⟨_, hok⟩⟩

end Influence.Precedence
