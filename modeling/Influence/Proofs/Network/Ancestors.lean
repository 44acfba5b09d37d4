import Influence.Proofs.DecisionQueue
import Influence.Proofs.Network.Structure

/-! # Decisions and their ancestors

A decision can depend on an earlier one without observing it: it may observe a chance variable that
the earlier one influences.  The order in which decisions are made looks only at the decisions among
the parents of each decision, so it can take the two in either order.

`decisionOrder_of_isAncestor`: there is always an order.  A chain of decisions, each a parent of the
next, stands in it in this order.  Any other ancestor of a decision comes before it exactly if the
ancestor is ready no later, that is, if no parent of the ancestor comes after all decisions among the
parents of the other. -/

namespace Influence

/-- The place of a decision in the order of a setting. -/
def Setting.place {α : Type} (s : Setting α) (m : Node) : ℕ :=
  (Axes.ids s.decisionOrder).idxOf m.handle.id

namespace Network

variable {α : Type} {n : Network α} {s : Setting α} {a b m : Node}

/-- The first node is a parent of the second. -/
def IsParent (n : Network α) (a b : Node) : Prop :=
  a ∈ n.nodes ∧ b ∈ n.nodes ∧ a.handle ∈ n.parentHandles b

/-- A chain of parents leads from the first node to the second. -/
def IsAncestor (n : Network α) : Node → Node → Prop := Relation.TransGen n.IsParent

/-- The first node is a decision that the second, a decision as well, observes. -/
def IsObserved (n : Network α) (a b : Node) : Prop :=
  n.IsParent a b ∧ a.kind = .decision ∧ b.kind = .decision

namespace Compiled

variable [Build] (hn : n.Compiled)

include hn

theorem exists_setting : ∃ s, n.setting = .ok s := by
  obtain ⟨order, horder⟩ := Dependencies.exists_decisionOrder hn.nodup_decisions n.rank
    fun d hd v hv => by
      obtain ⟨m, hm, hkind, rfl⟩ := hn.mem_decisions.mp hd
      rw [hn.parents_handle hm hkind] at hv
      exact hn.rank_lt hm hv
  exact ⟨_, by rw [setting, Setting.ofDependencies, horder, Except.map]⟩

theorem rank_lt_of_isAncestor (h : n.IsAncestor a b) : n.rank a.handle.id < n.rank b.handle.id := by
  induction h with
  | single hparent => exact hn.rank_lt hparent.2.1 hparent.2.2
  | tail _ hparent ih => exact ih.trans (hn.rank_lt hparent.2.1 hparent.2.2)

theorem pairwise_rank_orderedNodes :
    n.orderedNodes.Pairwise fun a b => n.rank a.handle.id < n.rank b.handle.id := by
  have hnodup : n.order.Nodup := hn.perm.nodup_iff.mpr List.nodup_range
  refine List.Pairwise.filterMap _ (fun i j hij a ha b hb => ?_)
    (List.pairwise_iff_getElem.mpr fun i j hi hj hij => ?_ :
      n.order.Pairwise fun i j => n.order.idxOf i < n.order.idxOf j)
  · rwa [hn.rank_handle ha, hn.rank_handle hb]
  · rwa [hnodup.idxOf_getElem, hnodup.idxOf_getElem]

theorem idxOf_decisions_lt (ha : a ∈ n.nodes) (hb : b ∈ n.nodes) (hkind : a.kind = .decision)
    (hkind' : b.kind = .decision) (h : n.rank a.handle.id < n.rank b.handle.id) :
    (Axes.ids n.dependencies.decisions).idxOf a.handle.id <
      (Axes.ids n.dependencies.decisions).idxOf b.handle.id := by
  refine (Dependencies.idxOf_ids_lt_iff (R := fun d e => n.rank d.id < n.rank e.id)
    hn.nodup_decisions ?_ (fun _ _ => Nat.lt_asymm) ?_ ?_).mpr h
  · rw [Dependencies.decisions, hn.entries_dependencies, List.map_map]
    exact (hn.pairwise_rank_orderedNodes.sublist List.filter_sublist).map _ fun _ _ h => h
  · exact hn.mem_decisions.mpr ⟨a, ha, hkind, rfl⟩
  · exact hn.mem_decisions.mpr ⟨b, hb, hkind', rfl⟩

theorem exists_isObserved_iff (hb : b ∈ n.nodes) (hkind : b.kind = .decision) {v : Variable} :
    (v ∈ n.dependencies.parents b.handle ∧ v.id ∈ Axes.ids n.dependencies.decisions) ↔
      ∃ a, n.IsObserved a b ∧ a.handle = v := by
  rw [hn.parents_handle hb hkind]
  constructor
  · rintro ⟨hv, hid⟩
    obtain ⟨a, ha, -, rfl⟩ := (mem_handlesOf hn.declared.names).mp hv
    obtain ⟨d, hd, hid⟩ := Axes.mem_ids.mp hid
    obtain ⟨a', ha', hkind', rfl⟩ := hn.mem_decisions.mp hd
    obtain rfl := hn.eq_of_id ha' ha hid
    exact ⟨a', ⟨⟨ha, hb, hv⟩, hkind', hkind⟩, rfl⟩
  · rintro ⟨a, ⟨⟨ha, -, hparent⟩, hkind', -⟩, rfl⟩
    exact ⟨hparent, Axes.mem_ids_of_mem (hn.mem_decisions.mpr ⟨a, ha, hkind', rfl⟩)⟩

theorem place_lt_of_isObserved (hs : n.setting = .ok s) (h : n.IsObserved a b) :
    s.place a < s.place b := by
  obtain ⟨horder, -, -⟩ := setting_eq_ok hs
  obtain ⟨hperm, hafter⟩ := Dependencies.decisionOrder_sound hn.nodup_decisions horder
  have hb := hn.mem_decisions.mpr ⟨b, h.1.2.1, h.2.2, rfl⟩
  obtain ⟨before, after, hsplit⟩ := List.append_of_mem (hperm.mem_iff.mpr hb)
  obtain ⟨hparent, hid⟩ := (hn.exists_isObserved_iff h.1.2.1 h.2.2).mpr ⟨a, h, rfl⟩
  have hbefore := hafter before b.handle after hsplit a.handle hparent hid
  exact Dependencies.idxOf_lt_of_eq_append
    ((hperm.map Variable.id).nodup_iff.mpr hn.nodup_decisions)
    (by rw [hsplit, Axes.ids_append, Axes.ids_cons]) hbefore

/-- An ancestor comes first exactly if it is ready no later. -/
theorem place_lt_iff_of_isAncestor (hs : n.setting = .ok s) (hkind : a.kind = .decision)
    (hkind' : b.kind = .decision) (ha : a ∈ n.nodes) (hb : b ∈ n.nodes) (h : n.IsAncestor a b) :
    s.place a < s.place b ↔
      ∀ p, n.IsObserved p a → ∃ q, n.IsObserved q b ∧ s.place p ≤ s.place q := by
  obtain ⟨horder, -, -⟩ := setting_eq_ok hs
  obtain ⟨hperm, -⟩ := Dependencies.decisionOrder_sound hn.nodup_decisions horder
  have hmem : ∀ m ∈ n.nodes, m.kind = .decision → m.handle ∈ s.decisionOrder := fun m hm hkind =>
    hperm.mem_iff.mpr (hn.mem_decisions.mpr ⟨m, hm, hkind, rfl⟩)
  have hposition := hn.idxOf_decisions_lt ha hb hkind hkind' (hn.rank_lt_of_isAncestor h)
  have hready : n.dependencies.Precedes s.decisionOrder a.handle b.handle ↔
      n.dependencies.readyAt s.decisionOrder (n.dependencies.parents a.handle) ≤
        n.dependencies.readyAt s.decisionOrder (n.dependencies.parents b.handle) := by
    unfold Dependencies.Precedes
    omega
  rw [Setting.place, Setting.place, Dependencies.idxOf_lt_iff_precedes hn.nodup_decisions horder
    (hmem a ha hkind) (hmem b hb hkind'), hready, Dependencies.readyAt_le_readyAt_iff]
  constructor
  · intro hall p hp
    obtain ⟨hparent, hid⟩ := (hn.exists_isObserved_iff ha hkind).mpr ⟨p, hp, rfl⟩
    obtain ⟨u, hu, huid, hle⟩ := hall p.handle hparent hid
    obtain ⟨q, hq, rfl⟩ := (hn.exists_isObserved_iff hb hkind').mp ⟨hu, huid⟩
    exact ⟨q, hq, hle⟩
  · intro hall v hv hid
    obtain ⟨p, hp, rfl⟩ := (hn.exists_isObserved_iff ha hkind).mp ⟨hv, hid⟩
    obtain ⟨q, hq, hle⟩ := hall p hp
    obtain ⟨hparent, hid'⟩ := (hn.exists_isObserved_iff hb hkind').mpr ⟨q, hq, rfl⟩
    exact ⟨q.handle, hparent, hid', hle⟩

end Compiled

theorem IsAncestor.mem (h : n.IsAncestor a b) : a ∈ n.nodes ∧ b ∈ n.nodes := by
  induction h with
  | single hparent => exact ⟨hparent.1, hparent.2.1⟩
  | tail _ hparent ih => exact ⟨ih.1, hparent.2.1⟩

/-- **The order of the decisions.**  It always exists.  Observed decisions come first, and so does
any other ancestor of a decision exactly if it is ready no later. -/
theorem decisionOrder_of_isAncestor [Build] [Cell α] {definition : Definition α} {config : Config α}
    (h : compile definition config = .ok n) :
    ∃ s, n.setting = .ok s ∧ s.decisionOrder.Perm n.dependencies.decisions ∧
      (∀ a b, Relation.TransGen n.IsObserved a b → s.place a < s.place b) ∧
      ∀ a b, a.kind = .decision → b.kind = .decision → n.IsAncestor a b →
        (s.place a < s.place b ↔
          ∀ p, n.IsObserved p a → ∃ q, n.IsObserved q b ∧ s.place p ≤ s.place q) := by
  have hn := (compiled_of_compile h).1
  obtain ⟨s, hs⟩ := hn.exists_setting
  obtain ⟨horder, -, -⟩ := setting_eq_ok hs
  refine ⟨s, hs, (Dependencies.decisionOrder_sound hn.nodup_decisions horder).1, ?_, ?_⟩
  · intro a b hab
    induction hab with
    | single hobserved => exact hn.place_lt_of_isObserved hs hobserved
    | tail _ hobserved ih => exact ih.trans (hn.place_lt_of_isObserved hs hobserved)
  · exact fun a b hkind hkind' hab =>
      hn.place_lt_iff_of_isAncestor hs hkind hkind' hab.mem.1 hab.mem.2 hab

/-- The second decision observes a signal of the first, and the first observes a gate. -/
def detour : Definition ℚ where
  declarations := [⟨"gate", "decision", ["open", "shut"]⟩, ⟨"first", "decision", ["left", "right"]⟩,
    ⟨"signal", "chance", ["low", "high"]⟩, ⟨"second", "decision", ["left", "right"]⟩,
    ⟨"payoff", "utility", []⟩]
  entries := [⟨"gate", [], none⟩, ⟨"first", ["gate"], none⟩,
    ⟨"signal", ["first"], some [1 / 2, 1 / 2, 1 / 2, 1 / 2]⟩, ⟨"second", ["signal"], none⟩,
    ⟨"payoff", ["gate", "first", "signal", "second"], some (List.replicate 16 0)⟩]

theorem exists_detour : ∃ n a b, compile detour {} = .ok n ∧ a.kind = .decision ∧
    b.kind = .decision ∧ n.IsAncestor a b ∧ ∃ s, n.setting = .ok s ∧ s.place b < s.place a := by
  obtain ⟨n, hcompile, h⟩ := exists_ok_of_toOption (x := compile detour {})
    (P := fun n => ∃ a ∈ n.nodes[1]?, ∃ c ∈ n.nodes[2]?, ∃ b ∈ n.nodes[3]?,
      a.kind = .decision ∧ b.kind = .decision ∧ a.handle ∈ n.parentHandles c ∧
        c.handle ∈ n.parentHandles b ∧ ∃ s ∈ n.setting.toOption, s.place b < s.place a)
    (by decide +kernel)
  obtain ⟨a, ha, c, hc, b, hb, hkind, hkind', hac, hcb, h⟩ := h
  have ha := List.mem_of_getElem? ha
  have hc := List.mem_of_getElem? hc
  have hb := List.mem_of_getElem? hb
  exact ⟨n, a, b, hcompile, hkind, hkind', .tail (.single ⟨ha, hc, hac⟩) ⟨hc, hb, hcb⟩,
    exists_ok_of_toOption h⟩

/-- The first decision is not ready when the second one is, and so it comes after it. -/
theorem decisionOrder_of_isAncestor_detour : ∃ n s a b, compile detour {} = .ok n ∧
    n.setting = .ok s ∧ a.kind = .decision ∧ b.kind = .decision ∧ n.IsAncestor a b ∧
      ∃ p, n.IsObserved p a ∧ ∀ q, n.IsObserved q b → s.place q < s.place p := by
  obtain ⟨n, a, b, hcompile, hkind, hkind', hab, s', hs', hlt⟩ := exists_detour
  obtain ⟨s, hs, -, -, hiff⟩ := decisionOrder_of_isAncestor hcompile
  obtain rfl : s = s' := Except.ok.inj (hs.symm.trans hs')
  have hnot := mt (hiff a b hkind hkind' hab).mpr (Nat.lt_asymm hlt)
  simp only [not_forall, not_exists, not_and, not_le, exists_prop] at hnot
  exact ⟨n, s, a, b, hcompile, hs, hkind, hkind', hab, hnot⟩

/-- A decision can come before one of its ancestors. -/
theorem exists_isAncestor_place_lt : ∃ n s a b, compile detour {} = .ok n ∧ n.setting = .ok s ∧
    a.kind = .decision ∧ b.kind = .decision ∧ n.IsAncestor a b ∧ s.place b < s.place a := by
  obtain ⟨n, a, b, hcompile, hkind, hkind', hab, s, hs, hlt⟩ := exists_detour
  exact ⟨n, s, a, b, hcompile, hs, hkind, hkind', hab, hlt⟩

end Network

end Influence
