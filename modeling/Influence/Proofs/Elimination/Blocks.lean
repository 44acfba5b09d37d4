import Influence.Proofs.Elimination.Laws

/-! # Blocks of an elimination

Every table that an elimination leaves is made of some of the tables at its start: it is their
product, summed over the variables that were eliminated from it.  A `Block` records this.  Its
sources are laws and other tables.

A run keeps the blocks separate, so no variable summed out of one occurs in the sources of another
(`Decomposes.eliminateAll`).  What is made of laws alone is therefore a sum over all those of their
heads that were eliminated, and does not depend on a variable before them
(`Decomposes.exists_perm_cons`). -/

namespace Influence

open scoped Exact

/-- A table with the tables that it is made of. -/
structure Block where
  laws : List Law
  others : List (Table ℚ)
  /-- The variables summed out of the product of the sources. -/
  summed : Axes
  table : Table ℚ

namespace Block

variable {sizes : VariableId → ℕ} {b c : Block} {blocks : List Block} {v : Variable}
  {x : Assignment}

/-- The tables that a block is made of. -/
def sources (b : Block) : List (Table ℚ) := Law.tables b.laws ++ b.others

/-- The table is the product of the sources, summed over some of their variables. -/
structure Sound (sizes : VariableId → ℕ) (b : Block) : Prop where
  fits : b.table.Fits sizes
  sized : b.summed.Sized sizes
  nodup : b.summed.ids.Nodup
  subset : b.summed.ids ⊆ (Tables.axes b.sources).ids
  ids : ∀ id, id ∈ b.table.axes.ids ↔ id ∈ (Tables.axes b.sources).ids ∧ id ∉ b.summed.ids
  value : ∀ x : Assignment, x.Valid sizes →
    b.table.valueAt x = Axes.sumOver b.summed (Tables.weight b.sources) x

/-- No variable summed out of one block occurs in the sources of the other. -/
structure Separate (b c : Block) : Prop where
  left : ∀ id ∈ b.summed.ids, id ∉ (Tables.axes c.sources).ids
  right : ∀ id ∈ c.summed.ids, id ∉ (Tables.axes b.sources).ids

instance : Std.Symm Separate := ⟨fun _ _ h => ⟨h.right, h.left⟩⟩

/-- The block of a law. -/
def ofLaw (l : Law) : Block := ⟨[l], [], [], l.table⟩

/-- The block of another table. -/
def ofTable (t : Table ℚ) : Block := ⟨[], [t], [], t⟩

/-- The block of the product of some tables with a variable summed out. -/
def merge (v : Variable) (blocks : List Block) : Block :=
  ⟨blocks.flatMap (·.laws), blocks.flatMap (·.others), v :: blocks.flatMap (·.summed),
    (Table.product (blocks.map (·.table))).sumOut v⟩

theorem sound_single {t : Table ℚ} (ht : t.Fits sizes) (htable : b.table = t)
    (hsources : b.sources = [t]) (hsummed : b.summed = []) : b.Sound sizes := by
  constructor
  case fits => rwa [htable]
  case sized => simp [hsummed, Axes.Sized]
  case nodup => simp [hsummed]
  case subset => simp [hsummed]
  case ids => simp [htable, hsources, hsummed, Tables.axes]
  case value =>
    intro x _
    simp [htable, hsources, hsummed]

theorem perm_sources_merge (v : Variable) (blocks : List Block) :
    (merge v blocks).sources.Perm (blocks.flatMap sources) := by
  have htables : Law.tables (blocks.flatMap (·.laws)) =
      blocks.flatMap fun b => Law.tables b.laws := List.map_flatMap
  rw [sources, merge, htables]
  exact List.flatMap_append_perm _ _ _

theorem mem_ids_flatMap_sources {id : VariableId} :
    id ∈ (Tables.axes (blocks.flatMap sources)).ids ↔
      ∃ b ∈ blocks, id ∈ (Tables.axes b.sources).ids := by
  simp only [Tables.mem_ids_axes, List.mem_flatMap]
  constructor
  · rintro ⟨t, ⟨b, hb, ht⟩, hid⟩
    exact ⟨b, hb, t, ht, hid⟩
  · rintro ⟨b, hb, t, ht, hid⟩
    exact ⟨t, ⟨b, hb, ht⟩, hid⟩

theorem mem_ids_sources_merge {id : VariableId} :
    id ∈ (Tables.axes (merge v blocks).sources).ids ↔
      ∃ b ∈ blocks, id ∈ (Tables.axes b.sources).ids := by
  rw [← mem_ids_flatMap_sources, Tables.mem_ids_axes, Tables.mem_ids_axes]
  simp only [(perm_sources_merge v blocks).mem_iff]

theorem ids_flatMap_summed (blocks : List Block) :
    Axes.ids (blocks.flatMap (·.summed)) = blocks.flatMap (·.summed.ids) := List.map_flatMap

theorem eq_of_mem_summed (hsep : blocks.Pairwise Separate) (hb : b ∈ blocks) (hc : c ∈ blocks)
    {id : VariableId} (hsummed : id ∈ b.summed.ids) (hid : id ∈ (Tables.axes c.sources).ids) :
    b = c := by
  by_contra hne
  exact (hsep.forall hb hc hne).left id hsummed hid

theorem nodup_summed (hsound : ∀ b ∈ blocks, b.Sound sizes) (hsep : blocks.Pairwise Separate) :
    (Axes.ids (blocks.flatMap (·.summed))).Nodup := by
  rw [ids_flatMap_summed, List.nodup_flatMap]
  refine ⟨fun b hb => (hsound b hb).nodup, hsep.imp_of_mem fun {b c} hb hc h => ?_⟩
  exact fun id hid hid' => h.left id hid ((hsound c hc).subset hid')

/-- The product of separate tables is the product of all sources, summed over all variables that
were summed before. -/
theorem prod_values (hsound : ∀ b ∈ blocks, b.Sound sizes) (hsep : blocks.Pairwise Separate)
    (hx : x.Valid sizes) :
    (blocks.map (·.table.valueAt x)).prod =
      Axes.sumOver (blocks.flatMap (·.summed)) (Tables.weight (blocks.flatMap sources)) x := by
  induction blocks with
  | nil => rfl
  | cons b blocks ih =>
      obtain ⟨hb, hblocks⟩ := List.forall_mem_cons.mp hsound
      obtain ⟨hfirst, hrest⟩ := List.pairwise_cons.mp hsep
      have hb' : Ignores (Tables.weight b.sources) (blocks.flatMap (·.summed)) := by
        refine Tables.ignores_weight fun t ht v hv hid => ?_
        obtain ⟨c, hc, hv⟩ := List.mem_flatMap.mp hv
        exact (hfirst c hc).right v.id (Axes.mem_ids_of_mem hv)
          (Tables.mem_ids_axes.mpr ⟨t, ht, hid⟩)
      have hrest' : Ignores (Tables.weight (blocks.flatMap sources)) b.summed := by
        refine Tables.ignores_weight fun t ht v hv hid => ?_
        obtain ⟨c, hc, ht⟩ := List.mem_flatMap.mp ht
        exact (hfirst c hc).left v.id (Axes.mem_ids_of_mem hv)
          (Tables.mem_ids_axes.mpr ⟨t, ht, hid⟩)
      rw [List.map_cons, List.prod_cons, ih hblocks hrest, hb.value x hx,
        ← Axes.sumOver_append_mul hb' hrest']
      exact congrArg (fun F => Axes.sumOver _ F x)
        (funext fun y => (Tables.weight_append _ _ y).symm)

/-- Merging separate blocks that mention a variable gives a block. -/
theorem sound_merge (hsound : ∀ b ∈ blocks, b.Sound sizes) (hsep : blocks.Pairwise Separate)
    (hmentions : ∀ b ∈ blocks, b.table.mentions v) (hne : blocks ≠ [])
    (hsize : v.arity = sizes v.id) : (merge v blocks).Sound sizes := by
  have htables : ∀ t ∈ blocks.map (·.table), t.Fits sizes := by
    intro t ht
    obtain ⟨b, hb, rfl⟩ := List.mem_map.mp ht
    exact (hsound b hb).fits
  have hproduct : (Table.product (blocks.map (·.table))).Fits sizes := Table.fits_foldAll htables
  have hids : ∀ id, id ∈ (Table.product (blocks.map (·.table))).axes.ids ↔
      ∃ b ∈ blocks, id ∈ b.table.axes.ids := fun id => by
    rw [Table.product, Table.mem_ids_foldAll]
    simp
  obtain ⟨b₀, hb₀⟩ := List.exists_mem_of_ne_nil blocks hne
  have hfree : ∀ b ∈ blocks, v.id ∈ (Tables.axes b.sources).ids ∧ v.id ∉ b.summed.ids :=
    fun b hb => ((hsound b hb).ids v.id).mp (Table.mentions_iff.mp (hmentions b hb))
  have hvmentions : (Table.product (blocks.map (·.table))).mentions v :=
    Table.mentions_iff.mpr ((hids v.id).mpr ⟨b₀, hb₀, Table.mentions_iff.mp (hmentions b₀ hb₀)⟩)
  constructor
  case fits => exact hproduct.sumOut v
  case sized =>
    refine Axes.sized_cons.mpr ⟨hsize, fun w hw => ?_⟩
    obtain ⟨b, hb, hw⟩ := List.mem_flatMap.mp hw
    exact (hsound b hb).sized w hw
  case nodup =>
    refine Axes.nodup_ids_cons.mpr ⟨fun hid => ?_, nodup_summed hsound hsep⟩
    rw [ids_flatMap_summed] at hid
    obtain ⟨b, hb, hid⟩ := List.mem_flatMap.mp hid
    exact (hfree b hb).2 hid
  case subset =>
    intro id hid
    rw [mem_ids_sources_merge]
    rcases List.mem_cons.mp hid with rfl | hid
    · exact ⟨b₀, hb₀, (hfree b₀ hb₀).1⟩
    · obtain ⟨b, hb, hid⟩ := List.mem_flatMap.mp (by rwa [← ids_flatMap_summed])
      exact ⟨b, hb, (hsound b hb).subset hid⟩
  case ids =>
    intro id
    have hsummed : id ∈ (merge v blocks).summed.ids ↔
        id = v.id ∨ ∃ b ∈ blocks, id ∈ b.summed.ids := by
      rw [merge, Axes.ids_cons, List.mem_cons, ids_flatMap_summed, List.mem_flatMap]
    rw [mem_ids_sources_merge, hsummed]
    refine (Axes.mem_ids_without hproduct.wellFormed.nodup).trans ?_
    rw [hids]
    constructor
    · rintro ⟨⟨b, hb, hid⟩, hne⟩
      obtain ⟨hid, hout⟩ := ((hsound b hb).ids id).mp hid
      refine ⟨⟨b, hb, hid⟩, ?_⟩
      rintro (h | ⟨c, hc, hsummed⟩)
      · exact hne h
      · rw [eq_of_mem_summed hsep hc hb hsummed hid] at hsummed
        exact hout hsummed
    · rintro ⟨⟨b, hb, hid⟩, hout⟩
      rw [not_or] at hout
      exact ⟨⟨b, hb, ((hsound b hb).ids id).mpr ⟨hid, fun h => hout.2 ⟨b, hb, h⟩⟩⟩, hout.1⟩
  case value =>
    intro x hx
    have hweight : Tables.weight (merge v blocks).sources =
        Tables.weight (blocks.flatMap sources) :=
      funext fun y => Tables.weight_perm (perm_sources_merge v blocks) y
    rw [hweight]
    refine (hproduct.valueAt_sumOut hvmentions hx).trans (Finset.sum_congr rfl fun k hk => ?_)
    have hxk : (x.set v k).Valid sizes := hx.set (by rw [← hsize]; exact Finset.mem_range.mp hk)
    rw [Table.Fits.valueAt_product htables hxk, List.map_map]
    exact prod_values hsound hsep hxk

end Block

/-! ### Decompositions -/

/-- The blocks are sound and separate, and use up some laws and other tables.  The variables summed
out of them are the given ones. -/
structure Decomposes (sizes : VariableId → ℕ) (laws : List Law) (others : List (Table ℚ))
    (vars : Axes) (blocks : List Block) : Prop where
  sound : ∀ b ∈ blocks, b.Sound sizes
  separate : blocks.Pairwise Block.Separate
  laws : (blocks.flatMap (·.laws)).Perm laws
  others : (blocks.flatMap (·.others)).Perm others
  summed : ∀ id, id ∈ Axes.ids (blocks.flatMap (·.summed)) ↔ id ∈ vars.ids

namespace Decomposes

variable {sizes rank : VariableId → ℕ} {laws : List Law} {others : List (Table ℚ)} {vars : Axes}
  {blocks : List Block} {v : Variable}

/-- The laws around one other table are a decomposition of the pool that lists them so. -/
theorem start {before after : List Law} {u : Table ℚ}
    (hlaws : ∀ l ∈ before ++ after, l.Normal sizes rank) (hu : u.Fits sizes) :
    ∃ blocks, Decomposes sizes (before ++ after) [u] [] blocks ∧
      blocks.map (·.table) = Law.tables before ++ u :: Law.tables after := by
  let blocks := before.map Block.ofLaw ++ Block.ofTable u :: after.map Block.ofLaw
  have hlaw : ∀ l ∈ before ++ after, (Block.ofLaw l).Sound sizes := fun l hl =>
    Block.sound_single (hlaws l hl).fits rfl rfl rfl
  have hsummed : ∀ b ∈ blocks, b.summed = [] := by
    simp only [blocks, List.mem_append, List.mem_cons, List.mem_map]
    rintro b (⟨l, -, rfl⟩ | rfl | ⟨l, -, rfl⟩) <;> rfl
  have htables : ∀ ls : List Law, (ls.map Block.ofLaw).map (·.table) = Law.tables ls := fun ls => by
    rw [List.map_map]
    rfl
  refine ⟨blocks, ?_, by rw [List.map_append, List.map_cons, htables, htables]; rfl⟩
  constructor
  case sound =>
    simp only [blocks, List.mem_append, List.mem_cons, List.mem_map]
    rintro b (⟨l, hl, rfl⟩ | rfl | ⟨l, hl, rfl⟩)
    · exact hlaw l (List.mem_append_left _ hl)
    · exact Block.sound_single hu rfl rfl rfl
    · exact hlaw l (List.mem_append_right _ hl)
  case separate =>
    refine List.pairwise_of_forall_mem_list fun b hb c hc => ?_
    exact ⟨by simp [hsummed b hb], by simp [hsummed c hc]⟩
  case laws =>
    refine .of_eq ?_
    simp [blocks, Block.ofTable, Block.ofLaw, List.flatMap_map]
  case others =>
    have hnone : ∀ ls : List Law, (ls.map Block.ofLaw).flatMap (·.others) = [] := fun ls =>
      List.flatMap_eq_nil_iff.mpr fun b hb => by
        obtain ⟨l, -, rfl⟩ := List.mem_map.mp hb
        rfl
    refine .of_eq ?_
    rw [List.flatMap_append, List.flatMap_cons, hnone, hnone]
    rfl
  case summed =>
    intro id
    have hnone : blocks.flatMap (·.summed) = [] := List.flatMap_eq_nil_iff.mpr hsummed
    rw [hnone]

theorem notMem_summed (h : Decomposes sizes laws others vars blocks) (hv : v.id ∉ vars.ids)
    {b : Block} (hb : b ∈ blocks) : v.id ∉ b.summed.ids := by
  intro hid
  refine hv ((h.summed v.id).mp ?_)
  rw [Block.ids_flatMap_summed]
  exact List.mem_flatMap.mpr ⟨b, hb, hid⟩

/-- Eliminating a variable merges the blocks that mention it. -/
theorem eliminate (h : Decomposes sizes laws others vars blocks) (hv : v.id ∉ vars.ids)
    (hmem : v.id ∈ (Tables.axes (blocks.map (·.table))).ids) (hsize : v.arity = sizes v.id) :
    ∃ blocks', Decomposes sizes laws others (vars ++ [v]) blocks' ∧
      blocks'.map (·.table) = Tables.eliminate v (blocks.map (·.table)) := by
  let touched := blocks.filter (·.table.mentions v)
  let rest := blocks.filter (!·.table.mentions v)
  have hperm : (rest ++ touched).Perm blocks :=
    List.perm_append_comm.trans (List.filter_append_perm _ blocks)
  have hsep : (rest ++ touched).Pairwise Block.Separate :=
    (hperm.pairwise_iff fun h => ⟨h.right, h.left⟩).mpr h.separate
  obtain ⟨hsepRest, hsepTouched, hcross⟩ := List.pairwise_append.mp hsep
  have hrest : ∀ b ∈ rest, b ∈ blocks ∧ v.id ∉ (Tables.axes b.sources).ids := by
    intro b hb
    obtain ⟨hb, hno⟩ := List.mem_filter.mp hb
    refine ⟨hb, fun hid => ?_⟩
    have := ((h.sound b hb).ids v.id).mpr ⟨hid, h.notMem_summed hv hb⟩
    simp [Table.mentions_iff.mpr this] at hno
  have htouched : ∀ b ∈ touched, b ∈ blocks ∧ b.table.mentions v := fun b hb => List.mem_filter.mp hb
  have hne : touched ≠ [] := by
    obtain ⟨t, ht, hid⟩ := Tables.mem_ids_axes.mp hmem
    obtain ⟨b, hb, rfl⟩ := List.mem_map.mp ht
    exact List.ne_nil_of_mem (List.mem_filter.mpr ⟨hb, Table.mentions_iff.mpr hid⟩)
  have hany : (blocks.map (·.table)).any (·.mentions v) := Tables.any_mentions.mpr hmem
  refine ⟨rest ++ [Block.merge v touched], ?_, ?_⟩
  · constructor
    case sound =>
      intro b hb
      rcases List.mem_append.mp hb with hb | hb
      · exact h.sound b (hrest b hb).1
      · rw [List.mem_singleton.mp hb]
        exact Block.sound_merge (fun b hb => h.sound b (htouched b hb).1) hsepTouched
          (fun b hb => (htouched b hb).2) hne hsize
    case separate =>
      refine List.pairwise_append.mpr ⟨hsepRest, List.pairwise_singleton _ _, fun b hb c hc => ?_⟩
      rw [List.mem_singleton.mp hc]
      constructor
      case left =>
        intro id hid hmem
        obtain ⟨c, hc, hmem⟩ := Block.mem_ids_sources_merge.mp hmem
        exact (hcross b hb c hc).left id hid hmem
      case right =>
        intro id hid hmem
        rcases List.mem_cons.mp hid with rfl | hid
        · exact (hrest b hb).2 hmem
        · obtain ⟨c, hc, hid⟩ := List.mem_flatMap.mp
            (by rwa [← Block.ids_flatMap_summed] : id ∈ touched.flatMap (·.summed.ids))
          exact (hcross b hb c hc).right id hid hmem
    case laws =>
      refine List.Perm.trans (.of_eq ?_) ((hperm.flatMap_right (·.laws)).trans h.laws)
      simp [Block.merge]
    case others =>
      refine List.Perm.trans (.of_eq ?_) ((hperm.flatMap_right (·.others)).trans h.others)
      simp [Block.merge]
    case summed =>
      intro id
      have hmem : id ∈ Axes.ids ((rest ++ touched).flatMap (·.summed)) ↔ id ∈ vars.ids := by
        rw [← h.summed]
        exact ((hperm.flatMap_right (·.summed)).map _).mem_iff
      simp only [List.flatMap_append, Axes.ids_append, List.mem_append] at hmem
      simp only [List.flatMap_append, List.flatMap_singleton, Block.merge, Axes.ids_append,
        Axes.ids_cons, Axes.ids_nil, List.mem_append, List.mem_cons, List.not_mem_nil, or_false,
        ← hmem]
      tauto
  · rw [Tables.eliminate, if_pos hany, List.map_append, List.filter_map, Tables.summand,
      List.filter_map]
    rfl

/-- Eliminating variables one after the other keeps a decomposition. -/
theorem eliminateAll {vs : Axes} (h : Decomposes sizes laws others vars blocks)
    (hnodup : (vars ++ vs).ids.Nodup) (hsized : vs.Sized sizes)
    (hmem : vs.ids ⊆ (Tables.axes (blocks.map (·.table))).ids) :
    ∃ blocks', Decomposes sizes laws others (vars ++ vs) blocks' ∧
      blocks'.map (·.table) = Tables.eliminateAll vs (blocks.map (·.table)) := by
  induction vs generalizing vars blocks with
  | nil => exact ⟨blocks, by simpa using h, rfl⟩
  | cons v vs ih =>
      obtain ⟨hvsize, hsized⟩ := Axes.sized_cons.mp hsized
      rw [Axes.ids_cons, List.cons_subset] at hmem
      have hfresh : v.id ∉ vars.ids := by
        rw [Axes.ids_append, List.nodup_append] at hnodup
        exact fun hid => hnodup.2.2 v.id hid v.id (by simp) rfl
      have hfresh' : v.id ∉ Axes.ids vs := by
        rw [Axes.ids_append, List.nodup_append] at hnodup
        exact (Axes.nodup_ids_cons.mp hnodup.2.1).1
      obtain ⟨blocks₁, h₁, htables₁⟩ := h.eliminate hfresh hmem.1 hvsize
      have hfits : ∀ t ∈ blocks.map (·.table), t.Fits sizes := by
        intro t ht
        obtain ⟨b, hb, rfl⟩ := List.mem_map.mp ht
        exact (h.sound b hb).fits
      obtain ⟨blocks₂, h₂, htables₂⟩ := ih h₁ (by simpa using hnodup) hsized (by
        intro id hid
        rw [htables₁]
        exact (Tables.mem_ids_eliminate (Tables.distinct_of_fits hfits)).mpr
          ⟨hmem.2 hid, fun h => hfresh' (by rw [← h]; exact hid)⟩)
      refine ⟨blocks₂, by simpa using h₂, ?_⟩
      rw [htables₂, htables₁]
      rfl

/-! ### Tables made of laws -/

theorem mem_heads_of_summed (h : Decomposes sizes laws others vars blocks)
    (hlaws : ∀ l ∈ laws, l.Normal sizes rank) (hheads : ∀ id ∈ vars.ids, id ∈ (Law.heads laws).ids)
    {b : Block} (hb : b ∈ blocks) {id : VariableId} (hid : id ∈ b.summed.ids) :
    id ∈ (Law.heads b.laws).ids := by
  have hvars : id ∈ vars.ids := by
    rw [← h.summed, Block.ids_flatMap_summed]
    exact List.mem_flatMap.mpr ⟨b, hb, hid⟩
  obtain ⟨l, hl, rfl⟩ := Law.mem_ids_heads.mp (hheads id hvars)
  obtain ⟨c, hc, hlc⟩ := List.mem_flatMap.mp (h.laws.mem_iff.mpr hl)
  have hmem : l.head.id ∈ (Tables.axes c.sources).ids :=
    Tables.mem_ids_axes.mpr ⟨l.table, List.mem_append_left _ (List.mem_map_of_mem hlc),
      (hlaws l hl).mem⟩
  rw [Block.eq_of_mem_summed h.separate hb hc hid hmem]
  exact Law.mem_ids_heads.mpr ⟨l, hlc, rfl⟩

theorem mem_summed_of_head (h : Decomposes sizes laws others vars blocks)
    (hlaws : ∀ l ∈ laws, l.Normal sizes rank) {b : Block} (hb : b ∈ blocks) {l : Law}
    (hl : l ∈ b.laws) (hvars : l.head.id ∈ vars.ids) : l.head.id ∈ b.summed.ids := by
  rw [← h.summed, Block.ids_flatMap_summed] at hvars
  obtain ⟨c, hc, hid⟩ := List.mem_flatMap.mp hvars
  have hsound := hlaws l (h.laws.mem_iff.mp (List.mem_flatMap.mpr ⟨b, hb, hl⟩))
  have hmem : l.head.id ∈ (Tables.axes b.sources).ids :=
    Tables.mem_ids_axes.mpr ⟨l.table, List.mem_append_left _ (List.mem_map_of_mem hl), hsound.mem⟩
  rwa [← Block.eq_of_mem_summed h.separate hc hb hid hmem]

/-- What is made of laws, and of tables that are one, is a sum over some of the heads. -/
theorem valueAt_eq_sumOver (h : Decomposes sizes laws others vars blocks) {b : Block}
    (hb : b ∈ blocks) (hone : ∀ x : Assignment, x.Valid sizes → Tables.weight b.others x = 1)
    {x : Assignment} (hx : x.Valid sizes) :
    b.table.valueAt x = Axes.sumOver b.summed (Tables.weight (Law.tables b.laws)) x := by
  rw [(h.sound b hb).value x hx]
  refine Axes.sumOver_congr (h.sound b hb).sized hx fun y hy _ => ?_
  rw [Block.sources, Tables.weight_append, hone y hy, mul_one]

theorem nodup_heads_laws (h : Decomposes sizes laws others vars blocks)
    (hnodup : (Law.heads laws).ids.Nodup) {b : Block} (hb : b ∈ blocks) :
    (Law.heads b.laws).ids.Nodup := by
  have hall : (Law.heads (blocks.flatMap (·.laws))).ids.Nodup :=
    ((h.laws.map _).map _).nodup_iff.mpr hnodup
  refine hall.sublist (List.Sublist.map _ (List.Sublist.map _ ?_))
  rw [List.flatMap_def]
  exact List.sublist_flatten_of_mem (List.mem_map_of_mem hb)

/-- If all heads after a variable are eliminated, then what is made of laws, and of tables that are
one, does not depend on that variable. -/
theorem valueAt_set_of_weight_others (h : Decomposes sizes laws others vars blocks)
    (hlaws : ∀ l ∈ laws, l.Normal sizes rank) (hnodup : (Law.heads laws).ids.Nodup) {d : Variable}
    (hheads : ∀ id ∈ vars.ids, id ∈ (Law.heads laws).ids)
    (hlate : ∀ l ∈ laws, rank d.id < rank l.head.id → l.head.id ∈ vars.ids)
    (hd : d.id ∉ (Law.heads laws).ids) {b : Block} (hb : b ∈ blocks)
    (hone : ∀ x : Assignment, x.Valid sizes → Tables.weight b.others x = 1) {x : Assignment}
    (hx : x.Valid sizes) {k : ℕ} (hk : k < sizes d.id) :
    b.table.valueAt (x.set d k) = b.table.valueAt x := by
  have hsub : b.laws ⊆ laws := fun l hl =>
    h.laws.mem_iff.mp (List.mem_flatMap.mpr ⟨b, hb, hl⟩)
  have hsum := h.sound b hb
  rw [h.valueAt_eq_sumOver hb hone (hx.set hk), h.valueAt_eq_sumOver hb hone hx]
  refine Law.sumOver_set_laws (fun l hl => hlaws l (hsub hl)) (h.nodup_heads_laws hnodup hb)
    hsum.nodup hsum.sized
    (fun v hv => h.mem_heads_of_summed hlaws hheads hb (Axes.mem_ids_of_mem hv))
    (fun l hl hlt => h.mem_summed_of_head hlaws hb hl (hlate l (hsub hl) hlt))
    (fun hid => hd ?_) hx hk
  obtain ⟨l, hl, hid⟩ := Law.mem_ids_heads.mp hid
  exact Law.mem_ids_heads.mpr ⟨l, hsub hl, hid⟩

/-- What is made of laws that are not negative, and of tables that are one, is not negative. -/
theorem valueAt_nonneg_of_weight_others (h : Decomposes sizes laws others vars blocks)
    (hlaws : ∀ l ∈ laws, l.Sound sizes rank) {b : Block} (hb : b ∈ blocks)
    (hone : ∀ x : Assignment, x.Valid sizes → Tables.weight b.others x = 1) {x : Assignment}
    (hx : x.Valid sizes) : 0 ≤ b.table.valueAt x := by
  have hsound : ∀ l ∈ b.laws, l.Sound sizes rank := fun l hl =>
    hlaws l (h.laws.mem_iff.mp (List.mem_flatMap.mpr ⟨b, hb, hl⟩))
  rw [h.valueAt_eq_sumOver hb hone hx]
  exact Axes.sumOver_nonneg (h.sound b hb).sized hx fun y hy _ => Law.weight_nonneg hsound hy

/-- **Tables made of laws.**  If all heads after a variable are eliminated, then all tables but the
one made of the only other table are nonnegative and do not depend on that variable. -/
theorem exists_perm_cons {u : Table ℚ} (h : Decomposes sizes laws [u] vars blocks)
    (hlaws : ∀ l ∈ laws, l.Sound sizes rank) (hnodup : (Law.heads laws).ids.Nodup) {d : Variable}
    (hheads : ∀ id ∈ vars.ids, id ∈ (Law.heads laws).ids)
    (hlate : ∀ l ∈ laws, rank d.id < rank l.head.id → l.head.id ∈ vars.ids)
    (hd : d.id ∉ (Law.heads laws).ids) :
    ∃ t rest, (blocks.map (·.table)).Perm (t :: rest) ∧ ∀ s ∈ rest, ∀ x : Assignment,
      x.Valid sizes → 0 ≤ s.valueAt x ∧ ∀ k < sizes d.id, s.valueAt (x.set d k) = s.valueAt x := by
  obtain ⟨b, hb, hu⟩ := List.mem_flatMap.mp (h.others.mem_iff.mpr (List.mem_singleton_self u))
  obtain ⟨before, after, rfl⟩ := List.append_of_mem hb
  have hperm : (before ++ b :: after).Perm (b :: (before ++ after)) := List.perm_middle
  refine ⟨b.table, (before ++ after).map (·.table), hperm.map _, fun s hs x hx => ?_⟩
  obtain ⟨c, hc, rfl⟩ := List.mem_map.mp hs
  -- the other table is among the sources of `b`, so no block but `b` has one
  have hothers : c.others = [] := by
    have hlength := ((hperm.flatMap_right (·.others)).symm.trans h.others).length_eq
    rw [List.flatMap_cons, List.length_append, List.length_singleton] at hlength
    have hpos := List.length_pos_of_mem hu
    have hnone : (before ++ after).flatMap (·.others) = [] := List.length_eq_zero_iff.mp (by omega)
    exact List.flatMap_eq_nil_iff.mp hnone c hc
  have hblock : c ∈ before ++ b :: after := hperm.mem_iff.mpr (List.mem_cons_of_mem _ hc)
  have hone : ∀ x : Assignment, x.Valid sizes → Tables.weight c.others x = 1 := by simp [hothers]
  exact ⟨h.valueAt_nonneg_of_weight_others hlaws hblock hone hx, fun k hk =>
    h.valueAt_set_of_weight_others (fun l hl => (hlaws l hl).toNormal) hnodup hheads hlate hd hblock
      hone hx hk⟩

end Decomposes

end Influence
