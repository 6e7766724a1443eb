import Mathlib
import VeloGraphX.Incremental.BfsCollect

/-!
# Incremental breadth-first distances: one batch

A vertex that is not affected keeps a walk over surviving arcs, so after the repair all labels
are justified and all surviving arcs relaxed; the additions and the propagation do the rest.
The workspace is left clean, so that the next batch starts as this one did.
-/

namespace VeloGraphX

open FuelLoop PointUpdate ShortestPath ArcSet GraphAccess

section Workspaces

/-- Reading cells some of which have been set to zero, at any index. -/
theorem getD_zeroCells_nat (cells : List ℕ) (vertices : List VertexId) (i : ℕ) :
    (zeroCells cells vertices).getD i 0 =
      if i ∈ vertices.map Fin.val then 0 else cells.getD i 0 := by
  unfold zeroCells
  induction vertices generalizing cells with
  | nil => rfl
  | cons v rest ih =>
    rw [List.foldl_cons, ih, List.map_cons]
    by_cases hrest : i ∈ rest.map Fin.val
    · rw [if_pos hrest, if_pos (List.mem_cons_of_mem _ hrest)]
    · rw [if_neg hrest]
      by_cases hv : i = v.val
      · subst hv
        rw [if_pos List.mem_cons_self]
        by_cases hin : v.val < cells.length
        · rw [getD_set hin, if_pos rfl]
        · exact List.getD_eq_default _ _ (by rw [List.length_set]; omega)
      · rw [if_neg (List.not_mem_cons_of_ne_of_not_mem hv hrest), getD_set_ne hv]

/-- Reading cells some of which have been set to zero. -/
theorem getD_zeroCells (cells : List ℕ) (vertices : List VertexId) (x : VertexId) :
    (zeroCells cells vertices).getD x 0 = if x ∈ vertices then 0 else cells.getD x 0 := by
  rw [getD_zeroCells_nat]
  exact ite_congr (propext (List.mem_map_of_injective Fin.val_injective)) (fun _ => rfl) fun _ => rfl

/-- Setting cells to zero keeps the length. -/
theorem length_zeroCells (cells : List ℕ) (vertices : List VertexId) :
    (zeroCells cells vertices).length = cells.length := by
  unfold zeroCells
  induction vertices generalizing cells with
  | nil => rfl
  | cons v rest ih => rw [List.foldl_cons, ih, List.length_set]

/-- Growing an array by zeros changes no cell. -/
theorem grow_spec {cells : List ℕ} {n : ℕ} (h : cells.length ≤ n) :
    (if cells.length < n then resize cells n 0 else cells).length = n ∧ ∀ x : VertexId,
      (if cells.length < n then resize cells n 0 else cells).getD x 0 = cells.getD x 0 := by
  obtain ⟨hlength, hlabel⟩ := @grown_spec 0 cells n h
  exact ⟨hlength, congrFun hlabel⟩

/-- A workspace for fewer vertices grows without leftovers. -/
theorem Clean.ensure {m n : ℕ} {work : Workspace} (h : Clean m work) (hle : m ≤ n) :
    Clean n (work.ensure n) := by
  obtain ⟨haffected, haffectedAt⟩ := grow_spec (h.affected_length.trans_le hle)
  obtain ⟨hlost, hlostAt⟩ := grow_spec (h.lost_length.trans_le hle)
  obtain ⟨hcounts, hcountsAt⟩ := grow_spec (h.counts_length.trans_le hle)
  exact ⟨haffected, hlost, hcounts, fun v => (haffectedAt v).trans (h.affected v),
    fun v => (hlostAt v).trans (h.lostParentCount v),
    fun v => (hcountsAt v).trans (h.shortestParentCount v)⟩

/-- A workspace that has not been used yet. -/
theorem clean_empty : Clean 0 {} :=
  ⟨rfl, rfl, rfl, fun _ => List.getD_nil, fun _ => List.getD_nil, fun _ => List.getD_nil⟩

/-- Clearing the listed vertices leaves nothing marked, also after the arrays have grown. -/
theorem Marked.clear {n m : ℕ} {state : Invalidation} (h : Marked n state) (hle : n ≤ m) :
    Clean m ((state.work.ensure m).clear state.affectedVertices) := by
  obtain ⟨haffected, haffectedAt⟩ := grow_spec (h.affected_length.trans_le hle)
  obtain ⟨hlost, hlostAt⟩ := grow_spec (h.lost_length.trans_le hle)
  obtain ⟨hcounts, hcountsAt⟩ := grow_spec (h.counts_length.trans_le hle)
  refine ⟨(length_zeroCells _ _).trans haffected, (length_zeroCells _ _).trans hlost,
    (length_zeroCells _ _).trans hcounts, fun v => ?_, fun v => ?_, fun v => ?_⟩
  · refine (getD_zeroCells _ _ v).trans ?_
    split
    · rfl
    · rename_i hv
      exact (haffectedAt v).trans (not_not.mp fun hne => hv (h.affected v hne))
  · refine (getD_zeroCells _ _ v).trans ?_
    split
    · rfl
    · rename_i hv
      exact (hlostAt v).trans (not_not.mp fun hne => hv (h.touched v (Or.inl hne)))
  · refine (getD_zeroCells _ _ v).trans ?_
    split
    · rfl
    · rename_i hv
      exact (hcountsAt v).trans (not_not.mp fun hne => hv (h.touched v (Or.inr hne)))

/-- The flags of the affected vertices, after the arrays have grown. -/
theorem Losing.flags_ensure {n m : ℕ} {arcs lost : ArcSet} {d : VertexId → ℕ}
    {state : Invalidation} (h : Losing n arcs d lost state) (hle : n ≤ m) :
    Flags m (state.work.ensure m).affected {x | x ∈ state.affectedVertices} := by
  obtain ⟨haffected, haffectedAt⟩ := grow_spec (h.affected_length.trans_le hle)
  refine ⟨haffected.ge, fun x _ => ?_⟩
  exact (not_congr (Eq.congr_left (haffectedAt x))).trans (h.flags x)

end Workspaces

section Survivors

variable {G : Type} [GraphAccess G] {g : G} {arcs : ArcSet} {levels : Levels} {source : VertexId}
  {deleted : Finset ℕ}

/-- The arcs that a batch does not delete. -/
def survivors (g : G) (arcs : ArcSet) (deleted : Finset ℕ) : ArcSet :=
  {a | a ∈ arcs ∧ bfsEdgeKey g a.1 a.2 ∉ deleted}

/-- A reached vertex that is not the source has a shortest parent. -/
theorem exists_tight {start : Set VertexId} {d : VertexId → ℕ}
    (h : Exact start (unitArc arcs) unreachable d) {v : VertexId} (hfinite : d v < unreachable)
    (hv : v ∉ start) : ∃ u, Tight arcs d u v := by
  have hwalk := h.walk v hfinite
  generalize hc : d v = c at hwalk
  cases hwalk with
  | nil hstart => exact absurd hstart hv
  | @snoc u _ c w hfirst hlast =>
    obtain ⟨rfl, hmem⟩ := hlast
    have hle := h.le_walk u c hfirst
    have hrelaxed := h.relaxed (⟨rfl, hmem⟩ : unitArc arcs u 1 v)
    exact ⟨u, hmem, hfinite.ne, by omega⟩

/-- A vertex that is not affected keeps a shortest parent: the arc survives and the parent is
not affected either. -/
theorem Losing.exists_parent {n : ℕ} {start : Set VertexId}
    (hexact : Exact start (unitArc arcs) unreachable levels.labels) {state : Invalidation}
    (h : Losing n arcs levels.labels
      (lostBefore g arcs levels.labels deleted state.affectedVertices) state)
    {v : VertexId} (hkept : v ∉ state.affectedVertices) (hfinite : levels.labels v < unreachable)
    (hv : v ∉ start) : ∃ p, Tight arcs levels.labels p v ∧ (p, v) ∈ survivors g arcs deleted ∧
      p ∉ state.affectedVertices := by
  have hleft : ∃ p ∈ parents arcs levels.labels v,
      (p, v) ∉ lostBefore g arcs levels.labels deleted state.affectedVertices := by
    by_cases hsome : {p | (p, v) ∈ lostBefore g arcs levels.labels deleted
        state.affectedVertices}.Nonempty
    · have hlt := h.some_left v hkept hsome
      obtain ⟨p, hp, hnot⟩ := Set.exists_mem_notMem_of_ncard_lt_ncard hlt
      exact ⟨p, hp, hnot⟩
    · obtain ⟨p, hp⟩ := exists_tight hexact hfinite hv
      exact ⟨p, hp, fun hlost => hsome ⟨p, hlost⟩⟩
  obtain ⟨p, htight, hnot⟩ := hleft
  refine ⟨p, htight, ⟨htight.1, fun hdeleted => ?_⟩, fun haffected => ?_⟩
  · exact hnot ⟨htight, Or.inl hdeleted⟩
  · exact hnot ⟨htight, Or.inr haffected⟩

/-- Without the affected vertices the old labels are justified by surviving arcs. -/
theorem Losing.justified {n : ℕ} (hleveled : Leveled n levels)
    (hsourceLevel : levels.labels source = 0)
    (hexact : Exact (startAt source n) (unitArc arcs) unreachable levels.labels)
    {state : Invalidation} (h : Losing n arcs levels.labels
      (lostBefore g arcs levels.labels deleted state.affectedVertices) state) {after : ArcSet}
    (hafter : survivors g arcs deleted ⊆ after) :
    Justified (startAt source n) (unitArc after) unreachable fun x =>
      if x ∈ state.affectedVertices then unreachable else levels.labels x := by
  have hkept : ∀ x, (if x ∈ state.affectedVertices then unreachable else levels.labels x) <
      unreachable → x ∉ state.affectedVertices ∧ levels.labels x < unreachable := by
    intro x hx
    split at hx
    · exact absurd hx (lt_irrefl _)
    · rename_i hnot
      exact ⟨hnot, hx⟩
  refine justified_of_parents (fun x => ?_) (fun x hx => ?_) fun v hv => ?_
  · split
    · exact le_rfl
    · exact hexact.le_cap x
  · have hnot : x ∉ state.affectedVertices := fun hmem =>
      (h.valid hleveled hsourceLevel hmem).2.2 hx.1
    rw [if_neg hnot, hx.1]
    exact hsourceLevel
  · obtain ⟨hnot, hfinite⟩ := hkept v hv
    by_cases hstart : v ∈ startAt source n
    · exact Or.inl hstart
    · obtain ⟨p, htight, hsurvives, hp⟩ := h.exists_parent hexact hnot hfinite hstart
      have hlevel := htight.2.2
      refine Or.inr ⟨p, 1, ⟨rfl, hafter hsurvives⟩, ?_, ?_⟩
      · rw [if_neg hp, if_neg hnot]
        omega
      · rw [if_neg hp, if_neg hnot]
        omega

end Survivors

/-- Distances that are grown with the graph keep their labels and their count. -/
theorem Leveled.grow {n m : ℕ} {levels : Levels} (h : Leveled n levels) (hle : n ≤ m) :
    Leveled m { levels with
        dist := if levels.dist.length < m then resize levels.dist m unreachable else levels.dist } ∧
      Levels.labels { levels with
        dist := if levels.dist.length < m then resize levels.dist m unreachable else levels.dist } =
        levels.labels := by
  obtain ⟨hlength, hlabels⟩ := @grown_spec unreachable levels.dist m (h.length_eq.trans_le hle)
  have hsame : Levels.labels { levels with
      dist := if levels.dist.length < m then resize levels.dist m unreachable else levels.dist } =
      levels.labels := hlabels
  refine ⟨⟨hlength, fun x => ?_, ?_⟩, hsame⟩
  · rw [hsame]
    exact h.le x
  · rw [hsame]
    exact h.counted

namespace IncrementalBFS

variable {G D : Type} [GraphAccess G] {engine : IncrementalBFS G D} {arcs after : ArcSet}

/-- The engine is right about its graph, and ready for a batch. -/
structure Correct (engine : IncrementalBFS G D) (arcs : ArcSet) : Prop where
  serves : Serves engine.graph arcs
  transposes : Transposes engine.graph arcs
  count_lt : vertexCount engine.graph < unreachable
  leveled : Leveled (vertexCount engine.graph) engine.levels
  exact_dist : Exact (startAt engine.source (vertexCount engine.graph)) (unitArc arcs) unreachable
    engine.levels.labels
  clean : Clean (vertexCount engine.graph) engine.work
  seen : engine.seenFinalUpdates.Reusable
  deletionKeys : engine.finalDeletionKeys.Reusable

/-- `recompute` is right whatever the distances were before. -/
theorem recompute_spec (hserves : Serves engine.graph arcs)
    (htransposes : Transposes engine.graph arcs) (hcount : vertexCount engine.graph < unreachable)
    {m : ℕ} (hclean : Clean m engine.work) (hle : m ≤ vertexCount engine.graph)
    (hseen : engine.seenFinalUpdates.Reusable) (hkeys : engine.finalDeletionKeys.Reusable) :
    Returns (fun fuel => engine.recompute fuel) fun engine' =>
      Correct engine' arcs ∧ engine'.graph = engine.graph ∧ engine'.source = engine.source :=
  Returns.map ((recomputeLevels_spec hserves hcount engine.source).mono fun _ hlevels =>
    ⟨⟨hserves, htransposes, hcount, hlevels.1, hlevels.2, hclean.ensure hle, hseen, hkeys⟩,
      rfl, rfl⟩)

/-- A new engine is right. -/
theorem create_spec {g : G} (hserves : Serves g arcs) (htransposes : Transposes g arcs)
    (hcount : vertexCount g < unreachable) (source : VertexId) (fraction : D) :
    Returns (fun fuel => create fuel g source fraction) fun engine =>
      Correct engine arcs ∧ engine.graph = g ∧ engine.source = source :=
  @recompute_spec G D _ { graph := g, source := source, deletionFallbackFraction := fraction } arcs
    hserves htransposes hcount 0 clean_empty (Nat.zero_le _) ReusableKeySet.reusable_empty
    ReusableKeySet.reusable_empty

/-- What is known when the graph has changed: how the arcs after the batch come from the arcs
before it and the final operations. -/
structure Changed (engine : IncrementalBFS G D) (g : G) (arcs after : ArcSet)
    (deleted : Finset ℕ) (additions : List (VertexId × VertexId)) : Prop where
  serves : Serves engine.graph after
  transposes : Transposes engine.graph after
  count_lt : vertexCount engine.graph < unreachable
  vertexCount_le : vertexCount g ≤ vertexCount engine.graph
  source_lt : engine.source.val < vertexCount g
  survive : survivors g arcs deleted ⊆ after
  added : ∀ a ∈ additions.flatMap (offeredEdges (isDirected engine.graph)), a ∈ after
  origin : ∀ a ∈ after, a ∈ survivors g arcs deleted ∨
    a ∈ additions.flatMap (offeredEdges (isDirected engine.graph))

/-- The labels after the repair: justified in the graph after the batch, and relaxed over the
surviving arcs. -/
theorem repaired_spec {g : G} {deleted : Finset ℕ} {additions : List (VertexId × VertexId)}
    (h : Changed engine g arcs after deleted additions) {levels grown : Levels}
    (hleveled : Leveled (vertexCount g) levels)
    (hexact : Exact (startAt engine.source (vertexCount g)) (unitArc arcs) unreachable levels.labels)
    (hgrown : Leveled (vertexCount engine.graph) grown) (hlabels : grown.labels = levels.labels)
    {state : Invalidation} (hlosing : Losing (vertexCount g) arcs levels.labels
      (lostBefore g arcs levels.labels deleted state.affectedVertices) state) :
    Returns (fun fuel => if state.affectedVertices.isEmpty then some grown
      else repairAffected engine.graph (state.work.ensure (vertexCount engine.graph)).affected fuel
        grown state.affectedVertices (state.affectedVertices.map fun v : VertexId =>
          if v < grown.dist.length then grown.dist.getD v 0 else unreachable)) fun repaired =>
      Leveled (vertexCount engine.graph) repaired ∧
        Justified (startAt engine.source (vertexCount g)) (unitArc after) unreachable
          repaired.labels ∧
        Relaxed (unitArc (survivors g arcs deleted)) (fun _ _ => False) repaired.labels := by
  have hstart : engine.source ∈ startAt engine.source (vertexCount g) := ⟨rfl, h.source_lt⟩
  have hsourceLevel : levels.labels engine.source = 0 :=
    Nat.le_zero.mp (hexact.le_walk _ 0 (.nil hstart))
  have hjust := hlosing.justified hleveled hsourceLevel hexact h.survive
  have hrelaxed : Relaxed (unitArc (survivors g arcs deleted)) (fun _ _ => False) grown.labels := by
    intro u w v harc
    obtain ⟨rfl, hmem, -⟩ := harc
    rw [hlabels]
    exact Or.inr (hexact.relaxed ⟨rfl, hmem⟩)
  by_cases hnone : state.affectedVertices = []
  · rw [hnone] at hjust ⊢
    refine Returns.pure ⟨hgrown, ?_, hrelaxed⟩
    rw [hlabels]
    simpa using hjust
  · have hsome : ¬ state.affectedVertices.isEmpty = true := by simpa using hnone
    simp only [if_neg hsome]
    refine repairAffected_spec h.serves h.transposes (hlosing.flags_ensure h.vertexCount_le)
      hlosing.nodup (fun v hv => ?_) hgrown ?_ (fun u w v harc => ⟨harc.1, h.survive harc.2⟩)
      hrelaxed
    · obtain ⟨hlt, -, hne⟩ := hlosing.valid hleveled hsourceLevel hv
      exact ⟨hlt.trans_le h.vertexCount_le, fun hmem => hne hmem.1⟩
    · rw [hlabels]
      exact hjust

/-- The part of `apply` after the graph has changed makes the engine right about the graph after
the batch. -/
theorem finish_spec {g : G} {deleted : Finset ℕ} {additions : List (VertexId × VertexId)}
    (h : Changed engine g arcs after deleted additions)
    (hleveled : Leveled (vertexCount g) engine.levels)
    (hexact : Exact (startAt engine.source (vertexCount g)) (unitArc arcs) unreachable
      engine.levels.labels)
    (hseen : engine.seenFinalUpdates.Reusable) (hkeys : engine.finalDeletionKeys.Reusable)
    {state : Invalidation} {lost : ArcSet}
    (hlosing : Losing (vertexCount g) arcs engine.levels.labels lost state) {fallback : Bool}
    (hlocal : fallback = false → Losing (vertexCount g) arcs engine.levels.labels
      (lostBefore g arcs engine.levels.labels deleted state.affectedVertices) state) :
    Returns (fun fuel => engine.finish fuel additions state fallback) fun engine' =>
      Correct engine' after ∧ engine'.graph = engine.graph ∧ engine'.source = engine.source := by
  obtain ⟨hgrown, hlabels⟩ := hleveled.grow h.vertexCount_le
  have hclean := hlosing.marked.clear h.vertexCount_le
  unfold finish
  dsimp only
  cases fallback with
  | true =>
    simp only [if_true]
    have hrecompute := fun levels => @recompute_spec G D _ { engine with
      levels := levels
      work := (state.work.ensure (vertexCount engine.graph)).clear state.affectedVertices } after
      h.serves h.transposes h.count_lt _ hclean le_rfl hseen hkeys
    refine Returns.map ((hrecompute _).mono fun engine' hengine => ⟨?_, hengine.2⟩)
    exact ⟨hengine.1.serves, hengine.1.transposes, hengine.1.count_lt, hengine.1.leveled,
      hengine.1.exact_dist, hengine.1.clean, hengine.1.seen, hengine.1.deletionKeys⟩
  | false =>
    simp only [Bool.false_eq_true, if_false]
    refine (repaired_spec h hleveled hexact hgrown hlabels (hlocal rfl)).bind
      fun repaired hrepaired => ?_
    obtain ⟨hlevels, hjust, hrelaxed⟩ := hrepaired
    have hexcept : Relaxed (unitArc after)
        (fun u v => (u, v) ∈ additions.flatMap (offeredEdges (isDirected engine.graph)))
        repaired.labels := by
      intro u w v harc
      obtain ⟨rfl, hmem⟩ := harc
      rcases h.origin _ hmem with hsurvivor | hadded
      · exact Or.inr ((hrelaxed u 1 v ⟨rfl, hsurvivor⟩).resolve_left id)
      · exact Or.inl hadded
    obtain ⟨hlevels', hjust', hrelaxed'⟩ :=
      relaxAdditions_spec h.serves h.added hlevels hjust hexcept
    refine Returns.map ((propagateDecreases_spec h.serves (fun _ _ _ => id) hlevels' hjust'
      hrelaxed').mono fun final hfinal => ⟨?_, rfl, rfl⟩)
    obtain ⟨hfinalLevels, hfinalJust, hfinalRelaxed⟩ := hfinal
    refine ⟨h.serves, h.transposes, h.count_lt, hfinalLevels, ?_, hclean, hseen, hkeys⟩
    change Exact (startAt engine.source (vertexCount engine.graph)) _ _ _
    rw [startAt_eq h.source_lt h.vertexCount_le]
    exact hfinalJust.exact hfinalRelaxed

/-- What a batch changes, as the final operations describe it. -/
theorem Correct.changed (h : Correct engine arcs)
    (hsource : engine.source.val < vertexCount engine.graph) {batch : UpdateBatch}
    (happlies : Applies engine.graph arcs batch)
    (htransposes : Transposes (applyUpdates engine.graph batch)
      (applyAll (isDirected engine.graph) arcs batch.updates))
    (hcount : vertexCount (applyUpdates engine.graph batch) < unreachable) {bound : ℕ}
    {final : FinalUpdates} (hfinal : Collected engine.graph bound batch.updates final)
    (next : IncrementalBFS G D) (hgraph : next.graph = applyUpdates engine.graph batch)
    (hkept : next.source = engine.source) :
    Changed next engine.graph arcs (applyAll (isDirected engine.graph) arcs batch.updates)
      (finalKeys engine.graph batch.updates false) final.additions := by
  have hadditions : ∀ a, a ∈ final.additions.flatMap (offeredEdges (isDirected next.graph)) ↔
      a.1 ≠ a.2 ∧ bfsEdgeKey engine.graph a.1 a.2 ∈ finalKeys engine.graph batch.updates true := by
    intro a
    rw [hgraph, happlies.directed, hfinal.additions]
    exact mem_offered_finalOps
  refine ⟨?_, ?_, ?_, ?_, ?_, fun a ha => ?_, fun a ha => ?_, fun a ha => ?_⟩
  · rw [hgraph]
    exact happlies.serves
  · rw [hgraph]
    exact htransposes
  · rw [hgraph]
    exact hcount
  · rw [hgraph]
    exact happlies.vertexCount_le
  · rw [hkept]
    exact hsource
  · have hne : a.1 ≠ a.2 := fun hloop =>
      h.serves.simple.loopless a.1 ((Prod.ext rfl hloop.symm : a = (a.1, a.1)) ▸ ha.1)
    exact (mem_applyAll_iff hne batch.updates).mpr (Or.inr ha)
  · obtain ⟨hne, hkey⟩ := (hadditions a).mp ha
    exact (mem_applyAll_iff hne batch.updates).mpr (Or.inl hkey)
  · have hne : a.1 ≠ a.2 := fun hloop =>
      happlies.serves.simple.loopless a.1 ((Prod.ext rfl hloop.symm : a = (a.1, a.1)) ▸ ha)
    rcases (mem_applyAll_iff hne batch.updates).mp ha with hkey | hsurvivor
    · exact Or.inr ((hadditions a).mpr ⟨hne, hkey⟩)
    · exact Or.inl hsurvivor

/-- Without deletion candidates no shortest-path arc is deleted. -/
theorem lostBefore_of_no_candidates {g : G} {levels : Levels} {n : ℕ} (hleveled : Leveled n levels)
    {existing : List (VertexId × VertexId)} {keys : ReusableKeySet} {deleted : Finset ℕ}
    (hdeleting : Deleting g arcs existing keys deleted)
    (hnone : deletionCandidates g levels.dist existing = []) :
    lostBefore g arcs levels.labels deleted [] = ∅ := by
  refine Set.eq_empty_iff_forall_notMem.mpr fun a ha => ?_
  rw [deletionCandidates_eq hleveled, List.map_eq_nil_iff] at hnone
  have hmem := (mem_lostArcs hleveled hdeleting a).mpr ha
  rw [hnone] at hmem
  exact List.not_mem_nil hmem

/-- Without deletion candidates nothing is counted as lost. -/
theorem losing_of_no_candidates {g : G} {levels : Levels} {n : ℕ} (hleveled : Leveled n levels)
    {existing : List (VertexId × VertexId)} {keys : ReusableKeySet} {deleted : Finset ℕ}
    (hdeleting : Deleting g arcs existing keys deleted)
    (hnone : deletionCandidates g levels.dist existing = []) {work : Workspace}
    (hclean : Clean n work) :
    Losing n arcs levels.labels (lostBefore g arcs levels.labels deleted [])
      { work := work } := by
  rw [lostBefore_of_no_candidates hleveled hdeleting hnone]
  exact hclean.losing levels.labels

/-- Sorting and removing repetitions leaves nothing only of nothing. -/
theorem isEmpty_destutter {list : List VertexId} :
    ((list.insertionSort (· ≤ ·)).destutter (· ≠ ·)).isEmpty = true ↔ list = [] := by
  rw [List.isEmpty_iff, List.destutter_eq_nil]
  have hperm := List.perm_insertionSort (· ≤ ·) list
  refine ⟨fun hnil => ?_, fun hnil => ?_⟩
  · rw [hnil] at hperm
    exact hperm.nil_eq.symm
  · rw [hnil]
    rfl

/-- The invalidation, skipped when there are no candidates. -/
theorem invalidated_spec (h : Correct engine arcs)
    (hsource : engine.source.val < vertexCount engine.graph)
    {existing : List (VertexId × VertexId)} {keys : ReusableKeySet} {deleted : Finset ℕ}
    (hdeleting : Deleting engine.graph arcs existing keys deleted) {work : Workspace}
    (hclean : Clean (vertexCount engine.graph) work) (limit : ℕ) :
    Returns (fun fuel =>
      if (((deletionCandidates engine.graph engine.levels.dist existing).insertionSort
        (· ≤ ·)).destutter (· ≠ ·)).isEmpty then some ({ work := work }, true)
      else computeAffected engine.graph engine.levels.dist engine.source limit keys existing fuel
        work) fun result =>
      (∃ lost, Losing (vertexCount engine.graph) arcs engine.levels.labels lost result.1) ∧
      (result.2 = true → Losing (vertexCount engine.graph) arcs engine.levels.labels
        (lostBefore engine.graph arcs engine.levels.labels deleted result.1.affectedVertices)
        result.1) := by
  have hstart : engine.source ∈ startAt engine.source (vertexCount engine.graph) := ⟨rfl, hsource⟩
  have hsourceLevel : engine.levels.labels engine.source = 0 :=
    Nat.le_zero.mp (h.exact_dist.le_walk _ 0 (.nil hstart))
  split
  · rename_i hnone
    have hlosing := losing_of_no_candidates h.leveled hdeleting (isEmpty_destutter.mp hnone) hclean
    exact Returns.pure ⟨⟨_, hlosing⟩, fun _ => hlosing⟩
  · exact computeAffected_spec h.serves h.transposes h.leveled hsourceLevel hdeleting hclean limit

/-- `apply` makes the engine right about the graph after the batch. -/
theorem Correct.apply [DoubleArith D] (h : Correct engine arcs)
    (hsource : engine.source.val < vertexCount engine.graph) {batch : UpdateBatch}
    (hbatch : batch.updates ≠ [] → Applies engine.graph arcs batch ∧
      Transposes (applyUpdates engine.graph batch)
        (applyAll (isDirected engine.graph) arcs batch.updates) ∧
      vertexCount (applyUpdates engine.graph batch) < unreachable) :
    Returns (fun fuel => engine.apply fuel batch) fun engine' =>
      Correct engine' (applyAll (isDirected engine.graph) arcs batch.updates) ∧
        engine'.source = engine.source ∧
        engine'.graph = if batch.updates = [] then engine.graph
          else applyUpdates engine.graph batch := by
  unfold IncrementalBFS.apply
  dsimp only
  by_cases hnil : batch.updates = []
  · have hempty : batch.empty = true := List.isEmpty_iff.mpr hnil
    simp only [hempty, if_true]
    rw [hnil, if_pos rfl]
    exact Returns.pure ⟨⟨h.serves, h.transposes, h.count_lt, h.leveled, h.exact_dist, h.clean,
      h.seen, h.deletionKeys⟩, rfl, rfl⟩
  · obtain ⟨happlies, htransposes, hcount⟩ := hbatch hnil
    have hsome : ¬ batch.empty = true := fun hempty => hnil (List.isEmpty_iff.mp hempty)
    simp only [if_neg hsome, if_neg hnil]
    refine (collect_spec h.seen h.deletionKeys batch.updates).bind fun final hfinal => ?_
    have hdeleting := hfinal.deleting h.serves
    have hensured := h.clean.ensure le_rfl
    have hclean : Clean (vertexCount engine.graph)
        { engine.work.ensure (vertexCount engine.graph) with touchedLossVertices := [] } :=
      ⟨hensured.affected_length, hensured.lost_length, hensured.counts_length, hensured.affected,
        hensured.lostParentCount, hensured.shortestParentCount⟩
    refine (invalidated_spec h hsource hdeleting hclean _).bind fun result hresult => ?_
    obtain ⟨state, within⟩ := result
    obtain ⟨⟨lost, hlosing⟩, hlocal⟩ := hresult
    dsimp only at hlosing hlocal ⊢
    have hchanged := fun candidates => h.changed hsource happlies htransposes hcount hfinal
      { engine with
        graph := applyUpdates engine.graph batch
        seenFinalUpdates := final.seen
        finalDeletionKeys := final.deletionKeys
        lastDeletionCandidates := candidates
        lastAffectedVertices := state.lastAffectedVertices
        lastUsedFullRecompute := false } rfl rfl
    refine (finish_spec (hchanged _) h.leveled h.exact_dist hfinal.seen.toReusable
      hfinal.deletionKeys.toReusable hlosing
      fun hwithin => hlocal (by simpa using hwithin)).mono fun engine' hengine => ?_
    exact ⟨hengine.1, hengine.2.2, hengine.2.1⟩

end IncrementalBFS

end VeloGraphX
