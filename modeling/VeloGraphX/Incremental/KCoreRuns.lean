import Mathlib
import VeloGraphX.Incremental.EngineSteps
import VeloGraphX.Incremental.KCoreRegion

/-!
# Runs of the k-core engine

The vertices marked before and after a batch are closed under adjacency after it: an arc that was
there before leads from a marked vertex to a marked one, and an arc that is new has its ends
marked as seeds. Outside of them no arc changes, so the old core numbers stay. Every state of a
run has the core numbers of its graph as long as the vertices can be counted by a 32-bit id; with
`2 ^ 32` vertices the loop that fills the heap never ends.
-/

namespace VeloGraphX

open FuelLoop PointUpdate Peeling ArcSet GraphAccess

/-- No vertex is marked at first. -/
theorem markedSet_replicate (n : ℕ) : markedSet (List.replicate n 0) = ∅ := by
  refine Set.eq_empty_of_forall_notMem fun v hv => hv ?_
  rw [List.getD_eq_getElem?_getD, List.getElem?_replicate]
  split <;> rfl

/-- New vertices are not marked. -/
theorem markedSet_resize {marked : List ℕ} {n : ℕ} (hle : marked.length ≤ n) :
    markedSet (resize marked n 0) = markedSet marked := by
  refine Set.ext fun v => ?_
  change (resize marked n 0).getD v 0 ≠ 0 ↔ marked.getD v 0 ≠ 0
  rw [getD_resize hle, ite_self]
  split
  · rfl
  · rw [List.getD_eq_default _ _ (by omega)]

namespace IncrementalKCore

section Correctness

variable {G : Type} [GraphAccess G] {engine : IncrementalKCore G} {arcs : ArcSet}

/-- An engine that holds the core numbers of the arcs its graph answers from. -/
structure Correct (engine : IncrementalKCore G) (arcs : ArcSet) : Prop where
  serves : Serves engine.graph arcs
  undirected : isDirected engine.graph = false
  count_lt : vertexCount engine.graph < 2 ^ 32
  core_length : engine.core.length = vertexCount engine.graph
  labels : ∀ v : VertexId, IsCoreNumber (graphOf arcs) v (engine.core.getD v 0)

/-- `recompute` gives every vertex its core number. -/
theorem recompute_spec (hserves : Serves engine.graph arcs)
    (hundirected : isDirected engine.graph = false) (hcount : vertexCount engine.graph < 2 ^ 32) :
    Returns (fun fuel => engine.recompute fuel) fun engine' =>
      Correct engine' arcs ∧ engine'.graph = engine.graph := by
  have hloopless := hserves.simple.loopless
  have hback := hserves.simple.undirected hundirected
  have hall : ∀ v : VertexId, v.val < vertexCount engine.graph →
      v ∈ markedSet (List.replicate (vertexCount engine.graph) 1) := fun v hv => by
    change (List.replicate (vertexCount engine.graph) 1).getD v 0 ≠ 0
    rw [List.getD_replicate _ hv]
    exact one_ne_zero
  unfold recompute
  refine (recomputeRegion_spec { engine with
    core := List.replicate (vertexCount engine.graph) 0 } hserves hback hcount
    List.length_replicate (fun u _ v huv => hall v (hserves.simple.within u v huv).2)
    List.length_replicate.le fun v hv => ?_).mono fun engine' hengine => ?_
  · change IsCoreNumber (graphOf arcs) v
      ((List.replicate (vertexCount engine.graph) 0).getD v 0)
    rw [List.getD_eq_default _ _ (by rw [List.length_replicate]; exact not_lt.mp (mt (hall v) hv))]
    refine isCoreNumber_of_isolated fun w hadj => hv (hall v ?_)
    exact (hserves.simple.within v w ((graphOf_adj hback hloopless).mp hadj)).1
  · obtain ⟨hgraph, hlength, hlabels⟩ := hengine
    exact ⟨⟨hgraph ▸ hserves, hgraph ▸ hundirected, hgraph ▸ hcount, hgraph ▸ hlength, hlabels⟩,
      hgraph⟩

/-- Where the vertices cannot be counted, filling the heap does not end. -/
theorem recomputeRegion_diverges (hcount : 2 ^ 32 ≤ vertexCount engine.graph) (affected : List ℕ) :
    Diverges fun fuel => engine.recomputeRegion fuel affected :=
  Diverges.bind (diverges_countLoop hcount _ _ _)

/-- The region that a batch marks: it is closed under adjacency after the batch, and no arc
outside of it changes. -/
theorem marked_spec {batch : UpdateBatch} {n m : ℕ} {M M' : Set VertexId}
    (hold : Simple false n arcs) (hnew : Simple false m (applyAll false arcs batch.updates))
    (hle : n ≤ m) (hspread : Spreads arcs ∅ M)
    (hspread' : Spreads (applyAll false arcs batch.updates) M M')
    (hends : ∀ op ∈ batch.updates,
      (op.src.val < m → op.src ∈ M') ∧ (op.dst.val < m → op.dst ∈ M')) :
    (∀ u ∈ M', ∀ v, (u, v) ∈ applyAll false arcs batch.updates → v ∈ M') ∧
      ∀ u, u ∉ M' → ∀ v, (u, v) ∈ arcs ↔ (u, v) ∈ applyAll false arcs batch.updates := by
  -- an arc that changes has both ends marked
  have hchanged : ∀ u v, ¬ ((u, v) ∈ arcs ↔ (u, v) ∈ applyAll false arcs batch.updates) →
      u ∈ M' ∧ v ∈ M' := by
    intro u v hne
    have hpresent : present (applyAll false arcs batch.updates) u v ≠ present arcs u v :=
      fun heq => hne (by rw [← present_eq_true, ← present_eq_true, heq])
    have hlt : u.val < m ∧ v.val < m := by
      by_cases harc : (u, v) ∈ arcs
      · have hn := hold.within u v harc
        exact ⟨hn.1.trans_le hle, hn.2.trans_le hle⟩
      · refine hnew.within u v ?_
        by_contra hnot
        exact hne (iff_of_false harc hnot)
    obtain ⟨op, hop, hsome⟩ := exists_writeOn hpresent
    obtain ⟨b, hb⟩ := Option.isSome_iff_exists.mp hsome
    obtain ⟨-, -, haddressed⟩ := writeOn_undirected.mp hb
    rcases haddressed with ⟨rfl, rfl⟩ | ⟨rfl, rfl⟩
    · exact ⟨(hends op hop).1 hlt.1, (hends op hop).2 hlt.2⟩
    · exact ⟨(hends op hop).2 hlt.1, (hends op hop).1 hlt.2⟩
  refine ⟨fun u hu v harc => ?_, fun u hu v => ?_⟩
  · by_cases hfirst : u ∈ M
    · by_cases hwas : (u, v) ∈ arcs
      · exact hspread'.subset (hspread.closed u hfirst (Set.notMem_empty u) v hwas)
      · exact (hchanged u v fun hiff => hwas (hiff.mpr harc)).2
    · exact hspread'.closed u hu hfirst v harc
  · by_contra hne
    exact hu (hchanged u v hne).1

/-- A batch keeps the engine right as long as the vertices can be counted. -/
theorem Correct.apply (h : Correct engine arcs) {batch : UpdateBatch}
    (happlies : Applies engine.graph arcs batch)
    (hcount : vertexCount (applyUpdates engine.graph batch) < 2 ^ 32) :
    Returns (fun fuel => engine.apply fuel batch) fun engine' =>
      Correct engine' (applyAll false arcs batch.updates) ∧
        engine'.graph = if batch.empty then engine.graph else applyUpdates engine.graph batch := by
  unfold IncrementalKCore.apply
  by_cases hempty : batch.empty = true
  · have hnil : batch.updates = [] := List.isEmpty_iff.mp hempty
    simp only [if_pos hempty, hnil]
    exact Returns.pure ⟨⟨h.serves, h.undirected, h.count_lt, h.core_length, h.labels⟩, rfl⟩
  simp only [if_neg hempty]
  have hserves := happlies.serves
  rw [h.undirected] at hserves
  have hsimple := h.serves.simple
  rw [h.undirected] at hsimple
  have hsimple' := hserves.simple
  rw [happlies.directed, h.undirected] at hsimple'
  have hback := hsimple.undirected rfl
  have hback' := hsimple'.undirected rfl
  refine (markAllEnds_spec h.serves rfl List.length_replicate _).bind fun affected haffected => ?_
  obtain ⟨hlength, hspread, -⟩ := haffected
  rw [markedSet_replicate] at hspread
  refine (markAllEnds_spec hserves rfl (length_resize _ _ _) _).bind fun affected' haffected' => ?_
  obtain ⟨hlength', hspread', hends⟩ := haffected'
  rw [markedSet_resize (hlength.le.trans happlies.vertexCount_le)] at hspread'
  obtain ⟨hclosed, hagree⟩ := marked_spec hsimple hsimple' happlies.vertexCount_le hspread hspread'
    hends
  obtain ⟨hcore, hread⟩ := grownCore engine.core (h.core_length.le.trans happlies.vertexCount_le)
  have hlabels : ∀ v, v ∉ markedSet affected' →
      IsCoreNumber (graphOf (applyAll false arcs batch.updates)) v (engine.core.getD v 0) := by
    intro v hv
    refine (h.labels v).of_agree (C := (markedSet affected')ᶜ) (fun u hu w hadj hw => hu ?_)
      (fun u hu w => ?_) hv
    · have harc := (graphOf_adj hback hsimple.loopless).mp hadj
      exact hclosed w hw u (hback' u w ((hagree u hu w).mp harc))
    · rw [graphOf_adj hback hsimple.loopless, graphOf_adj hback' hsimple'.loopless]
      exact hagree u hu w
  generalize (if engine.core.length < vertexCount (applyUpdates engine.graph batch) then
    resize engine.core (vertexCount (applyUpdates engine.graph batch)) 0 else engine.core) = core
    at hcore hread ⊢
  refine (recomputeRegion_spec { engine with graph := applyUpdates engine.graph batch, core := core }
    hserves hback' hcount hlength' hclosed hcore.le fun v hv => ?_).mono fun engine' hengine => ?_
  · change IsCoreNumber _ v (core.getD v 0)
    rw [hread]
    exact hlabels v hv
  · obtain ⟨hgraph, hlast, hright⟩ := hengine
    exact ⟨⟨hgraph ▸ hserves, hgraph ▸ happlies.directed.trans h.undirected, hgraph ▸ hcount,
      hgraph ▸ hlast, hright⟩, hgraph⟩

/-- A batch after which the vertices cannot be counted does not end. -/
theorem Correct.apply_starves (h : Correct engine arcs) {batch : UpdateBatch}
    (happlies : Applies engine.graph arcs batch) (hempty : batch.empty = false)
    (hcount : 2 ^ 32 ≤ vertexCount (applyUpdates engine.graph batch)) :
    Starves fun fuel => engine.apply fuel batch := by
  unfold IncrementalKCore.apply
  simp only [hempty, Bool.false_eq_true, if_false]
  refine (markAllEnds_spec h.serves rfl List.length_replicate _).starves_bind
    fun affected haffected => ?_
  refine (markAllEnds_spec happlies.serves rfl (length_resize _ _ _) _).starves_bind
    fun affected' haffected' => ?_
  exact (recomputeRegion_diverges hcount affected').starves

/-- The engine has one label for each vertex, the largest minimum degree of a subgraph of the
current graph that the vertex lies in. -/
def Right (engine : IncrementalKCore G) : Prop :=
  engine.core.length = vertexCount engine.graph ∧
    ∀ v : VertexId, v.val < vertexCount engine.graph → ∃ k, engine.core[v.val]? = some k ∧
      IsCoreNumber (SimpleGraph.fromRel fun p q => q ∈ forEachNeighbor engine.graph p) v k

/-- A correct engine is right about its graph. -/
theorem Correct.right (h : Correct engine arcs) : Right engine := by
  refine ⟨h.core_length, fun v hv => ⟨engine.core.getD v 0, ?_, ?_⟩⟩
  · have hlt : v.val < engine.core.length := h.core_length.symm ▸ hv
    rw [List.getD_eq_getElem _ _ hlt, List.getElem?_eq_getElem hlt]
  · rw [h.serves.fromRel_eq]
    exact h.labels v

end Correctness

variable {D : Type} [DoubleArith D]

/-- Execute a step. -/
def exec (fuel : ℕ) (engine : IncrementalKCore (DynamicGraph D)) :
    EngineStep D → Option (IncrementalKCore (DynamicGraph D))
  | .apply batch => engine.apply fuel batch
  | .maybeCompact threshold =>
    some { engine with graph := (engine.graph.maybeCompact threshold).2 }
  | .compact => some { engine with graph := engine.graph.compact }

/-- Construct an engine and execute a run. -/
def run (fuel : ℕ) (g : DynamicGraph D) (steps : List (EngineStep D)) :
    Option (Except Exception (IncrementalKCore (DynamicGraph D))) :=
  engineRun (create fuel g) (exec fuel) steps

variable {engine : IncrementalKCore (DynamicGraph D)} {arcs : ArcSet}

/-- A state of a run: the engine is right about a graph that represents the arcs. -/
structure Sound (engine : IncrementalKCore (DynamicGraph D)) (arcs : ArcSet) : Prop where
  correct : Correct engine arcs
  refines : DynamicGraph.Refines engine.graph arcs

/-- A compaction of the graph keeps the engine right. -/
theorem Sound.maintained (h : Sound engine arcs) {g' : DynamicGraph D}
    (hrefines : DynamicGraph.Refines g' arcs) (hcount : g'.vertexCount = engine.graph.vertexCount)
    (hdirected : g'.directed = false) : Sound { engine with graph := g' } arcs := by
  have hlength := h.correct.core_length
  have hlt := h.correct.count_lt
  change engine.core.length = engine.graph.vertexCount at hlength
  change engine.graph.vertexCount < 2 ^ 32 at hlt
  rw [← hcount] at hlength hlt
  exact ⟨⟨hrefines.serves, hdirected, hlt, hlength, h.correct.labels⟩, hrefines⟩

/-- One step keeps the engine right as long as the vertices can be counted. -/
theorem Sound.exec (h : Sound engine arcs) (step : EngineStep D)
    (hcount : growAll engine.graph.vertexCount step.updates < 2 ^ 32) :
    Returns (fun fuel => exec fuel engine step) fun engine' =>
      Sound engine' (applyAll false arcs step.updates) ∧
        engine'.graph = step.graphAfter engine.graph ∧
        engine'.graph.vertexCount = growAll engine.graph.vertexCount step.updates := by
  have hundirected : engine.graph.directed = false := h.correct.undirected
  obtain ⟨hrefines, hgrown, hdirected⟩ := h.refines.step step
  rw [hundirected] at hrefines hdirected
  cases step with
  | apply batch =>
    have happlied := h.correct.apply (h.refines.applies batch) (hgrown.le.trans_lt hcount)
    refine happlied.mono fun engine' hengine => ?_
    obtain ⟨hcorrect, hgraph⟩ := hengine
    have hsame : engine'.graph = engine.graph.apply batch :=
      hgraph.trans (DynamicGraph.handedOn_eq engine.graph batch)
    refine ⟨⟨hcorrect, ?_⟩, hsame, ?_⟩
    · rw [hsame]
      exact hrefines
    · rw [hsame]
      exact hgrown
  | maybeCompact threshold =>
    exact Returns.pure ⟨h.maintained hrefines hgrown hdirected, rfl, hgrown⟩
  | compact => exact Returns.pure ⟨h.maintained hrefines hgrown hdirected, rfl, hgrown⟩

/-- The k-core engine counts the vertices. -/
theorem countsVertices : CountsVertices IncrementalKCore.graph EngineStep.updates
    EngineStep.graphAfter exec
    fun engine : IncrementalKCore (DynamicGraph D) => ∃ arcs, Sound engine arcs := by
  refine ⟨fun engine hsound => ?_, fun engine step hsound hcount => ?_,
    fun engine step hsound hcount => ?_⟩ <;> obtain ⟨arcs, hsound⟩ := hsound
  · exact hsound.correct.count_lt
  · exact (hsound.exec step hcount).mono fun next hnext => ⟨⟨_, hnext.1⟩, hnext.2⟩
  · have hlt : engine.graph.vertexCount < 2 ^ 32 := hsound.correct.count_lt
    cases step with
    | apply batch =>
      have hgrown := (hsound.refines.apply batch).2.1
      change 2 ^ 32 ≤ growAll engine.graph.vertexCount batch.updates at hcount
      have hlast := hcount.trans hgrown.ge
      exact hsound.correct.apply_starves (hsound.refines.applies batch)
        (DynamicGraph.batch_nonempty_of_growth (hlt.trans_le hlast)) hlast
    | maybeCompact threshold => exact absurd hlt (not_lt.mpr hcount)
    | compact => exact absurd hlt (not_lt.mpr hcount)

/-- The constructor on a reachable undirected graph. -/
theorem constructs {g : DynamicGraph D} (h : DynamicGraph.Refines g arcs)
    (hundirected : g.directed = false) :
    Constructs IncrementalKCore.graph (fun engine => ∃ arcs, Sound engine arcs)
      (fun fuel => create fuel g) g (2 ^ 32) := by
  have hcreate : ∀ fuel, create fuel g = (recompute { graph := g } fuel).map .ok := fun fuel => by
    unfold create
    rw [show isDirected g = false from hundirected]
    rfl
  constructor <;> intro hcount <;> simp only [hcreate]
  · have hrecompute := @recompute_spec (DynamicGraph D) _ { graph := g } arcs h.serves hundirected
      hcount
    refine Returns.map (hrecompute.mono fun engine hengine => ?_)
    exact ⟨engine, rfl, ⟨arcs, hengine.1, hengine.2.symm ▸ h⟩, hengine.2⟩
  · exact (Diverges.map (recomputeRegion_diverges hcount _)).starves

/-- Every state of a run is right exactly when no state has `2 ^ 32` vertices. -/
theorem core_right_iff (vertices : ℕ) (calls : List (Call D)) (steps : List (EngineStep D)) :
    let g := Call.run (DynamicGraph.create vertices false) calls
    (∀ k, Returns (fun fuel => run fuel g (steps.take k)) fun result =>
        ∃ engine, result = .ok engine ∧
          engine.graph = (steps.take k).foldl EngineStep.graphAfter g ∧ Right engine) ↔
      growAll g.vertexCount (steps.flatMap EngineStep.updates) < 2 ^ 32 := by
  dsimp only
  obtain ⟨hrefines, hundirected⟩ := (DynamicGraph.refines_create vertices false).1.run calls
  generalize Call.run (DynamicGraph.create vertices false) calls = g at hrefines hundirected ⊢
  change g.directed = false at hundirected
  refine (countsVertices.engineRun_iff (constructs hrefines hundirected) (fun engine hsound => ?_)
    steps).trans (and_iff_right_of_imp (le_growAll _ _).trans_lt)
  obtain ⟨arcs, hsound⟩ := hsound
  exact hsound.correct.right

/-- A batch that makes the last id a vertex does not end. -/
theorem not_core_right :
    ¬ ∀ (vertices : ℕ) (calls : List (Call ℚ)) (steps : List (EngineStep ℚ)) (k : ℕ),
      let g := Call.run (DynamicGraph.create vertices false) calls
      Returns (fun fuel => run fuel g (steps.take k)) fun result =>
        ∃ engine, result = .ok engine ∧
          engine.graph = (steps.take k).foldl EngineStep.graphAfter g ∧ Right engine := by
  intro h
  have hcount := (@DynamicGraph.refines_create ℚ 1 false).2
  have hstarves := countsVertices.engineRun_starves
    (constructs (@DynamicGraph.refines_create ℚ 1 false).1 rfl)
    [.apply ⟨[⟨0, 4294967295, true, 0⟩]⟩] (by rw [hcount]; decide)
  exact hstarves.not_returns (h 1 [] [.apply ⟨[⟨0, 4294967295, true, 0⟩]⟩] 1)

end IncrementalKCore

end VeloGraphX
