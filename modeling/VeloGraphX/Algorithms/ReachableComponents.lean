import Mathlib
import VeloGraphX.Algorithms.StaticBfs
import VeloGraphX.Algorithms.StaticComponents
import VeloGraphX.Incremental.ComponentRuns

/-!
# What a source reaches is its component

In an undirected graph the vertices at a finite level of a breadth-first engine, the vertices that the
component engine has in one set with the source, and the vertices with the source's static label are the
same. The three are computed by different code from different copies of the graph.
-/

namespace VeloGraphX

open FuelLoop ShortestPath ArcSet GraphAccess

/-- Walks from a source lead along the arcs. -/
theorem exists_walk_iff {arcs : ArcSet} {source v : VertexId} :
    (∃ c, Walk {source} (unitArc arcs) v c) ↔
      Relation.ReflTransGen (fun p q => (p, q) ∈ arcs) source v := by
  constructor
  · rintro ⟨c, hwalk⟩
    induction hwalk with
    | nil hv =>
      rw [Set.mem_singleton_iff.mp hv]
    | snoc _ harc ih => exact ih.tail harc.2
  · intro hpath
    induction hpath with
    | refl => exact ⟨0, .nil rfl⟩
    | tail _ harc ih =>
      obtain ⟨c, hwalk⟩ := ih
      exact ⟨c + 1, .snoc hwalk ⟨rfl, harc⟩⟩

/-- A path from a vertex stays in the graph. -/
theorem path_within {arcs : ArcSet} {n : ℕ} (hwithin : Within n arcs) {source v : VertexId}
    (hsource : source.val < n) (h : Relation.ReflTransGen (fun p q => (p, q) ∈ arcs) source v) :
    v.val < n := by
  cases h with
  | refl => exact hsource
  | tail _ harc => exact (hwithin _ _ harc).2

/-- In an undirected graph paths along the arcs are paths of its simple graph. -/
theorem reachable_iff_path {arcs : ArcSet} (hundirected : Undirected arcs) (hloopless : Loopless arcs)
    {u v : VertexId} : (graphOf arcs).Reachable u v ↔
      Relation.ReflTransGen (fun p q => (p, q) ∈ arcs) u v := by
  have hadj : (graphOf arcs).Adj = fun p q => (p, q) ∈ arcs :=
    funext fun p => funext fun q => propext (graphOf_adj hundirected hloopless)
  rw [SimpleGraph.reachable_iff_reflTransGen, hadj]

/-- A vertex is at a finite level exactly when the source reaches it. -/
theorem finite_iff_path {G D : Type} [GraphAccess G] {engine : IncrementalBFS G D} {arcs : ArcSet}
    (h : engine.Correct arcs) (hsource : engine.source.val < vertexCount engine.graph) {v : VertexId}
    (hv : v.val < vertexCount engine.graph) : engine.levels.dist.getD v 0 ≠ unreachable ↔
      Relation.ReflTransGen (fun p q => (p, q) ∈ arcs) engine.source v := by
  rw [h.leveled.getD_eq hv, ← exists_walk_iff, ← startAt_eq_singleton hsource]
  refine ⟨fun hne => ⟨_, h.exact_dist.walk v (lt_of_le_of_ne (h.exact_dist.le_cap v) hne)⟩,
    fun ⟨c, hwalk⟩ => ?_⟩
  have hlt := lt_count_of_walk h.serves.simple.within h.exact_dist hwalk
  exact (hlt.trans h.count_lt).ne

/-- A run of the component engine ends with an engine that is right about the last graph. -/
theorem components_run_right {D : Type} [DoubleArith D] (vertices : ℕ) (calls : List (Call D))
    (steps : List (ComponentStep D))
    (hsmall : (Call.run (DynamicGraph.create vertices false) calls).vertexCount < 2 ^ 31)
    (hfits : growAll (Call.run (DynamicGraph.create vertices false) calls).vertexCount
      (steps.flatMap ComponentStep.updates) < 2 ^ 32) :
    Returns (fun fuel => IncrementalComponents.run fuel
        (Call.run (DynamicGraph.create vertices false) calls) steps) fun result =>
      ∃ engine, result = .ok engine ∧ engine.graph = steps.foldl ComponentStep.graphAfter
        (Call.run (DynamicGraph.create vertices false) calls) ∧ engine.Right := by
  obtain ⟨hrefines, hundirected⟩ := (DynamicGraph.refines_create vertices false).1.run calls
  have hall := (IncrementalComponents.countsVertices.engineRun_iff
    (IncrementalComponents.constructs hrefines hundirected) (fun engine hsound => by
      obtain ⟨arcs, hsound⟩ := hsound
      exact hsound.correct.right) steps).mpr ⟨hsmall, hfits⟩ steps.length
  rwa [List.take_length] at hall

/-- How many vertices have a label. -/
theorem ncard_label {n : ℕ} {labels : List VertexId} (hlength : labels.length = n)
    (hn : n ≤ 2 ^ 32) (l : VertexId) :
    {v : VertexId | v.val < n ∧ labels.getD v 0 = l}.ncard = labels.count l := by
  subst hlength
  have hset : {v : VertexId | v.val < labels.length ∧ labels.getD v 0 = l} =
      (fun i : Fin labels.length => (⟨i.val, i.isLt.trans_le hn⟩ : VertexId)) ''
        {i | labels.get i = l} := by
    ext v
    constructor
    · rintro ⟨hv, heq⟩
      exact ⟨⟨v.val, hv⟩, by rw [← heq, List.getD_eq_getElem _ _ hv]; rfl, rfl⟩
    · rintro ⟨i, hi, rfl⟩
      exact ⟨i.isLt, by rw [List.getD_eq_getElem _ _ i.isLt]; exact hi⟩
  have hinj : Function.Injective
      (fun i : Fin labels.length => (⟨i.val, i.isLt.trans_le hn⟩ : VertexId)) :=
    fun i j heq => Fin.ext (Fin.mk.inj_iff.mp heq)
  rw [hset, Set.ncard_image_of_injective _ hinj, Set.ncard_eq_toFinset_card']
  conv_rhs => rw [← List.map_get_finRange labels, List.count, List.countP_map]
  rw [List.countP_eq_length_filter,
    ← List.toFinset_card_of_nodup ((List.nodup_finRange _).filter _)]
  congr 1
  ext i
  simp

variable {G D : Type} [GraphAccess G] [DoubleArith D]

/-- Two runs have come to the undirected graph with the given edges. -/
structure Meet (g : G) (bfsSteps : List BfsStep) (g' : DynamicGraph D)
    (steps : List (ComponentStep D)) (edges : List (VertexId × VertexId)) : Prop where
  bfsArcs : arcsOf (bfsSteps.foldl BfsStep.graphAfter g) = ofEdges false edges
  bfsCount : vertexCount (bfsSteps.foldl BfsStep.graphAfter g) =
    (CsrGraph.create edges false).vertexCount
  componentArcs : arcsOf (steps.foldl ComponentStep.graphAfter g') = ofEdges false edges
  componentCount : vertexCount (steps.foldl ComponentStep.graphAfter g') =
    (CsrGraph.create edges false).vertexCount

/-- What a breadth-first engine, a component engine and the static labels say of the vertices that the
source reaches. -/
structure ReachAlike (n : ℕ) (source : VertexId) (bfs : IncrementalBFS G D)
    (components : IncrementalComponents (DynamicGraph D)) (labels : List VertexId) : Prop where
  label : ∀ v : VertexId, v.val < n →
    (bfs.levels.dist.getD v 0 ≠ unreachable ↔ labels.getD v 0 = labels.getD source 0)
  same : ∀ v : VertexId, v.val < n →
    components.ReturnsOneRootIff source v (bfs.levels.dist.getD v 0 ≠ unreachable)
  count : bfs.levels.reachableCount = labels.count (labels.getD source 0)

/-- Whatever runs have led the engines to one undirected graph, the vertices at a finite level are those
for which `component` returns the source's root and those with its static label, and the engine's count
is how many there are. -/
theorem reaches_component {g : G} {source : VertexId} (hsource : source.val < vertexCount g)
    (fraction : D) {bfsSteps : List BfsStep} (hlawful : Lawful g bfsSteps) (vertices : ℕ)
    (calls : List (Call D)) (steps : List (ComponentStep D))
    (hsmall : (Call.run (DynamicGraph.create vertices false) calls).vertexCount < 2 ^ 31)
    (hfits : growAll (Call.run (DynamicGraph.create vertices false) calls).vertexCount
      (steps.flatMap ComponentStep.updates) < 2 ^ 32) {edges : List (VertexId × VertexId)}
    (hmeet : Meet g bfsSteps (Call.run (DynamicGraph.create vertices false) calls) steps edges) :
    Returns (fun fuel => (IncrementalBFS.run fuel g source fraction bfsSteps).bind fun bfs =>
        (IncrementalComponents.run fuel (Call.run (DynamicGraph.create vertices false) calls)
          steps).bind fun components =>
            (StaticComponents.connectedComponents (CsrGraph.create edges false) fuel).map
              fun labels => (bfs, components, labels))
      fun last => ∃ components labels, last.2.1 = .ok components ∧ last.2.2 = .ok labels ∧
        ReachAlike (CsrGraph.create edges false).vertexCount source last.1 components labels := by
  obtain ⟨hbfsArcs, hbfsCount, hcomponentArcs, hcomponentCount⟩ := hmeet
  have hholds := CsrGraph.holds_create edges false
  have hundirected : Undirected (ofEdges false edges) := hholds.simple.undirected rfl
  refine (IncrementalBFS.run_spec hsource fraction hlawful).bind fun bfs hbfs => ?_
  obtain ⟨hcorrect, rfl, hgraph, hinside⟩ := hbfs
  have hcount : (CsrGraph.create edges false).vertexCount < unreachable := by
    rw [← hbfsCount, ← hgraph]
    exact hcorrect.count_lt
  have hfinite : ∀ v : VertexId, v.val < (CsrGraph.create edges false).vertexCount →
      (bfs.levels.dist.getD v 0 ≠ unreachable ↔
        Relation.ReflTransGen (fun p q => (p, q) ∈ ofEdges false edges) bfs.source v) := by
    intro v hv
    rw [← hbfsCount, ← hgraph] at hv
    rw [finite_iff_path hcorrect hinside hv, hgraph, hbfsArcs]
  have hreached := (hcorrect.dist_spec hinside).2.2
  rw [hgraph, hbfsArcs] at hreached
  rw [hgraph, hbfsCount] at hinside
  refine (components_run_right vertices calls steps hsmall hfits).bind fun result hresult => ?_
  obtain ⟨components, rfl, hcomponentGraph, hright⟩ := hresult
  have hlt : (CsrGraph.create edges false).vertexCount < 2 ^ 32 := hcount.trans (by decide)
  have hlabels : Returns (fun fuel =>
      StaticComponents.connectedComponents (CsrGraph.create edges false) fuel) fun result =>
        ∃ labels, result = .ok labels ∧
          StaticComponents.NumbersComponents (CsrGraph.create edges false) labels := by
    unfold StaticComponents.connectedComponents
    simp only [show (CsrGraph.create edges false).directed = false from rfl, Bool.false_eq_true,
      if_false]
    exact Returns.map ((StaticComponents.returns_components hholds hundirected hlt).mono
      fun state hstate => ⟨_, rfl, hstate.numbersComponents hholds⟩)
  refine Returns.map (hlabels.mono fun result hresult => ?_)
  obtain ⟨labels, rfl, hnumbers⟩ := hresult
  have hlabel : ∀ v : VertexId, v.val < (CsrGraph.create edges false).vertexCount →
      (labels.getD v 0 = labels.getD bfs.source 0 ↔
        Relation.ReflTransGen (fun p q => (p, q) ∈ ofEdges false edges) bfs.source v) := by
    intro v hv
    rw [eq_comm, hnumbers.equal bfs.source v hinside hv, hholds.edgeGraph_eq,
      reachable_iff_path hundirected (hholds.simple.loopless)]
  refine ⟨components, labels, rfl, rfl, fun v hv => (hfinite v hv).trans (hlabel v hv).symm,
    fun v hv => ?_, ?_⟩
  · have hvertices : vertexCount components.graph = (CsrGraph.create edges false).vertexCount := by
      rw [hcomponentGraph, hcomponentCount]
    have harcs : (fun p q => q ∈ forEachNeighbor components.graph p) =
        fun p q : VertexId => (p, q) ∈ ofEdges false edges := by
      rw [← hcomponentArcs, ← hcomponentGraph]
      rfl
    have hsame := hright bfs.source v (hvertices ▸ hinside) (hvertices ▸ hv)
    rwa [harcs, ← propext (hfinite v hv)] at hsame
  · rw [hreached, ← ncard_label hnumbers.length hlt.le]
    refine congrArg Set.ncard (Set.ext fun v => exists_walk_iff.trans ⟨fun hpath => ?_, fun h => ?_⟩)
    · have hv := path_within hholds.simple.within hinside hpath
      exact ⟨hv, (hlabel v hv).mpr hpath⟩
    · exact (hlabel v h.1).mp h.2

/-- The case of one edge, and of engines that have only been constructed. -/
theorem reaches_component_edge :
    Returns (fun fuel => (IncrementalBFS.run fuel (CsrGraph.bulkLoaded [(0, 1)] false) 0 (0.35 : ℚ)
        []).bind fun bfs => (IncrementalComponents.run fuel (Call.run (DynamicGraph.create 0 false)
          [.bulkLoadEdges [(0, 1)]]) ([] : List (ComponentStep ℚ))).bind fun components =>
            (StaticComponents.connectedComponents (CsrGraph.create [(0, 1)] false) fuel).map
              fun labels => (bfs, components, labels))
      fun last => ∃ components labels, last.2.1 = .ok components ∧ last.2.2 = .ok labels ∧
        ReachAlike 2 0 last.1 components labels := by
  obtain ⟨hmirrored, hsame, -⟩ := CsrGraph.bulkLoaded_spec [(0, 1)] false
  have hvertices : (CsrGraph.create [(0, 1)] false).vertexCount = 2 := rfl
  have hcount : (CsrGraph.bulkLoaded [(0, 1)] false).vertexCount = 2 := hsame.symm.trans hvertices
  have harcs := hmirrored.toRefines.serves.arcsOf_eq
  have hsource : (0 : VertexId).val < (CsrGraph.bulkLoaded [(0, 1)] false).vertexCount := by
    rw [hcount]
    decide
  have hsmall : (CsrGraph.bulkLoaded [(0, 1)] false).vertexCount < 2 ^ 31 := by
    rw [hcount]
    decide
  have hlawful : Lawful (CsrGraph.bulkLoaded [(0, 1)] false) ([] : List BfsStep) :=
    hmirrored.transposed (by rw [hcount]; decide)
  exact reaches_component hsource 0.35 hlawful 0 [.bulkLoadEdges [(0, 1)]] [] hsmall
    (hsmall.trans (by norm_num)) ⟨harcs, hsame.symm, harcs, hsame.symm⟩

end VeloGraphX
