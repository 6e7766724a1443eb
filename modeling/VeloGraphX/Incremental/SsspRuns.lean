import Mathlib
import VeloGraphX.Incremental.BfsRuns
import VeloGraphX.Incremental.Sssp

/-!
# Agreement of the two unit-weight engines

The engine with 64-bit costs and the one with 32-bit levels are driven by the same batches on
equal graphs. Both are exact for the walks of the current graph, whose lengths stay below both
values that stand for infinity, so they agree after every batch.
-/

namespace VeloGraphX

open FuelLoop ShortestPath ArcSet GraphAccess

/-- The arcs after a sequence of batches. -/
def arcsAfter (directed : Bool) (arcs : ArcSet) (batches : List UpdateBatch) : ArcSet :=
  batches.foldl (fun arcs batch => applyAll directed arcs batch.updates) arcs

/-- The vertex count after a sequence of batches. -/
def countAfter (n : ℕ) (batches : List UpdateBatch) : ℕ :=
  batches.foldl (fun n batch => growAll n batch.updates) n

/-- Vertices never disappear. -/
theorem le_countAfter (n : ℕ) (batches : List UpdateBatch) : n ≤ countAfter n batches := by
  induction batches generalizing n with
  | nil => exact le_rfl
  | cons batch rest ih => exact (le_growAll n batch.updates).trans (ih _)

section Graphs

variable {D : Type} [DoubleArith D] {g : DynamicGraph D} {arcs : ArcSet}

/-- A batch given to the breadth-first engine does to the graph what it asks for, also when it is
empty and does not reach the graph. -/
theorem DynamicGraph.Refines.graphAfter (h : DynamicGraph.Refines g arcs) (batch : UpdateBatch) :
    DynamicGraph.Refines ((BfsStep.apply batch).graphAfter g)
        (applyAll g.directed arcs batch.updates) ∧
      ((BfsStep.apply batch).graphAfter g).vertexCount = growAll g.vertexCount batch.updates ∧
      ((BfsStep.apply batch).graphAfter g).directed = g.directed := by
  unfold BfsStep.graphAfter BfsStep.reaches UpdateBatch.empty
  by_cases hnil : batch.updates = []
  · rw [if_neg (by simpa using hnil), hnil]
    exact ⟨h, rfl, rfl⟩
  · rw [if_pos (by simpa using hnil)]
    obtain ⟨hrefines, hcount, hdirected, -⟩ := h.apply batch
    exact ⟨hrefines, hcount, hdirected⟩

/-- The graph of the breadth-first engine after a sequence of batches. -/
theorem DynamicGraph.Refines.foldl_graphAfter (h : DynamicGraph.Refines g arcs)
    (batches : List UpdateBatch) :
    DynamicGraph.Refines ((batches.map BfsStep.apply).foldl BfsStep.graphAfter g)
        (arcsAfter g.directed arcs batches) ∧
      ((batches.map BfsStep.apply).foldl BfsStep.graphAfter g).vertexCount =
        countAfter g.vertexCount batches := by
  induction batches generalizing g arcs with
  | nil => exact ⟨h, rfl⟩
  | cons batch rest ih =>
    obtain ⟨hrefines, hcount, hdirected⟩ := h.graphAfter batch
    obtain ⟨hrest, hcount'⟩ := ih hrefines
    rw [hdirected] at hrest
    exact ⟨hrest, hcount'.trans (by rw [hcount]; rfl)⟩

/-- A run of batches is lawful when the views stay transposed. -/
theorem DynamicGraph.Refines.lawful (h : DynamicGraph.Refines g arcs) {batches : List UpdateBatch}
    (hviews : ∀ k, Transposed (((batches.take k).map BfsStep.apply).foldl BfsStep.graphAfter g)) :
    Lawful g (batches.map BfsStep.apply) := by
  induction batches generalizing g arcs with
  | nil => exact hviews 0
  | cons batch rest ih =>
    refine ⟨hviews 0, fun _ => h.updates batch, ih (h.graphAfter batch).1 fun k => ?_⟩
    exact hviews (k + 1)

end Graphs

namespace IncrementalSSSP

variable {D : Type} [DoubleArith D] {engine : IncrementalSSSP (DynamicGraph D)} {arcs : ArcSet}

/-- A batch reaches the graph of the engine and nothing else but the distances. -/
theorem graph_apply (batch : UpdateBatch) :
    (engine.apply batch).graph = engine.graph.apply batch ∧
      (engine.apply batch).source = engine.source := by
  unfold IncrementalSSSP.apply
  dsimp only
  split <;> exact ⟨rfl, rfl⟩

/-- After every batch the distances are exact in the graph after the batch. -/
theorem Correct.foldl (h : Correct engine arcs) (hrefines : DynamicGraph.Refines engine.graph arcs)
    (hsource : engine.source.val < engine.graph.vertexCount) (batches : List UpdateBatch) :
    Correct (batches.foldl IncrementalSSSP.apply engine)
        (arcsAfter engine.graph.directed arcs batches) ∧
      (batches.foldl IncrementalSSSP.apply engine).graph.vertexCount =
        countAfter engine.graph.vertexCount batches ∧
      (batches.foldl IncrementalSSSP.apply engine).source = engine.source := by
  induction batches generalizing engine arcs with
  | nil => exact ⟨h, rfl, rfl⟩
  | cons batch rest ih =>
    obtain ⟨hgraph, hkept⟩ := @graph_apply D _ engine batch
    obtain ⟨hnext, hcount, hdirected, -⟩ := hrefines.apply batch
    have hcorrect := h.apply hsource (hrefines.applies batch)
    change Correct (engine.apply batch) (applyAll engine.graph.directed arcs batch.updates) at hcorrect
    have hlt : (engine.apply batch).source.val < (engine.apply batch).graph.vertexCount := by
      rw [hgraph, hkept, hcount]
      exact hsource.trans_le (le_growAll _ _)
    obtain ⟨hrest, hcount', hkept'⟩ := ih hcorrect (hgraph ▸ hnext) hlt
    rw [hgraph, hdirected] at hrest
    rw [hgraph, hcount] at hcount'
    exact ⟨hrest, hcount', hkept'.trans hkept⟩

end IncrementalSSSP

/-- Both engines, driven by the same batches on equal graphs with transposed in-rows, hold as many
distances, equal ones where finite, and infinities at the same vertices. -/
theorem distances_agree {D : Type} [DoubleArith D] (vertices : ℕ) (directed : Bool)
    (calls : List (Call D)) (source : VertexId) (fraction : D) (batches : List UpdateBatch)
    (hsource : source.val < (Call.run (DynamicGraph.create vertices directed) calls).vertexCount)
    (hviews : ∀ k, Transposed (((batches.take k).map BfsStep.apply).foldl BfsStep.graphAfter
      (Call.run (DynamicGraph.create vertices directed) calls))) :
    Returns (fun fuel => IncrementalBFS.run fuel
        (Call.run (DynamicGraph.create vertices directed) calls) source fraction
        (batches.map BfsStep.apply)) fun bfs =>
      let sssp := batches.foldl IncrementalSSSP.apply
        (IncrementalSSSP.create (Call.run (DynamicGraph.create vertices directed) calls) source)
      sssp.dist.length = bfs.levels.dist.length ∧
        ∀ v : VertexId, v.val < sssp.dist.length →
          (sssp.dist.getD v 0 = kDijkstraInf ↔ bfs.levels.dist.getD v 0 = unreachable) ∧
          (sssp.dist.getD v 0 ≠ kDijkstraInf → sssp.dist.getD v 0 = bfs.levels.dist.getD v 0) := by
  obtain ⟨arcs, h⟩ : ∃ arcs, DynamicGraph.Refines
      (Call.run (DynamicGraph.create vertices directed : DynamicGraph D) calls) arcs :=
    ⟨_, ((DynamicGraph.refines_create vertices directed).1.run calls).1⟩
  generalize Call.run (DynamicGraph.create vertices directed) calls = g at h hsource hviews ⊢
  obtain ⟨hrefines, hcount⟩ := h.foldl_graphAfter batches
  have hcreated : IncrementalSSSP.Correct (IncrementalSSSP.create g source) arcs :=
    IncrementalSSSP.correct_recompute h.serves
  obtain ⟨hsssp, hcount', hkept⟩ := hcreated.foldl h hsource batches
  generalize batches.foldl IncrementalSSSP.apply (IncrementalSSSP.create g source) = sssp
    at hsssp hcount' hkept
  change sssp.graph.vertexCount = countAfter g.vertexCount batches at hcount'
  change IncrementalSSSP.Correct sssp (arcsAfter g.directed arcs batches) at hsssp
  change sssp.source = source at hkept
  refine (IncrementalBFS.run_spec hsource fraction (h.lawful hviews)).mono fun bfs hbfs => ?_
  obtain ⟨hbfs, hkept', hgraph, hlt⟩ := hbfs
  have harcs : arcsOf bfs.graph = arcsAfter g.directed arcs batches :=
    hgraph ▸ hrefines.serves.arcsOf_eq
  have hvertices : vertexCount bfs.graph = sssp.graph.vertexCount :=
    hcount'.symm ▸ hgraph ▸ hcount
  have hexact := hbfs.exact_dist
  rw [harcs, hkept', hvertices] at hexact
  have hexact' := hsssp.exact_dist
  rw [hkept] at hexact'
  have hlength : sssp.dist.length = bfs.levels.dist.length :=
    hsssp.length_eq.trans (hvertices.symm.trans hbfs.leveled.length_eq.symm)
  have hwithin := hsssp.serves.simple.within
  refine ⟨hlength, fun v hv => ?_⟩
  have hbound : ∀ c, Walk (startAt source sssp.graph.vertexCount)
      (unitArc (arcsAfter g.directed arcs batches)) v c →
      label kDijkstraInf sssp.dist v < kDijkstraInf ∧ bfs.levels.labels v < unreachable := by
    intro c hwalk
    have hlt : bfs.levels.labels v < sssp.graph.vertexCount :=
      lt_count_of_walk hwithin hexact hwalk
    have hlt' : label kDijkstraInf sssp.dist v < sssp.graph.vertexCount :=
      lt_count_of_walk hwithin hexact' hwalk
    have hcap := hbfs.count_lt
    have hcaps : unreachable ≤ kDijkstraInf := by decide
    omega
  have hagree := hexact'.agree hexact hbound
  rw [label_eq_getD kDijkstraInf hv 0, ← hbfs.leveled.getD_eq
    (hbfs.leveled.length_eq ▸ hlength ▸ hv)] at hagree
  exact hagree

/-- The distances of both engines after one insertion into a graph with three vertices. -/
theorem distances_agree_insert :
    Returns (fun fuel => IncrementalBFS.run fuel
        (Call.run (DynamicGraph.create 3 true : DynamicGraph ℚ) []) 0 (0.35 : ℚ)
        ([⟨[⟨0, 1, true, 0⟩]⟩].map BfsStep.apply)) fun bfs =>
      bfs.levels.dist = [0, 1, unreachable] ∧
        ([⟨[⟨0, 1, true, 0⟩]⟩].foldl IncrementalSSSP.apply (IncrementalSSSP.create
          (Call.run (DynamicGraph.create 3 true : DynamicGraph ℚ) []) 0)).dist =
            [0, 1, kDijkstraInf] := by
  have hstart := @DynamicGraph.mirrored_create ℚ 3 true
  have hcount := (@DynamicGraph.refines_create ℚ 3 true).2
  obtain ⟨hafter, hgrown⟩ := DynamicGraph.mirrored_first ℚ
  have hsssp : ([⟨[⟨0, 1, true, 0⟩]⟩].foldl IncrementalSSSP.apply (IncrementalSSSP.create
      (Call.run (DynamicGraph.create 3 true : DynamicGraph ℚ) []) 0)).dist =
        [0, 1, kDijkstraInf] := by decide +kernel
  refine (distances_agree 3 true ([] : List (Call ℚ)) 0 (0.35 : ℚ) [⟨[⟨0, 1, true, 0⟩]⟩] ?_
    fun k => ?_).mono fun bfs hbfs => ⟨?_, hsssp⟩
  · change (0 : VertexId).val < (DynamicGraph.create 3 true : DynamicGraph ℚ).vertexCount
    rw [hcount]
    decide
  · cases k with
    | zero =>
      refine hstart.transposed ?_
      rw [hcount]
      decide
    | succ k =>
      rw [List.take_succ_cons, List.take_nil]
      refine hafter.transposed ?_
      rw [hgrown]
      decide
  · obtain ⟨hlength, hagree⟩ := hbfs
    rw [hsssp] at hlength hagree
    obtain ⟨a, b, c, habc⟩ := List.length_eq_three.mp hlength.symm
    rw [habc] at hagree ⊢
    have ha : a = 0 := ((hagree 0 (by decide)).2 (by decide)).symm
    have hb : b = 1 := ((hagree 1 (by decide)).2 (by decide)).symm
    have hc : c = unreachable := (hagree 2 (by decide)).1.mp rfl
    rw [ha, hb, hc]

end VeloGraphX
