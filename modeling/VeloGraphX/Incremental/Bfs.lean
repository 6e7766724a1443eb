import Mathlib
import VeloGraphX.Access.GraphAccess
import VeloGraphX.Incremental.Dijkstra
import VeloGraphX.Incremental.EdgeKey
import VeloGraphX.Incremental.ReusableKeySet

/-!
# Incremental breadth-first distances: the engine

The engine as it is in the source. A batch is reduced to its final operations; the vertices
that lose all their shortest parents are found on the graph before the batch; after the batch
their distances are rebuilt from unaffected neighbours, the final insertions are relaxed, and
decreases are propagated. When too many vertices are affected it recomputes instead. Every
loop whose end is decided by data runs on fuel.
-/

namespace VeloGraphX

open FuelLoop PointUpdate PriorityQueue GraphAccess

/-- `unreachable`. -/
def unreachable : ℕ := 2 ^ 32 - 1

/-- `dist_` and `reachable_count_`, which change together. -/
structure Levels where
  dist : List ℕ
  reachableCount : ℕ

/-- Give a vertex a lower distance, counting it if it was unreachable. -/
def Levels.lower (levels : Levels) (v : VertexId) (distance : ℕ) : Levels :=
  { dist := levels.dist.set v distance
    reachableCount :=
      if levels.dist.getD v 0 = unreachable then addU64 levels.reachableCount 1
      else levels.reachableCount }

/-- The per-vertex arrays that survive a batch. -/
structure Workspace where
  affected : List ℕ := []
  lostParentCount : List ℕ := []
  shortestParentCount : List ℕ := []
  touchedLossVertices : List VertexId := []

/-- `ensure_workspace`. -/
def Workspace.ensure (work : Workspace) (vertices : ℕ) : Workspace :=
  let grow (cells : List ℕ) := if cells.length < vertices then resize cells vertices 0 else cells
  { work with
    affected := grow work.affected
    lostParentCount := grow work.lostParentCount
    shortestParentCount := grow work.shortestParentCount }

/-- Set the cells of the given vertices to zero. -/
def zeroCells (cells : List ℕ) (vertices : List VertexId) : List ℕ :=
  vertices.foldl (fun cells (v : VertexId) => cells.set v 0) cells

/-- `clear_workspace`. -/
def Workspace.clear (work : Workspace) (affectedVertices : List VertexId) : Workspace :=
  { affected := zeroCells work.affected affectedVertices
    lostParentCount := zeroCells work.lostParentCount work.touchedLossVertices
    shortestParentCount := zeroCells work.shortestParentCount work.touchedLossVertices
    touchedLossVertices := [] }

/-- The state of `compute_affected_prebatch`. -/
structure Invalidation where
  work : Workspace
  affectedVertices : List VertexId := []
  invalidate : List VertexId := []
  lastAffectedVertices : ℕ := 0

/-- `is_shortest_parent`. -/
def isShortestParent (dist : List ℕ) (u v : VertexId) : Bool :=
  u < dist.length && v < dist.length && dist.getD u 0 ≠ unreachable &&
    dist.getD v 0 ≠ unreachable && addU32 (dist.getD u 0) 1 = dist.getD v 0

/-- `edge_key`: both the caller and `edge_key` itself order the endpoints. -/
def bfsEdgeKey {G : Type} [GraphAccess G] (g : G) (u v : VertexId) : ℕ :=
  edgeKey u v (isDirected g)

/-- `BasicIncrementalBFS`. -/
structure IncrementalBFS (G D : Type) where
  graph : G
  source : VertexId
  deletionFallbackFraction : D
  levels : Levels := ⟨[], 0⟩
  work : Workspace := {}
  seenFinalUpdates : ReusableKeySet := {}
  finalDeletionKeys : ReusableKeySet := {}
  lastDeletionCandidates : ℕ := 0
  lastAffectedVertices : ℕ := 0
  lastUsedFullRecompute : Bool := false

section Relaxation

variable {G : Type} [GraphAccess G]

/-- `relax_edge`. -/
def relaxEdge (state : Levels × List VertexId) (u v : VertexId) : Levels × List VertexId :=
  let (levels, q) := state
  let dist := levels.dist
  if dist.length ≤ u || dist.length ≤ v || dist.getD u 0 = unreachable then state
  else if addU32 (dist.getD u 0) 1 < dist.getD v 0 then
    (levels.lower v (addU32 (dist.getD u 0) 1), q ++ [v])
  else state

/-- One turn of the loop over the final additions in `apply`. -/
def relaxAddition (directed : Bool) (relaxed : Levels × List VertexId)
    (edge : VertexId × VertexId) : Levels × List VertexId :=
  let (u, v) := edge
  let relaxed := relaxEdge relaxed u v
  if directed then relaxed else relaxEdge relaxed v u

/-- The callback of `propagate_decreases`. -/
def propagateArc (u : VertexId) (state : Levels × List VertexId) (v : VertexId) :
    Levels × List VertexId :=
  let (levels, q) := state
  let dist := levels.dist
  if addU32 (dist.getD u 0) 1 < dist.getD v 0 then
    (levels.lower v (addU32 (dist.getD u 0) 1), q ++ [v])
  else state

/-- One turn of the loop in `propagate_decreases`; the queue is kept from `head` on. -/
def propagateTurn (g : G) (state : Levels × List VertexId) : Levels × List VertexId :=
  match state with
  | (levels, []) => (levels, [])
  | (levels, u :: q) =>
    if levels.dist.getD u 0 = unreachable then (levels, q)
    else (forEachNeighbor g u).foldl (propagateArc u) (levels, q)

/-- `propagate_decreases`. -/
def propagateDecreases (fuel : ℕ) (g : G) (levels : Levels) (q : List VertexId) : Option Levels :=
  (whileLoop (fun state => !state.2.isEmpty) (fun _ state => some (propagateTurn g state)) fuel
    (levels, q)).map Prod.fst

/-- The callback of the loop in `recompute`. -/
def visitArc (u : VertexId) (state : List ℕ × List VertexId) (v : VertexId) :
    List ℕ × List VertexId :=
  let (dist, queue) := state
  if dist.getD v 0 = unreachable then (dist.set v (addU32 (dist.getD u 0) 1), queue ++ [v])
  else state

/-- One turn of the loop in `recompute`: the distances, the whole queue and `head`. -/
def visitTurn (g : G) (state : (List ℕ × List VertexId) × ℕ) : (List ℕ × List VertexId) × ℕ :=
  let ((dist, queue), head) := state
  let u := queue.getD head 0
  ((forEachNeighbor g u).foldl (visitArc u) (dist, queue), head + 1)

/-- The distances and the count that `recompute` leaves behind. -/
def recomputeLevels (fuel : ℕ) (g : G) (source : VertexId) : Option Levels :=
  let dist := List.replicate (vertexCount g) unreachable
  if vertexCount g ≤ source then some ⟨dist, 0⟩
  else
    (whileLoop (fun state => state.2 < state.1.2.length) (fun _ state => some (visitTurn g state))
      fuel ((dist.set source 0, [source]), 0)).map fun state => ⟨state.1.1, state.1.2.length⟩

end Relaxation

section Invalidation

variable {G : Type} [GraphAccess G] (g : G) (dist : List ℕ) (source : VertexId)

/-- `shortest_parent_count`: the count, and the array that caches it. -/
def shortestParentCount (counts : List ℕ) (v : VertexId) : ℕ × List ℕ :=
  if dist.length ≤ v || v = source || dist.getD v 0 = unreachable then (0, counts)
  else if counts.getD v 0 ≠ 0 then (counts.getD v 0, counts)
  else
    let count := (forEachInNeighbor g v).foldl
      (fun count p => if isShortestParent dist p v then addU32 count 1 else count) 0
    (count, counts.set v count)

/-- `record_parent_loss`. -/
def recordParentLoss (state : Invalidation) (v : VertexId) : Invalidation :=
  let work := state.work
  if dist.length ≤ v || v = source || dist.getD v 0 = unreachable ||
      work.affected.getD v 0 ≠ 0 then state
  else
    let touched :=
      if work.lostParentCount.getD v 0 = 0 then work.touchedLossVertices ++ [v]
      else work.touchedLossVertices
    let lost := work.lostParentCount.set v (addU32 (work.lostParentCount.getD v 0) 1)
    let (support, counts) := shortestParentCount g dist source work.shortestParentCount v
    if support ≠ 0 ∧ lost.getD v 0 ≥ support then
      { work := ⟨work.affected.set v 1, lost, counts, touched⟩
        affectedVertices := state.affectedVertices ++ [v]
        invalidate := state.invalidate ++ [v]
        lastAffectedVertices := state.lastAffectedVertices + 1 }
    else { state with work := ⟨work.affected, lost, counts, touched⟩ }

/-- One turn of the loop over the deleted edges in `compute_affected_prebatch`. -/
def recordDeletion (state : Invalidation) (edge : VertexId × VertexId) : Invalidation :=
  let (u, v) := edge
  let state :=
    if isShortestParent dist u v then recordParentLoss g dist source state v else state
  if !isDirected g && isShortestParent dist v u then recordParentLoss g dist source state u
  else state

/-- The callback of the loop in `compute_affected_prebatch`. -/
def invalidateArc (keys : ReusableKeySet) (u : VertexId) (fuel : ℕ) (state : Invalidation)
    (v : VertexId) : Option Invalidation :=
  if dist.length ≤ v || dist.getD v 0 ≠ addU32 (dist.getD u 0) 1 then some state
  else
    (keys.contains fuel (bfsEdgeKey g u v)).map fun deleted =>
      if deleted then state else recordParentLoss g dist source state v

/-- One turn of the loop in `compute_affected_prebatch`. -/
def invalidateTurn (keys : ReusableKeySet) (fuel : ℕ) (state : Invalidation × ℕ) :
    Option (Invalidation × ℕ) :=
  let (state, head) := state
  let u := state.invalidate.getD head 0
  if dist.length ≤ u || dist.getD u 0 = unreachable then some (state, head + 1)
  else
    (foldRun (invalidateArc g dist source keys u fuel) (forEachNeighbor g u) state).map
      fun state => (state, head + 1)

/-- `compute_affected_prebatch`: the state, and whether the affected vertices stay within the
limit. The loop returns as soon as they exceed it, with the same answer as at its end. -/
def computeAffected (limit : ℕ) (keys : ReusableKeySet) (existing : List (VertexId × VertexId))
    (fuel : ℕ) (work : Workspace) : Option (Invalidation × Bool) :=
  let state := existing.foldl (recordDeletion g dist source) { work := work }
  (whileLoop
      (fun state => state.2 < state.1.invalidate.length && state.1.lastAffectedVertices ≤ limit)
      (invalidateTurn g dist source keys) fuel (state, 0)).map
    fun state => (state.1, decide (state.1.lastAffectedVertices ≤ limit))

end Invalidation

section Repair

variable {G : Type} [GraphAccess G] (g : G) (affected : List ℕ)

/-- The callback of `best_boundary_distance`. -/
def boundaryArc (dist : List ℕ) (best : ℕ) (p : VertexId) : ℕ :=
  if dist.length ≤ p || affected.length ≤ p || affected.getD p 0 ≠ 0 ||
      dist.getD p 0 = unreachable then best
  else
    let candidate := addU32 (dist.getD p 0) 1
    if candidate < best then candidate else best

/-- `best_boundary_distance`. -/
def bestBoundaryDistance (dist : List ℕ) (v : VertexId) : ℕ :=
  (forEachInNeighbor g v).foldl (boundaryArc affected dist) unreachable

/-- Take the distance away from an affected vertex. -/
def resetLevel (levels : Levels) (v : VertexId) : Levels :=
  if v < levels.dist.length && levels.dist.getD v 0 ≠ unreachable then
    ⟨levels.dist.set v unreachable, subU64 levels.reachableCount 1⟩
  else levels

/-- Give an affected vertex its best distance over an unaffected neighbour. -/
def seedLevel (state : Levels × List Item) (v : VertexId) : Levels × List Item :=
  let (levels, heap) := state
  let best := bestBoundaryDistance g affected levels.dist v
  if best ≠ unreachable then (levels.lower v best, toLex (best, v) :: heap) else state

/-- The callback of the heap loop in `repair_affected`. -/
def repairArc (du : ℕ) (state : Levels × List Item) (v : VertexId) : Levels × List Item :=
  let (levels, heap) := state
  if affected.length ≤ v || affected.getD v 0 = 0 then state
  else
    let candidate := addU32 du 1
    if candidate < levels.dist.getD v 0 then
      (levels.lower v candidate, toLex (candidate, v) :: heap)
    else state

/-- One turn of the heap loop in `repair_affected`. -/
def repairTurn (state : Levels × List Item) : Levels × List Item :=
  let (levels, heap) := state
  match popMin heap with
  | none => state
  | some (item, rest) =>
    let (du, u) := ofLex item
    if levels.dist.length ≤ u || du ≠ levels.dist.getD u 0 then (levels, rest)
    else (forEachNeighbor g u).foldl (repairArc affected du) (levels, rest)

/-- `repair_affected`. -/
def repairAffected (fuel : ℕ) (levels : Levels) (affectedVertices : List VertexId)
    (oldAffectedDist : List ℕ) : Option Levels :=
  let levels := affectedVertices.foldl resetLevel levels
  let state := affectedVertices.foldl (seedLevel g affected) (levels, [])
  (whileLoop (fun state => !state.2.isEmpty)
      (fun _ state => some (repairTurn g affected state)) fuel state).bind fun state =>
    let levels := state.1
    let queue := ((List.range affectedVertices.length).filter fun i =>
      let v := affectedVertices.getD i 0
      let oldDist := if i < oldAffectedDist.length then oldAffectedDist.getD i 0 else unreachable
      v < levels.dist.length && levels.dist.getD v 0 ≠ unreachable &&
        levels.dist.getD v 0 < oldDist).map fun i => affectedVertices.getD i 0
    propagateDecreases fuel g levels queue

end Repair

/-- The final operations of a batch: the two key sets and the edges. -/
structure FinalUpdates where
  seen : ReusableKeySet
  deletionKeys : ReusableKeySet
  additions : List (VertexId × VertexId) := []
  deletions : List (VertexId × VertexId) := []

/-- One turn of the loop over the batch in `apply`, which runs from its end. -/
def collectUpdate {G : Type} [GraphAccess G] (g : G) (fuel : ℕ) (state : FinalUpdates)
    (op : EdgeUpdate) : Option FinalUpdates :=
  let key := bfsEdgeKey g op.src op.dst
  (state.seen.insert fuel key).bind fun (fresh, seen) =>
    if !fresh then some { state with seen := seen }
    else if op.add then
      some { state with seen := seen, additions := state.additions ++ [(op.src, op.dst)] }
    else
      (state.deletionKeys.insert fuel key).map fun (_, deletionKeys) =>
        { state with
          seen := seen, deletionKeys := deletionKeys
          deletions := state.deletions ++ [(op.src, op.dst)] }

/-- The vertices at which a deleted edge was a shortest-path edge. -/
def deletionCandidates {G : Type} [GraphAccess G] (g : G) (dist : List ℕ)
    (existing : List (VertexId × VertexId)) : List VertexId :=
  existing.flatMap fun (u, v) =>
    (if isShortestParent dist u v then [v] else []) ++
      if !isDirected g && isShortestParent dist v u then [u] else []

namespace IncrementalBFS

variable {G D : Type} [GraphAccess G] (engine : IncrementalBFS G D)

/-- `recompute`. -/
def recompute (fuel : ℕ) : Option (IncrementalBFS G D) :=
  (recomputeLevels fuel engine.graph engine.source).map fun levels =>
    { engine with levels := levels, work := engine.work.ensure (vertexCount engine.graph) }

/-- The constructor. -/
def create (fuel : ℕ) (g : G) (source : VertexId) (deletionFallbackFraction : D) :
    Option (IncrementalBFS G D) :=
  recompute { graph := g, source := source, deletionFallbackFraction := deletionFallbackFraction }
    fuel

/-- The part of `apply` after the graph has changed. -/
def finish (fuel : ℕ) (additions : List (VertexId × VertexId)) (state : Invalidation)
    (fallbackNeeded : Bool) : Option (IncrementalBFS G D) :=
  let g := engine.graph
  let n := vertexCount g
  let dist := engine.levels.dist
  let levels : Levels :=
    { engine.levels with dist := if dist.length < n then resize dist n unreachable else dist }
  let work := state.work.ensure n
  if fallbackNeeded then
    (recompute { engine with levels := levels, work := work.clear state.affectedVertices } fuel).map
      fun engine => { engine with lastUsedFullRecompute := true }
  else
    let oldAffectedDist := state.affectedVertices.map fun v : VertexId =>
      if v < levels.dist.length then levels.dist.getD v 0 else unreachable
    (if state.affectedVertices.isEmpty then some levels
      else repairAffected g work.affected fuel levels state.affectedVertices oldAffectedDist).bind
    fun levels =>
      let relaxed := additions.foldl (relaxAddition (isDirected g)) (levels, [])
      (propagateDecreases fuel g relaxed.1 relaxed.2).map fun levels =>
        { engine with levels := levels, work := work.clear state.affectedVertices }

/-- `apply`. -/
def apply [DoubleArith D] (fuel : ℕ) (batch : UpdateBatch) : Option (IncrementalBFS G D) :=
  let engine := { engine with
    lastDeletionCandidates := 0, lastAffectedVertices := 0, lastUsedFullRecompute := false }
  if batch.empty then some engine
  else
    let g := engine.graph
    let dist := engine.levels.dist
    let work := { engine.work.ensure (vertexCount g) with touchedLossVertices := [] }
    let operations := batch.updates.length
    (foldRun (collectUpdate g fuel) batch.updates.reverse
      { seen := engine.seenFinalUpdates.reset operations
        deletionKeys := engine.finalDeletionKeys.reset operations }).bind fun final =>
    let existing := final.deletions.filter fun (u, v) => hasEdge g u v
    let candidates :=
      ((deletionCandidates g dist existing).insertionSort (· ≤ ·)).destutter (· ≠ ·)
    let limit := max 1 (DoubleArith.toNat
      (DoubleArith.ofNat (vertexCount g) * engine.deletionFallbackFraction : D))
    (if candidates.isEmpty then some ({ work := work }, true)
      else computeAffected g dist engine.source limit final.deletionKeys existing fuel work).bind
    fun (state, withinLimit) =>
      finish { engine with
          graph := applyUpdates g batch
          seenFinalUpdates := final.seen
          finalDeletionKeys := final.deletionKeys
          lastDeletionCandidates := candidates.length
          lastAffectedVertices := state.lastAffectedVertices }
        fuel final.additions state (!withinLimit)

end IncrementalBFS

end VeloGraphX
