import Mathlib
import VeloGraphX.Access.GraphAccess
import VeloGraphX.Incremental.Dijkstra
import VeloGraphX.Lib.FuelLoop

/-!
# Incremental k-core: the engine

The engine as it is in the source. A batch marks the components of its endpoints before and
after it changes the graph; the marked region is peeled again, in the order of a heap whose
entries go stale when a degree falls. The loop that fills the heap counts with a 32-bit vertex id.
-/

namespace VeloGraphX

open FuelLoop PointUpdate PriorityQueue GraphAccess

/-- `BasicIncrementalKCore`. -/
structure IncrementalKCore (G : Type) where
  graph : G
  core : List ℕ := []
  lastRepairedVertices : ℕ := 0

/-- The arrays of `recompute_region`, with `current_core`. -/
structure PeelState where
  core : List ℕ
  degree : List ℕ
  removed : List ℕ
  heap : List Item := []
  currentCore : ℕ := 0
  lastRepairedVertices : ℕ := 0

namespace IncrementalKCore

variable {G : Type} [GraphAccess G]

/-- The callback of `mark_component`. -/
def markNeighbor (state : List ℕ × List VertexId) (v : VertexId) : List ℕ × List VertexId :=
  let (marked, queue) := state
  if v < marked.length && marked.getD v 0 = 0 then (marked.set v 1, queue ++ [v]) else state

/-- One turn of the loop of `mark_component`. -/
def markFront (g : G) (state : List ℕ × List VertexId) : List ℕ × List VertexId :=
  match state with
  | (marked, []) => (marked, [])
  | (marked, u :: queue) => (forEachNeighbor g u).foldl markNeighbor (marked, queue)

/-- `mark_component`. -/
def markComponent (g : G) (fuel : ℕ) (seed : VertexId) (marked : List ℕ) : Option (List ℕ) :=
  if vertexCount g ≤ seed || marked.length ≤ seed || marked.getD seed 0 ≠ 0 then some marked
  else
    (whileLoop (fun state => !state.2.isEmpty) (fun _ state => some (markFront g state)) fuel
      (marked.set seed 1, [seed])).map Prod.fst

/-- The seeds of one operation. -/
def markEnds (g : G) (fuel : ℕ) (marked : List ℕ) (e : EdgeUpdate) : Option (List ℕ) :=
  (if e.src < vertexCount g then markComponent g fuel e.src marked else some marked).bind
    fun marked =>
  if e.dst < vertexCount g then markComponent g fuel e.dst marked else some marked

/-- One turn of the loop that fills the heap. -/
def seedVertex (g : G) (affected : List ℕ) (u : VertexId) (state : PeelState) : PeelState :=
  if affected.length ≤ u || affected.getD u 0 = 0 then state
  else
    let degree := (forEachNeighbor g u).foldl
      (fun degree (v : VertexId) =>
        if v < affected.length && affected.getD v 0 ≠ 0 then
          degree.set u (addU32 (degree.getD u 0) 1)
        else degree) state.degree
    { state with
      degree := degree
      core := state.core.set u 0
      heap := toLex (degree.getD u 0, u) :: state.heap
      lastRepairedVertices := state.lastRepairedVertices + 1 }

/-- The callback of the peeling loop. -/
def peelNeighbor (n : ℕ) (affected : List ℕ) (state : PeelState) (v : VertexId) : PeelState :=
  if n ≤ v || affected.length ≤ v || affected.getD v 0 = 0 || state.removed.getD v 0 ≠ 0 then state
  else
    let degree :=
      if state.degree.getD v 0 ≠ 0 then state.degree.set v (state.degree.getD v 0 - 1)
      else state.degree
    { state with degree := degree, heap := toLex (degree.getD v 0, v) :: state.heap }

/-- One turn of the peeling loop. -/
def peelTop (g : G) (n : ℕ) (affected : List ℕ) (state : PeelState) : PeelState :=
  match popMin state.heap with
  | none => state
  | some (item, rest) =>
    let (queuedDegree, u) := ofLex item
    let state := { state with heap := rest }
    if n ≤ u || state.removed.getD u 0 ≠ 0 || queuedDegree ≠ state.degree.getD u 0 then state
    else
      let currentCore := max state.currentCore queuedDegree
      (forEachNeighbor g u).foldl (peelNeighbor n affected)
        { state with
          removed := state.removed.set u 1
          currentCore := currentCore
          core := state.core.set u currentCore }

/-- `recompute_region`. -/
def recomputeRegion (engine : IncrementalKCore G) (fuel : ℕ) (affected : List ℕ) :
    Option (IncrementalKCore G) :=
  let g := engine.graph
  let n := vertexCount g
  let core := if engine.core.length < n then resize engine.core n 0 else engine.core
  let state : PeelState :=
    { core := core, degree := List.replicate n 0, removed := List.replicate n 0 }
  (countLoop n (fun _ u state => some (seedVertex g affected u state)) fuel 0 state).bind fun state =>
  (whileLoop (fun state => !state.heap.isEmpty) (fun _ state => some (peelTop g n affected state)) fuel
    state).map fun state =>
      { engine with core := state.core, lastRepairedVertices := state.lastRepairedVertices }

/-- `recompute`. -/
def recompute (engine : IncrementalKCore G) (fuel : ℕ) : Option (IncrementalKCore G) :=
  let n := vertexCount engine.graph
  recomputeRegion { engine with core := List.replicate n 0 } fuel (List.replicate n 1)

/-- The constructor. -/
def create (fuel : ℕ) (g : G) : Option (Except Exception (IncrementalKCore G)) :=
  if isDirected g then
    some (.error (.invalidArgument
      "IncrementalKCore requires an undirected graph; directed k-core semantics must be selected explicitly"))
  else (recompute { graph := g } fuel).map .ok

/-- `apply`. -/
def apply (engine : IncrementalKCore G) (fuel : ℕ) (batch : UpdateBatch) :
    Option (IncrementalKCore G) :=
  if batch.empty then some { engine with lastRepairedVertices := 0 }
  else
    let g := engine.graph
    (foldRun (markEnds g fuel) batch.updates (List.replicate (vertexCount g) 0)).bind fun affected =>
    let g := applyUpdates g batch
    let core :=
      if engine.core.length < vertexCount g then resize engine.core (vertexCount g) 0
      else engine.core
    (foldRun (markEnds g fuel) batch.updates (resize affected (vertexCount g) 0)).bind fun affected =>
    recomputeRegion { engine with graph := g, core := core } fuel affected

end IncrementalKCore

end VeloGraphX
