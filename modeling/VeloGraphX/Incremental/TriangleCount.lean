import Mathlib
import VeloGraphX.Access.UndirectedGraph
import VeloGraphX.Incremental.EngineSteps
import VeloGraphX.Lib.Triangles

/-!
# Incremental triangle counting: the engine

The engine as it is in the source: a 64-bit count that each operation of a batch adjusts by the
common neighbours of its ends in the graph the earlier operations left. The engine applies the
operations to the graph itself, and ends a batch with the version and the maintenance that the
graph's own `apply` ends it with.
-/

namespace VeloGraphX

open FuelLoop ArcSet GraphAccess

/-- `BasicIncrementalTriangleCount`. -/
structure IncrementalTriangleCount (G : Type) where
  graph : G
  triangles : ℕ := 0

namespace IncrementalTriangleCount

section Count

variable {G : Type} [GraphAccess G]

/-- `neighbor_count`, for a graph without a `degree` of its own. -/
def neighborCount (g : G) (u : VertexId) : ℕ := (forEachNeighbor g u).length

/-- `common_neighbors`. -/
def commonNeighbors (g : G) (a b : VertexId) : ℕ :=
  let (scan, probe) := if neighborCount g b < neighborCount g a then (b, a) else (a, b)
  (forEachNeighbor g scan).foldl
    (fun common (v : VertexId) => if hasEdge g probe v then addU64 common 1 else common) 0

/-- One turn of the loop of `recompute`. -/
def addTriples (g : G) (u : VertexId) (triple : ℕ) : ℕ :=
  (forEachNeighbor g u).foldl
    (fun triple (v : VertexId) => if u < v then addU64 triple (commonNeighbors g u v) else triple)
    triple

/-- `recompute`. -/
def recompute (engine : IncrementalTriangleCount G) (fuel : ℕ) :
    Option (IncrementalTriangleCount G) :=
  (countLoop (vertexCount engine.graph) (fun _ u triple => some (addTriples engine.graph u triple))
    fuel 0 0).map fun triple => { engine with triangles := triple / 3 }

/-- `validate_graph`. -/
def validateGraph (g : G) : Except Exception Unit :=
  if isDirected g then
    .error (.invalidArgument
      "IncrementalTriangleCount requires an undirected graph; directed motifs need an explicit definition")
  else .ok ()

/-- The constructor that counts. -/
def create (fuel : ℕ) (g : G) : Option (Except Exception (IncrementalTriangleCount G)) :=
  match validateGraph g with
  | .error exception => some (.error exception)
  | .ok () => (recompute { graph := g } fuel).map .ok

/-- The constructor that is given the count. -/
def createTrusted (g : G) (trustedInitialCount : ℕ) :
    Except Exception (IncrementalTriangleCount G) :=
  match validateGraph g with
  | .error exception => .error exception
  | .ok () => .ok { graph := g, triangles := trustedInitialCount }

end Count

variable {D : Type} [DoubleArith D]

/-- One operation of a batch. -/
def applyOperation (engine : IncrementalTriangleCount (DynamicGraph D)) (op : EdgeUpdate) :
    IncrementalTriangleCount (DynamicGraph D) :=
  if op.src = op.dst then engine
  else
    let present := engine.graph.hasEdge op.src op.dst
    let common := commonNeighbors engine.graph op.src op.dst
    let triangles :=
      if op.add && !present then addU64 engine.triangles common else engine.triangles
    let triangles :=
      if !op.add && present then triangles - min triangles common else triangles
    { graph := engine.graph.applyUnversioned op, triangles := triangles }

/-- `apply`. -/
def apply (engine : IncrementalTriangleCount (DynamicGraph D)) (batch : UpdateBatch) :
    IncrementalTriangleCount (DynamicGraph D) :=
  if batch.empty then engine
  else
    let engine := batch.updates.foldl applyOperation engine
    let graph := { engine.graph with version := engine.graph.version + 1 }
    { engine with graph := graph.automaticStorageMaintenance }

end IncrementalTriangleCount

end VeloGraphX
