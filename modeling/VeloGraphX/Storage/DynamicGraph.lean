import Mathlib
import VeloGraphX.Storage.PackedDeltaStore
import VeloGraphX.Storage.SegmentedCsr

/-!
# The dynamic graph

Each direction of the graph is stored as a compact base, row patches that replace base rows,
and a packed delta overlay with the list of rows it touched. `Side` groups the members that
the source keeps once with suffix `out` and once with suffix `in`. The effective row of a
vertex is the merge of its compact row with its overlay slice.
-/

namespace VeloGraphX

open SortedList

/-- The members of one direction: base, patches, delta, dirty rows and the cached edge total. -/
structure Side where
  base : SegmentedCsr := {}
  patches : Std.TreeMap VertexId (List VertexId) := {}
  delta : PackedDeltaStore := {}
  dirtyRows : List VertexId := []
  compactEdges : ℕ := 0

/-- Merge a compact row with an overlay slice: overlay entries decide about their targets. -/
def mergeOverlay : List VertexId → List Entry → List VertexId
  | [], [] => []
  | b :: base, [] => b :: mergeOverlay base []
  | [], e :: overlay =>
    if e.present then e.dst :: mergeOverlay [] overlay else mergeOverlay [] overlay
  | b :: base, e :: overlay =>
    if b < e.dst then b :: mergeOverlay base (e :: overlay)
    else if e.dst < b then
      if e.present then e.dst :: mergeOverlay (b :: base) overlay
      else mergeOverlay (b :: base) overlay
    else
      if e.present then b :: mergeOverlay base overlay else mergeOverlay base overlay
termination_by base overlay => base.length + overlay.length

/-- Sort the dirty rows and drop repetitions. -/
def normalizeDirty (rows : List VertexId) : List VertexId :=
  unique (rows.insertionSort (· ≤ ·))

namespace Side

variable (side : Side)

/-- The compact row of a vertex: its patch if it has one, its base row otherwise. -/
def compactRow (u : VertexId) : List VertexId :=
  if side.patches.isEmpty then side.base.row u
  else (side.patches[u]?).getD (side.base.row u)

/-- `compact_neighbors` and `compact_in_neighbors`. -/
def compactNeighbors (u : VertexId) : List VertexId := (side.patches[u]?).getD (side.base.row u)

/-- Binary search in a compact row. -/
def compactContains (u v : VertexId) : Bool := binarySearch (side.compactRow u) v

/-- The values handed to the callback of `for_each_effective_row`, in order. -/
def forEachEffectiveRow (u : VertexId) : List VertexId :=
  mergeOverlay (side.compactRow u) (side.delta.row u)

/-- The effective row as a vector. -/
def materializeRow (u : VertexId) : List VertexId :=
  if (side.delta.row u).isEmpty then side.compactRow u
  else mergeOverlay (side.compactRow u) (side.delta.row u)

/-- The part of `ensure_vertex` and of the constructor that concerns one direction. -/
def resizeVertices (n : ℕ) : Side :=
  { side with base := side.base.resizeVertices n, delta := side.delta.resizeVertices n }

/-- Replace a compact row by its effective row and drop its overlay slice. -/
def compactOneRow (u : VertexId) : Side :=
  if (side.delta.row u).isEmpty then side
  else
    let oldSize := (side.compactRow u).length
    let merged := side.materializeRow u
    { side with
      patches := side.patches.insert u merged
      delta := side.delta.clearRange u (u + 1)
      compactEdges := side.compactEdges - oldSize + merged.length }

/-- Compact every row that was marked dirty. -/
def compactMarkedRows : Side :=
  { (normalizeDirty side.dirtyRows).foldl compactOneRow side with dirtyRows := [] }

/-- One turn of the loop of `compact_dense_rows`: side, pending rows, compaction flag. -/
def compactDenseRow {D : Type} [DoubleArith D] (threshold : D)
    (state : Side × List VertexId × Bool) (u : VertexId) : Side × List VertexId × Bool :=
  let (side, pending, compacted) := state
  let overlaySize := (side.delta.row u).length
  if overlaySize = 0 then state
  else
    let workBudget := max 8 (side.compactRow u).length
    let density : D := DoubleArith.ofNat overlaySize / DoubleArith.ofNat workBudget
    if DoubleArith.lt density threshold then (side, pending ++ [u], compacted)
    else (side.compactOneRow u, pending, true)

/-- Compact the dirty rows whose overlay is dense, keep the others dirty. -/
def compactDenseRows {D : Type} [DoubleArith D] (threshold : D) : Bool × Side :=
  let (side, pending, compacted) :=
    (normalizeDirty side.dirtyRows).foldl (compactDenseRow threshold) (side, [], false)
  (compacted, { side with dirtyRows := pending })

/-- Repack the overlay when the given share of its arena is dead. -/
def repackAbove {D : Type} [DoubleArith D] (limit : D) : Side :=
  if DoubleArith.lt limit (side.delta.fragmentationRatio D) then
    { side with delta := side.delta.repack }
  else side

end Side

/-- `DynamicGraph`; the parameter is the type of its double-precision heuristics. -/
structure DynamicGraph (D : Type) where
  directed : Bool := false
  outgoing : Side := {}
  incoming : Side := {}
  version : UInt64 := 0

namespace DynamicGraph

variable {D : Type}

/-- The constructor: isolated vertices. -/
def create (vertices : ℕ) (directed : Bool) : DynamicGraph D :=
  { directed := directed
    outgoing := Side.resizeVertices {} vertices
    incoming := Side.resizeVertices {} vertices }

variable (g : DynamicGraph D)

/-- `vertex_count()`. -/
def vertexCount : ℕ := g.outgoing.base.vertexCount

/-- Make room for a vertex id. -/
def ensureVertex (v : VertexId) : DynamicGraph D :=
  let n := v.val + 1
  if n ≤ g.vertexCount then g
  else
    { g with outgoing := g.outgoing.resizeVertices n, incoming := g.incoming.resizeVertices n }

/-- The arcs of a bulk load: both directions of every simple edge of an undirected graph. -/
def loadArcs (directed : Bool) (edges : List (VertexId × VertexId)) : List (VertexId × VertexId) :=
  edges.flatMap fun e =>
    if e.1 = e.2 then [] else if directed then [e] else [e, (e.2, e.1)]

/-- The largest id of a simple edge, if there is one. -/
def maxVertex (edges : List (VertexId × VertexId)) : Option VertexId :=
  edges.foldl
    (fun best e => if e.1 = e.2 then best else some (max (best.getD 0) (max e.1 e.2))) none

/-- The state of one direction after a bulk load: a fresh base and nothing else. -/
def loadSide (side : Side) (base : SegmentedCsr) (vertices : ℕ) : Side :=
  { base := base
    patches := {}
    delta := side.delta.clear.resizeVertices vertices
    dirtyRows := []
    compactEdges := base.edgeCount }

/-- Replace all edges by the given list. -/
def bulkLoadEdges (edges : List (VertexId × VertexId)) : DynamicGraph D :=
  let g := match maxVertex edges with
    | some v => g.ensureVertex v
    | none => g
  let baseOut := SegmentedCsr.build g.vertexCount (loadArcs g.directed edges)
  { g with
    outgoing := loadSide g.outgoing baseOut baseOut.vertexCount
    incoming := loadSide g.incoming (SegmentedCsr.buildTransposeFrom baseOut) baseOut.vertexCount
    version := g.version + 1 }

/-- Set the presence of one arc in both overlays, judged by the forward compact row. -/
def applyArc (u v : VertexId) (present : Bool) : DynamicGraph D :=
  let basePresentOut := g.outgoing.compactContains u v
  let (changed, deltaOut) := g.outgoing.delta.setIfChanged u v present basePresentOut
  if changed then
    { g with
      outgoing := { g.outgoing with
        delta := deltaOut, dirtyRows := g.outgoing.dirtyRows ++ [u] }
      incoming := { g.incoming with
        delta := g.incoming.delta.set v u present basePresentOut
        dirtyRows := g.incoming.dirtyRows ++ [v] } }
  else { g with outgoing := { g.outgoing with delta := deltaOut } }

/-- One operation of a batch: self-loops are ignored, undirected edges set both arcs. -/
def applyUnversioned (op : EdgeUpdate) : DynamicGraph D :=
  if op.src = op.dst then g
  else
    let g := g.ensureVertex (max op.src op.dst)
    let g := g.applyArc op.src op.dst op.add
    if g.directed then g else g.applyArc op.dst op.src op.add

/-- The effective out-neighbours. -/
def neighbors (u : VertexId) : List VertexId := g.outgoing.materializeRow u

/-- The effective in-neighbours. -/
def inNeighbors (v : VertexId) : List VertexId := g.incoming.materializeRow v

/-- The out-neighbours as enumerated by `for_each_neighbor`. -/
def forEachNeighbor (u : VertexId) : List VertexId := g.outgoing.forEachEffectiveRow u

/-- The in-neighbours as enumerated by `for_each_in_neighbor`. -/
def forEachInNeighbor (v : VertexId) : List VertexId := g.incoming.forEachEffectiveRow v

/-- No overlay entry in either direction. -/
def isCompact : Bool := g.outgoing.delta.empty && g.incoming.delta.empty

/-- `compact_neighbors`. -/
def compactNeighbors (u : VertexId) : List VertexId := g.outgoing.compactNeighbors u

/-- `compact_in_neighbors`. -/
def compactInNeighbors (v : VertexId) : List VertexId := g.incoming.compactNeighbors v

/-- Membership of an arc, answered by the forward overlay or the forward compact row. -/
def hasEdge (u v : VertexId) : Bool :=
  if g.vertexCount ≤ u then false
  else (g.outgoing.delta.overrideFor u v).getD (g.outgoing.compactContains u v)

/-- `edge_count_directed()`. -/
def edgeCountDirected : ℕ :=
  g.outgoing.compactEdges + g.outgoing.delta.additions - g.outgoing.delta.deletions

/-- `base_edge_count_directed()`. -/
def baseEdgeCountDirected : ℕ := g.outgoing.compactEdges

/-- `delta_edge_count()`. -/
def deltaEdgeCount : ℕ := g.outgoing.delta.size

variable [DoubleArith D]

/-- `delta_ratio()`. -/
def deltaRatio : D :=
  DoubleArith.ofNat g.outgoing.delta.size / DoubleArith.ofNat (max 1 g.outgoing.compactEdges)

/-- Compact the dense rows of each direction on its own. -/
def maybeCompact (threshold : D) : Bool × DynamicGraph D :=
  let (compactedOut, outgoing) := g.outgoing.compactDenseRows threshold
  let (compactedIn, incoming) := g.incoming.compactDenseRows threshold
  let compacted := compactedOut || compactedIn
  if compacted then
    (true, { g with
      outgoing := outgoing.repackAbove (0.25 : D), incoming := incoming.repackAbove (0.25 : D) })
  else (false, { g with outgoing := outgoing, incoming := incoming })

/-- Compact every dirty row of both directions. -/
def compact : DynamicGraph D :=
  if g.isCompact then g
  else
    let outgoing := g.outgoing.compactMarkedRows
    let incoming := g.incoming.compactMarkedRows
    { g with
      outgoing := { outgoing with delta := outgoing.delta.repack }
      incoming := { incoming with delta := incoming.delta.repack } }

/-- The maintenance that ends every non-empty batch. -/
def automaticStorageMaintenance : DynamicGraph D :=
  let g :=
    if 65536 ≤ g.outgoing.delta.size && DoubleArith.le (0.01 : D) g.deltaRatio then
      (g.maybeCompact (0.50 : D)).2
    else g
  { g with
    outgoing := g.outgoing.repackAbove (0.60 : D), incoming := g.incoming.repackAbove (0.60 : D) }

/-- Apply a batch: its operations in order, then the version and the maintenance. -/
def apply (batch : UpdateBatch) : DynamicGraph D :=
  let g := batch.updates.foldl applyUnversioned g
  if batch.empty then g
  else automaticStorageMaintenance { g with version := g.version + 1 }

/-- `add_edge`. -/
def addEdge (u v : VertexId) : DynamicGraph D := g.apply (UpdateBatch.add {} u v)

/-- `remove_edge`. -/
def removeEdge (u v : VertexId) : DynamicGraph D := g.apply (UpdateBatch.remove {} u v)

end DynamicGraph

end VeloGraphX
