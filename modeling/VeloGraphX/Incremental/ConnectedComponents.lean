import Mathlib
import VeloGraphX.Access.GraphAccess
import VeloGraphX.Incremental.EdgeKey
import VeloGraphX.Lib.DisjointSets
import VeloGraphX.Lib.FuelLoop
import VeloGraphX.Lib.LastWrite

/-!
# Incremental connected components: the engine

The engine as it is in the source: a union-find structure over the vertices. A batch is reduced
to the last operation for each edge; the components that lose an edge are reset and united again
along their remaining edges, and the inserted edges are united last. Its loops over all vertices
count with a 32-bit vertex id.
-/

namespace VeloGraphX

open FuelLoop PointUpdate LastWrite GraphAccess

/-- `parent_` and `rank_`. -/
structure UnionFind where
  parent : List VertexId
  rank : List ℕ

/-- `BasicIncrementalComponents`. -/
structure IncrementalComponents (G : Type) where
  graph : G
  sets : UnionFind
  lastRepairedVertices : ℕ := 0

/-- The key under which `canonicalize` keeps an operation, and the form in which it does. -/
def componentEntry (op : EdgeUpdate) : Option (ℕ × EdgeUpdate) :=
  if op.src = op.dst then none
  else
    let op := if op.dst < op.src then { op with src := op.dst, dst := op.src } else op
    some (edgeKey op.src op.dst false, op)

/-- `canonicalize`. -/
def canonicalizeUndirected (batch : UpdateBatch) : UpdateBatch :=
  ⟨keepLast componentEntry batch.updates⟩

/-- `std::iota(first, last, 0)`. It counts in an `int`, and the last increment is undefined from `2 ^ 31`
vertices on: there is no result then. -/
def iota (n : ℕ) : Option (List VertexId) :=
  if n < 2 ^ 31 then some ((List.range n).map fun v => Fin.ofNat (2 ^ 32) v) else none

namespace UnionFind

/-- `find`: the root, and the forest with the path compressed. -/
def find : ℕ → UnionFind → VertexId → Option (VertexId × UnionFind)
  | 0, _, _ => none
  | fuel + 1, sets, x =>
    if sets.parent.getD x 0 = x then some (x, sets)
    else
      (find fuel sets (sets.parent.getD x 0)).map fun (root, sets) =>
        (root, { sets with parent := sets.parent.set x root })

/-- `ensure_capacity`. -/
def ensureCapacity (fuel : ℕ) (vertices : ℕ) (sets : UnionFind) : Option UnionFind :=
  let oldSize := sets.parent.length
  if vertices ≤ oldSize then some sets
  else
    countLoop vertices (fun _ v sets => some { sets with parent := sets.parent.set v.val v }) fuel
      (Fin.ofNat (2 ^ 32) oldSize)
      { parent := resize sets.parent vertices 0, rank := resize sets.rank vertices 0 }

/-- The part of `unite` after both roots are found. -/
def link (sets : UnionFind) (a b : VertexId) : UnionFind :=
  if a = b then sets
  else
    let (a, b) := if sets.rank.getD a 0 < sets.rank.getD b 0 then (b, a) else (a, b)
    { parent := sets.parent.set b a
      rank := if sets.rank.getD a 0 = sets.rank.getD b 0 then
          sets.rank.set a ((sets.rank.getD a 0 + 1) % 2 ^ 8)
        else sets.rank }

/-- `unite`. -/
def unite (fuel : ℕ) (vertices : ℕ) (sets : UnionFind) (a b : VertexId) : Option UnionFind :=
  (sets.ensureCapacity fuel vertices).bind fun sets =>
  (sets.find fuel a).bind fun (a, sets) =>
  (sets.find fuel b).map fun (b, sets) => sets.link a b

end UnionFind

namespace IncrementalComponents

variable {G : Type} [GraphAccess G]

/-- The unions along the edges of one vertex that `keep` allows. -/
def uniteNeighbors (fuel : ℕ) (g : G) (keep : VertexId → Bool) (u : VertexId) (sets : UnionFind) :
    Option UnionFind :=
  foldRun (fun sets v => if keep v then sets.unite fuel (vertexCount g) u v else some sets)
    (forEachNeighbor g u) sets

/-- `rebuild`. -/
def rebuild (engine : IncrementalComponents G) (fuel : ℕ) : Option (IncrementalComponents G) :=
  let g := engine.graph
  let n := vertexCount g
  (iota n).bind fun parent =>
  (countLoop n (fun fuel u sets => uniteNeighbors fuel g (fun _ => true) u sets) fuel 0
    { parent := parent, rank := List.replicate n 0 }).map
    fun sets => { engine with sets := sets, lastRepairedVertices := n }

/-- The constructor. -/
def create (fuel : ℕ) (g : G) : Option (Except Exception (IncrementalComponents G)) :=
  if isDirected g then
    some (.error (.invalidArgument
      "IncrementalComponents requires an undirected graph; use an explicitly defined weak/strong connectivity algorithm for directed graphs"))
  else (rebuild ⟨g, ⟨[], []⟩, 0⟩ fuel).map .ok

/-- `component`. -/
def component (engine : IncrementalComponents G) (fuel : ℕ) (v : VertexId) :
    Option (Except Exception VertexId × IncrementalComponents G) :=
  if engine.sets.parent.length ≤ v then
    some (.error (.outOfRange "vertex id outside graph"), engine)
  else
    (engine.sets.find fuel v).map fun (root, sets) => (.ok root, { engine with sets := sets })

/-- The loop that collects `affected_roots`. -/
def collectRoots (g : G) (fuel : ℕ) (state : List VertexId × UnionFind) (op : EdgeUpdate) :
    Option (List VertexId × UnionFind) :=
  let (roots, sets) := state
  if !op.add && op.src < sets.parent.length && op.dst < sets.parent.length &&
      hasEdge g op.src op.dst then
    (sets.find fuel op.src).bind fun (a, sets) =>
    (sets.find fuel op.dst).map fun (b, sets) => ((roots.insert a).insert b, sets)
  else some state

/-- The state of the loop that marks the affected vertices. -/
structure Marking where
  affected : List ℕ
  sets : UnionFind
  lastRepairedVertices : ℕ := 0

/-- One turn of the loop that marks the affected vertices. -/
def markAffected (roots : List VertexId) (fuel : ℕ) (v : VertexId) (state : Marking) :
    Option Marking :=
  (state.sets.find fuel v).map fun (root, sets) =>
    if root ∈ roots then
      { affected := state.affected.set v 1
        sets := sets
        lastRepairedVertices := state.lastRepairedVertices + 1 }
    else { state with sets := sets }

/-- One turn of the loop that resets the affected vertices. -/
def resetVertex (affected : List ℕ) (v : VertexId) (sets : UnionFind) : UnionFind :=
  if affected.getD v 0 ≠ 0 then
    { parent := sets.parent.set v v, rank := sets.rank.set v 0 }
  else sets

/-- One turn of the loop that rebuilds connectivity inside the affected components. -/
def rebuildVertex (g : G) (affected : List ℕ) (fuel : ℕ) (u : VertexId) (sets : UnionFind) :
    Option UnionFind :=
  if affected.getD u 0 = 0 then some sets
  else uniteNeighbors fuel g (fun v => v < affected.length && affected.getD v 0 ≠ 0) u sets

/-- One turn of the loop over the final additions. -/
def uniteAddition (g : G) (fuel : ℕ) (sets : UnionFind) (op : EdgeUpdate) : Option UnionFind :=
  if op.add && op.src < sets.parent.length && op.dst < sets.parent.length &&
      hasEdge g op.src op.dst then
    sets.unite fuel (vertexCount g) op.src op.dst
  else some sets

/-- The part of `apply` after the graph has changed. -/
def finish (g : G) (canonical : UpdateBatch) (roots : List VertexId) (fuel : ℕ)
    (state : Marking) : Option (IncrementalComponents G) :=
  (state.sets.ensureCapacity fuel (vertexCount g)).bind fun sets =>
  let affected := resize state.affected sets.parent.length 0
  (if roots.isEmpty then some sets
    else
      (countLoop affected.length (fun _ v sets => some (resetVertex affected v sets)) fuel 0
        sets).bind fun sets =>
      countLoop affected.length (rebuildVertex g affected) fuel 0 sets).bind fun sets =>
  (foldRun (uniteAddition g fuel) canonical.updates sets).map fun sets =>
    ⟨g, sets, state.lastRepairedVertices⟩

/-- `apply`. -/
def apply (engine : IncrementalComponents G) (fuel : ℕ) (batch : UpdateBatch) :
    Option (IncrementalComponents G) :=
  if batch.empty then some { engine with lastRepairedVertices := 0 }
  else
    let g := engine.graph
    let canonical := canonicalizeUndirected batch
    (foldRun (collectRoots g fuel) canonical.updates ([], engine.sets)).bind fun (roots, sets) =>
    let marking : Marking :=
      { affected := List.replicate sets.parent.length 0, sets := sets }
    (if roots.isEmpty then some marking
      else countLoop sets.parent.length (markAffected roots) fuel 0 marking).bind fun marking =>
    finish (applyUpdates g batch) canonical roots fuel marking

end IncrementalComponents

end VeloGraphX
