import Mathlib
import VeloGraphX.Types
import VeloGraphX.Lib.CountingSort
import VeloGraphX.Lib.SortedList

/-!
# The segmented CSR base

Vertices are split into fixed-size segments, each with its own offset table and edge array.
Bulk construction sorts and deduplicates the arcs and distributes them by counting sort;
the transpose is built by the same distribution with the roles of the endpoints exchanged.
-/

namespace VeloGraphX

open Slice PointUpdate SortedList CountingSort

/-- One segment: an offset table and the edges of its vertices. -/
structure Segment where
  firstVertex : ℕ := 0
  vertexCount : ℕ := 0
  offsets : List ℕ := []
  edges : List VertexId := []
deriving DecidableEq, Repr, Inhabited

/-- `SegmentedCsr`: the segments with the cached totals. -/
structure SegmentedCsr where
  segments : List Segment := []
  vertexCount : ℕ := 0
  edgeCount : ℕ := 0
deriving DecidableEq, Repr

/-- `kVerticesPerSegment`. -/
def kVerticesPerSegment : ℕ := 2 ^ 16

/-- `std::unique` with `erase`: drop every element equal to its predecessor. -/
def unique {α : Type*} [DecidableEq α] : List α → List α
  | [] => []
  | [a] => [a]
  | a :: b :: rest => if a = b then unique (b :: rest) else a :: unique (b :: rest)

/-- The lexicographic order of arcs. -/
def arcLe (a b : VertexId × VertexId) : Prop := a.1 < b.1 ∨ a.1 = b.1 ∧ a.2 ≤ b.2

/-- The order of arcs is decidable. -/
instance : DecidableRel arcLe := fun a b =>
  inferInstanceAs (Decidable (a.1 < b.1 ∨ a.1 = b.1 ∧ a.2 ≤ b.2))

/-- `std::sort` on arcs, in the lexicographic order of pairs. -/
def sortArcs (arcs : List (VertexId × VertexId)) : List (VertexId × VertexId) :=
  arcs.insertionSort arcLe

namespace SegmentedCsr

variable (csr : SegmentedCsr)

/-- One turn of the growth loop: open the segment if needed and extend its offset table. -/
def growSegment (vertices : ℕ) : SegmentedCsr :=
  let index := csr.vertexCount / kVerticesPerSegment
  let segments :=
    if index = csr.segments.length then
      csr.segments ++ [{ firstVertex := index * kVerticesPerSegment, offsets := [0] }]
    else csr.segments
  let segment := segments.getD index default
  let targetCount := min kVerticesPerSegment (vertices - segment.firstVertex)
  { csr with
    segments := segments.set index
      { segment with
        offsets := resize segment.offsets (targetCount + 1) segment.edges.length
        vertexCount := targetCount }
    vertexCount := segment.firstVertex + targetCount }

/-- The growth loop, with a bound on its turns. -/
def growLoop (vertices : ℕ) : ℕ → SegmentedCsr → SegmentedCsr
  | 0, csr => csr
  | turns + 1, csr =>
    if csr.vertexCount < vertices then growLoop vertices turns (csr.growSegment vertices) else csr

/-- Add empty rows up to the given vertex count; each turn of the loop adds at least one. -/
def resizeVertices (vertices : ℕ) : SegmentedCsr :=
  growLoop vertices (vertices - csr.vertexCount) csr

/-- Start over with empty rows. -/
def clear (vertices : ℕ) : SegmentedCsr := resizeVertices {} vertices

/-- The sorted row of a vertex. -/
def row (u : VertexId) : List VertexId :=
  if csr.vertexCount ≤ u then []
  else
    let segment := csr.segments.getD (u / kVerticesPerSegment) default
    let loc := u - segment.firstVertex
    let first := segment.offsets.getD loc 0
    slice segment.edges first (segment.offsets.getD (loc + 1) 0 - first)

/-- `++offsets[local + 1]`. -/
def countArc (segments : List Segment) (u : VertexId) : List Segment :=
  let index := u.val / kVerticesPerSegment
  let segment := segments.getD index default
  let loc := u - segment.firstVertex
  segments.set index
    { segment with offsets := segment.offsets.set (loc + 1) (segment.offsets.getD (loc + 1) 0 + 1) }

/-- Turn a segment's counts into offsets and give its edge array their total size. -/
def prefixOffsets (segment : Segment) : Segment :=
  let offsets := runningSums 0 segment.offsets
  { segment with
    offsets := offsets
    edges := resize segment.edges (offsets.getLastD 0) 0 }

/-- Write an arc's target at its source's cursor. -/
def placeArc (state : List (Segment × List ℕ)) (arc : VertexId × VertexId) :
    List (Segment × List ℕ) :=
  let index := arc.1.val / kVerticesPerSegment
  let current := state.getD index default
  let loc := arc.1 - current.1.firstVertex
  let cursor := current.2.getD loc 0
  state.set index
    ({ current.1 with edges := current.1.edges.set cursor arc.2 }, current.2.set loc (cursor + 1))

/-- The second half of both constructions: offsets, cursors and placement. -/
def distribute (segments : List Segment) (arcs : List (VertexId × VertexId)) : List Segment :=
  let counted := segments.map prefixOffsets
  let cursors := counted.map fun segment => (segment, segment.offsets)
  (arcs.foldl placeArc cursors).map Prod.fst

/-- The simple arcs between existing vertices. -/
def keepArc (vertices : ℕ) (arc : VertexId × VertexId) : Bool :=
  !(arc.1 = arc.2 || vertices ≤ arc.1 || vertices ≤ arc.2)

/-- Build from an arc list: filter, sort, deduplicate, count and place. -/
def build (vertices : ℕ) (arcs : List (VertexId × VertexId)) : SegmentedCsr :=
  let arcs := unique (sortArcs (arcs.filter (keepArc vertices)))
  let base := clear vertices
  { base with
    segments := distribute (arcs.foldl (fun segments arc => countArc segments arc.1) base.segments) arcs
    edgeCount := arcs.length }

/-- All arcs of the source with their endpoints exchanged, in row order. -/
def transposedArcs (source : SegmentedCsr) : List (VertexId × VertexId) :=
  (List.range source.vertexCount).flatMap fun u =>
    (source.row (Fin.ofNat _ u)).map fun v => (v, Fin.ofNat _ u)

/-- In-degrees, counted row by row. -/
def indegrees (source : SegmentedCsr) : List ℕ :=
  (transposedArcs source).foldl
    (fun indegree arc => indegree.set arc.1 (indegree.getD arc.1 0 + 1))
    (List.replicate source.vertexCount 0)

/-- `offsets[local + 1] = indegree[v]`. The segment is that of the id, the offset that of the number. A
write outside the offsets, which `transposeInBounds` finds, has no result here. -/
def setIndegree (indegree : List ℕ) (segments : List Segment) (v : ℕ) : List Segment :=
  let index := (Fin.ofNat (2 ^ 32) v).val / kVerticesPerSegment
  let segment := segments.getD index default
  segments.set index
    { segment with offsets := segment.offsets.set (v - segment.firstVertex + 1) (indegree.getD v 0) }

/-- Build the transpose of another base. -/
def buildTransposeFrom (source : SegmentedCsr) : SegmentedCsr :=
  let base := clear source.vertexCount
  let counted := (List.range base.vertexCount).foldl (setIndegree (indegrees source)) base.segments
  { base with
    segments := distribute counted (transposedArcs source)
    edgeCount := source.edgeCount }

/-- Every offset that `build_transpose_from` writes an in-degree to exists. -/
def transposeInBounds (source : SegmentedCsr) : Bool :=
  let base := clear source.vertexCount
  (List.range base.vertexCount).all fun v =>
    let segment := base.segments.getD ((Fin.ofNat (2 ^ 32) v).val / kVerticesPerSegment) default
    v - segment.firstVertex + 1 < segment.offsets.length

end SegmentedCsr

end VeloGraphX
