import Mathlib
import VeloGraphX.Storage.DynamicGraphRefinement

/-!
# The static graph

The compressed graph is built once from an edge list: loops are dropped, arcs are mirrored when
undirected, sorted and deduplicated, and one counting sort by sources and one by targets give
the rows of both directions. Rows ascend, and asking for a vertex outside the graph throws.
-/

namespace VeloGraphX

open Slice SortedList CountingSort ArcSet
open DynamicGraph (loadArcs maxVertex)

/-- `CsrGraph`. -/
structure CsrGraph where
  directed : Bool := false
  vertexCount : ℕ := 0
  offsets : List ℕ := [0]
  neighborCells : List VertexId := []
  inOffsets : List ℕ := [0]
  inNeighborCells : List VertexId := []

namespace CsrGraph

/-- Offsets and cells of one direction: count the items of each row, sum up, and place. -/
def buildRows (vertices : ℕ) (items : List (ℕ × VertexId)) : List ℕ × List VertexId :=
  let offsets := runningSums 0 (countKeys vertices items)
  (offsets, (items.foldl place (List.replicate items.length 0, offsets)).1)

/-- `expanded` after sorting and deduplicating. -/
def expand (edges : List (VertexId × VertexId)) (directed : Bool) : List (VertexId × VertexId) :=
  unique (sortArcs (loadArcs directed edges))

/-- The constructor from an edge list. -/
def create (edges : List (VertexId × VertexId)) (directed : Bool) : CsrGraph :=
  let expanded := expand edges directed
  let vertexCount := match maxVertex edges with
    | some v => v.val + 1
    | none => 0
  let out := buildRows vertexCount (expanded.map fun arc => (arc.1.val, arc.2))
  let inn := buildRows vertexCount (expanded.map fun arc => (arc.2.val, arc.1))
  { directed := directed, vertexCount := vertexCount, offsets := out.1, neighborCells := out.2,
    inOffsets := inn.1, inNeighborCells := inn.2 }

variable (g : CsrGraph)

/-- `neighbors`. -/
def neighbors (v : VertexId) : Except Exception (List VertexId) :=
  if g.vertexCount ≤ v then .error (.outOfRange "vertex id outside graph")
  else
    let first := g.offsets.getD v 0
    .ok (slice g.neighborCells first (g.offsets.getD (v + 1) 0 - first))

/-- `in_neighbors`. -/
def inNeighbors (v : VertexId) : Except Exception (List VertexId) :=
  if g.vertexCount ≤ v then .error (.outOfRange "vertex id outside graph")
  else
    let first := g.inOffsets.getD v 0
    .ok (slice g.inNeighborCells first (g.inOffsets.getD (v + 1) 0 - first))

/-- `has_edge`. -/
def hasEdge (u v : VertexId) : Bool :=
  if g.vertexCount ≤ u || g.vertexCount ≤ v then false
  else
    match g.neighbors u with
    | .ok row => binarySearch row v
    | .error _ => false

/-- A row that is exactly the given vertices, in ascending order. -/
def RowOf (row : Except Exception (List VertexId)) (mem : VertexId → Prop) : Prop :=
  ∃ list, row = .ok list ∧ Ascending id list ∧ ∀ v, v ∈ list ↔ mem v

/-- The graph holds a set of arcs: its rows are the successors and the predecessors. -/
structure Holds (arcs : ArcSet) : Prop where
  simple : Simple g.directed g.vertexCount arcs
  neighbors : ∀ u : VertexId, u.val < g.vertexCount → RowOf (g.neighbors u) fun v => (u, v) ∈ arcs
  inNeighbors : ∀ v : VertexId, v.val < g.vertexCount →
    RowOf (g.inNeighbors v) fun u => (u, v) ∈ arcs

/-- Between the offsets of a row lies its bucket. -/
theorem slice_buildRows {vertices : ℕ} {items : List (ℕ × VertexId)}
    (hkey : ∀ item ∈ items, item.1 < vertices) {k : ℕ} (hk : k < vertices) :
    slice (buildRows vertices items).2 ((buildRows vertices items).1.getD k 0)
      ((buildRows vertices items).1.getD (k + 1) 0 - (buildRows vertices items).1.getD k 0) =
        bucket items k :=
  slice_countKeys hkey List.length_replicate hk

/-- The expanded arcs are those of the edge list. -/
theorem mem_expand (edges : List (VertexId × VertexId)) (directed : Bool) (u v : VertexId) :
    (u, v) ∈ expand edges directed ↔ (u, v) ∈ ofEdges directed edges := by
  rw [expand, mem_unique, sortArcs, List.mem_insertionSort, DynamicGraph.mem_loadArcs]

/-- A bucket of arcs keyed by their sources holds the targets. -/
theorem bucket_sources (arcs : List (VertexId × VertexId)) (u : VertexId) :
    bucket (arcs.map fun arc => (arc.1.val, arc.2)) u = SegmentedCsr.targets arcs u := by
  unfold bucket SegmentedCsr.targets
  rw [List.filter_map, List.map_map]
  simp only [Function.comp_def, Fin.val_inj]

/-- A bucket of arcs keyed by their targets holds the sources. -/
theorem bucket_targets (arcs : List (VertexId × VertexId)) (v : VertexId) :
    bucket (arcs.map fun arc => (arc.2.val, arc.1)) v =
      (arcs.filter fun arc => decide (arc.2 = v)).map Prod.fst := by
  unfold bucket
  rw [List.filter_map, List.map_map]
  simp only [Function.comp_def, Fin.val_inj]

/-- In sorted arcs the sources of one target ascend. -/
theorem ascending_sources {arcs : List (VertexId × VertexId)}
    (h : arcs.Pairwise fun a b => a.1 < b.1 ∨ a.1 = b.1 ∧ a.2 < b.2) (v : VertexId) :
    Ascending id ((arcs.filter fun arc => decide (arc.2 = v)).map Prod.fst) := by
  refine List.pairwise_map.mpr ((h.filter _).imp_of_mem fun {a b} ha hb hab => ?_)
  have hav : a.2 = v := by simpa using (List.mem_filter.mp ha).2
  have hbv : b.2 = v := by simpa using (List.mem_filter.mp hb).2
  rcases hab with hlt | ⟨-, hlt⟩
  · exact hlt
  · exact absurd hlt (by rw [hav, hbv]; exact lt_irrefl v)

/-- The vertices are those that inserting the edges makes. -/
theorem vertexCount_create (edges : List (VertexId × VertexId)) (directed : Bool) :
    (create edges directed).vertexCount = growAll 0 (insertions edges) := by
  rw [DynamicGraph.growAll_insertions]
  unfold create
  dsimp only
  cases maxVertex edges with
  | none => rfl
  | some v => exact (Nat.zero_max _).symm

/-- A bound on the vertices is a bound on the ends of the edges. -/
theorem growAll_insertions_le_iff {n k : ℕ} (edges : List (VertexId × VertexId)) :
    growAll n (insertions edges) ≤ k ↔
      n ≤ k ∧ ∀ edge ∈ edges, edge.1 ≠ edge.2 → edge.1.val < k ∧ edge.2.val < k := by
  rw [growAll_le_iff, insertions, List.forall_mem_map]

/-- The vertices of the graph lie below a bound exactly when the ends of the edges do. -/
theorem vertexCount_create_le_iff {k : ℕ} (edges : List (VertexId × VertexId)) (directed : Bool) :
    (create edges directed).vertexCount ≤ k ↔
      ∀ edge ∈ edges, edge.1 ≠ edge.2 → edge.1.val < k ∧ edge.2.val < k := by
  rw [vertexCount_create, growAll_insertions_le_iff, and_iff_right (Nat.zero_le k)]

/-- The graph built from an edge list holds the arcs of the list. -/
theorem holds_create (edges : List (VertexId × VertexId)) (directed : Bool) :
    Holds (create edges directed) (ofEdges directed edges) := by
  have hcount := vertexCount_create edges directed
  have hsimple := simple_ofEdges directed 0 edges
  have hsorted := pairwise_unique_sortArcs (loadArcs directed edges)
  have hwithin : ∀ arc ∈ expand edges directed,
      arc.1.val < (create edges directed).vertexCount ∧
        arc.2.val < (create edges directed).vertexCount := fun arc harc => by
    rw [hcount]
    exact hsimple.within arc.1 arc.2 ((mem_expand edges directed arc.1 arc.2).mp harc)
  refine ⟨hcount ▸ hsimple, fun u hu => ?_, fun v hv => ?_⟩
  · have hrow : (create edges directed).neighbors u =
        .ok (SegmentedCsr.targets (expand edges directed) u) := by
      unfold neighbors
      rw [if_neg (not_le.mpr hu), ← bucket_sources, ← slice_buildRows _ hu]
      · rfl
      · intro item hitem
        obtain ⟨arc, harc, rfl⟩ := List.mem_map.mp hitem
        exact (hwithin arc harc).1
    refine ⟨_, hrow, SegmentedCsr.ascending_targets hsorted u, fun w => ?_⟩
    rw [SegmentedCsr.mem_targets, mem_expand]
  · have hrow : (create edges directed).inNeighbors v =
        .ok (((expand edges directed).filter fun arc => decide (arc.2 = v)).map Prod.fst) := by
      unfold inNeighbors
      rw [if_neg (not_le.mpr hv), ← bucket_targets, ← slice_buildRows _ hv]
      · rfl
      · intro item hitem
        obtain ⟨arc, harc, rfl⟩ := List.mem_map.mp hitem
        exact (hwithin arc harc).2
    refine ⟨_, hrow, ascending_sources hsorted v, fun u => ?_⟩
    change _ ↔ (u, v) ∈ ofEdges directed edges
    rw [← mem_expand]
    simp

/-- `has_edge` is membership. -/
theorem Holds.hasEdge {g : CsrGraph} {arcs : ArcSet} (h : Holds g arcs) (u v : VertexId) :
    g.hasEdge u v = present arcs u v := by
  unfold CsrGraph.hasEdge
  rw [Bool.eq_iff_iff, present_eq_true]
  split
  · rename_i hout
    refine iff_of_false (by simp) fun hmem => ?_
    have hlt := h.simple.within u v hmem
    simp only [Bool.or_eq_true, decide_eq_true_eq] at hout
    omega
  · rename_i hin
    simp only [Bool.or_eq_true, decide_eq_true_eq, not_or, not_le] at hin
    obtain ⟨row, hrow, hascending, hmem⟩ := h.neighbors u hin.1
    rw [hrow]
    dsimp only
    rw [binarySearch_eq_decide hascending, decide_eq_true_eq, hmem]

end CsrGraph

end VeloGraphX
