import Mathlib
import VeloGraphX.Algorithms.StaticPageRank
import VeloGraphX.Algorithms.StaticTriangles
import VeloGraphX.Kernels.Intersection
import VeloGraphX.Lib.Jaccard

/-!
# Similarity of vertices

The common neighbours of two vertices are counted by merging their rows, and their share of all
neighbours of the two is the similarity. One minus it is a distance on the rows; summed over the
edges of an undirected graph, the common neighbours are three times the triangles that
`triangle_count` finds.
-/

namespace VeloGraphX

open FuelLoop ArcSet SortedList Kernels

namespace CsrGraph

/-- `common_neighbor_count`: the merge of `scalar_intersection` over two rows. No row is longer than
there are ids, so its count stays below `2 ^ 64`. -/
def commonNeighborCount (g : CsrGraph) (u v : VertexId) : Except Exception ℕ := do
  let a ← g.neighbors u
  let b ← g.neighbors v
  return scalarIntersection a b

/-- The successors of a vertex. -/
noncomputable def rowSet (arcs : ArcSet) (u : VertexId) : Finset VertexId :=
  (Set.toFinite {v | (u, v) ∈ arcs}).toFinset

variable {g : CsrGraph} {arcs : ArcSet} {u v : VertexId}

/-- A row lists the successors. -/
theorem Holds.successors (h : g.Holds arcs) (hu : u.val < g.vertexCount) :
    ∃ row, g.neighbors u = .ok row ∧ Ascending id row ∧ row.toFinset = rowSet arcs u := by
  obtain ⟨row, hrow, hascending, hmem⟩ := h.neighbors u hu
  refine ⟨row, hrow, hascending, Finset.ext fun v => ?_⟩
  rw [List.mem_toFinset, rowSet, Set.Finite.mem_toFinset]
  exact hmem v

/-- The common neighbours of two vertices are counted. -/
theorem Holds.commonNeighborCount (h : g.Holds arcs) (hu : u.val < g.vertexCount)
    (hv : v.val < g.vertexCount) :
    g.commonNeighborCount u v = .ok (rowSet arcs u ∩ rowSet arcs v).card := by
  obtain ⟨a, ha, hascending, hset⟩ := h.successors hu
  obtain ⟨b, hb, hascending', hset'⟩ := h.successors hv
  rw [CsrGraph.commonNeighborCount, ha, hb, ← hset, ← hset', ← common_eq_card hascending,
    ← scalarIntersection_eq hascending hascending']
  rfl

/-- In an undirected graph the common successors are the common neighbours. -/
theorem Holds.card_inter_rows (h : g.Holds arcs) (hundirected : Undirected arcs) (u v : VertexId) :
    (rowSet arcs u ∩ rowSet arcs v).card = ((graphOf arcs).commonNeighbors u v).ncard := by
  rw [← Set.ncard_coe_finset]
  refine congrArg Set.ncard (Set.ext fun w => ?_)
  rw [Finset.mem_coe, Finset.mem_inter, rowSet, rowSet, Set.Finite.mem_toFinset,
    Set.Finite.mem_toFinset, SimpleGraph.mem_commonNeighbors,
    graphOf_adj hundirected h.simple.loopless, graphOf_adj hundirected h.simple.loopless]
  rfl

open Classical in
/-- Over the edges of an undirected graph the common neighbours add up to three times what
`triangle_count` counts, in 64 bits; and every backend with the same arcs has the same ones. -/
theorem sum_commonNeighborCount (edges : List (VertexId × VertexId))
    (hn : (create edges false).vertexCount < 2 ^ 32) :
    let g := create edges false
    let total := ∑ p : VertexId × VertexId with p.1 < p.2 ∧ g.edgeGraph.Adj p.1 p.2,
      (g.commonNeighborCount p.1 p.2).toOption.getD 0
    total = 3 * Triangles.triangleCount g.edgeGraph ∧
      Returns (fun fuel => StaticTriangles.triangleCount g fuel) (fun result =>
        ∃ triangles, result = .ok triangles ∧ total % 2 ^ 64 = 3 * triangles % 2 ^ 64) ∧
      ∀ (G : Type) [GraphAccess G] (g' : G), GraphAccess.Serves g' (ofEdges false edges) →
        ∀ u v : VertexId, u.val < g.vertexCount → v.val < g.vertexCount →
          g.commonNeighborCount u v = .ok (IncrementalTriangleCount.commonNeighbors g' u v) := by
  have hholds := holds_create edges false
  have hundirected : Undirected (ofEdges false edges) := hholds.simple.undirected rfl
  have htotal : ∑ p : VertexId × VertexId with p.1 < p.2 ∧
      (create edges false).edgeGraph.Adj p.1 p.2,
        ((create edges false).commonNeighborCount p.1 p.2).toOption.getD 0 =
      3 * Triangles.triangleCount (create edges false).edgeGraph := by
    rw [hholds.edgeGraph_eq, ← Triangles.sum_commonNeighbors]
    refine Finset.sum_congr rfl ?_
    simp only [Finset.mem_filter, graphOf_adj hundirected hholds.simple.loopless]
    intro p hp
    obtain ⟨hu, hv⟩ := hholds.simple.within p.1 p.2 hp.2.2
    rw [hholds.commonNeighborCount hu hv, hholds.card_inter_rows hundirected]
    rfl
  dsimp only
  refine ⟨htotal, ?_, fun G _ g' hserves u v hu hv => ?_⟩
  · refine (StaticTriangles.returns_triangleCount hholds rfl hn).mono fun result hresult => ?_
    refine ⟨_, hresult, ?_⟩
    rw [htotal, hholds.edgeGraph_eq, Nat.mul_mod_mod]
  · rw [hholds.commonNeighborCount hu hv, hholds.card_inter_rows hundirected,
      IncrementalTriangleCount.commonNeighbors_eq hserves hundirected]

open Classical in
/-- The case of one triangle. -/
theorem sum_commonNeighborCount_one :
    let g := create [(0, 1), (1, 2), (2, 0)] false
    ∑ p : VertexId × VertexId with p.1 < p.2 ∧ g.edgeGraph.Adj p.1 p.2,
      (g.commonNeighborCount p.1 p.2).toOption.getD 0 = 3 := by
  intro g
  have hsum := (sum_commonNeighborCount [(0, 1), (1, 2), (2, 0)]
    (by rw [vertexCount_create]; decide)).1
  rwa [StaticTriangles.triangleCount_triangle] at hsum

end CsrGraph

end VeloGraphX
