import Mathlib
import VeloGraphX.Model.ArcSet
import VeloGraphX.Storage.DynamicGraphReverse

/-!
# Graph access

The engines see a graph only through a handful of access functions, so they run on any
backend that provides them. `Serves` says that the functions answer from one set of arcs,
`Transposes` that the in-rows are the transpose of the out-rows, and `Applies` what a batch
does. The dynamic graph satisfies the first and the last in every reachable state.
-/

namespace VeloGraphX

open SortedList ArcSet

/-- The access functions the engines use. -/
class GraphAccess (G : Type) where
  vertexCount : G → ℕ
  isDirected : G → Bool
  forEachNeighbor : G → VertexId → List VertexId
  forEachInNeighbor : G → VertexId → List VertexId
  hasEdge : G → VertexId → VertexId → Bool
  applyUpdates : G → UpdateBatch → G

namespace GraphAccess

variable {G : Type} [GraphAccess G]

/-- The access functions answer from one set of arcs of a simple graph. -/
structure Serves (g : G) (arcs : ArcSet) : Prop where
  nodup : ∀ u, (forEachNeighbor g u).Nodup
  mem_neighbor : ∀ u v, v ∈ forEachNeighbor g u ↔ (u, v) ∈ arcs
  hasEdge : ∀ u v, GraphAccess.hasEdge g u v = present arcs u v
  simple : Simple (isDirected g) (vertexCount g) arcs

/-- The in-rows are the transpose of the out-rows. -/
structure Transposes (g : G) (arcs : ArcSet) : Prop where
  nodup : ∀ v, (forEachInNeighbor g v).Nodup
  mem_inNeighbor : ∀ u v, u ∈ forEachInNeighbor g v ↔ (u, v) ∈ arcs

/-- What a batch does to a graph: the arcs change as in the abstract graph, and no vertex
disappears. -/
structure Applies (g : G) (arcs : ArcSet) (batch : UpdateBatch) : Prop where
  serves : Serves (applyUpdates g batch) (applyAll (isDirected g) arcs batch.updates)
  directed : isDirected (applyUpdates g batch) = isDirected g
  vertexCount_le : vertexCount g ≤ vertexCount (applyUpdates g batch)
  vertexCount_nil : batch.updates = [] →
    vertexCount (applyUpdates g batch) = vertexCount g

end GraphAccess

/-- The dynamic graph as a backend. -/
instance {D : Type} [DoubleArith D] : GraphAccess (DynamicGraph D) where
  vertexCount := DynamicGraph.vertexCount
  isDirected := DynamicGraph.directed
  forEachNeighbor := DynamicGraph.forEachNeighbor
  forEachInNeighbor := DynamicGraph.forEachInNeighbor
  hasEdge := DynamicGraph.hasEdge
  applyUpdates g batch := g.apply batch

namespace DynamicGraph

variable {D : Type} [DoubleArith D] {g : DynamicGraph D} {arcs : ArcSet}

/-- A reachable dynamic graph serves the arcs it represents. -/
theorem Refines.serves (h : Refines g arcs) : GraphAccess.Serves g arcs := by
  refine ⟨fun u => ?_, fun u v => ?_, h.hasEdge, h.simple⟩
  · change (g.forEachNeighbor u).Nodup
    rw [forEachNeighbor_eq]
    exact (h.ascending_neighbors u).imp ne_of_lt
  · change v ∈ g.forEachNeighbor u ↔ _
    rw [forEachNeighbor_eq]
    exact h.mem_neighbors u v

/-- A dynamic graph with mirrored views has transposed in-rows. -/
theorem Mirrored.transposes (h : Mirrored g arcs) : GraphAccess.Transposes g arcs := by
  refine ⟨fun v => ?_, fun u v => ?_⟩
  · change (g.forEachInNeighbor v).Nodup
    rw [forEachInNeighbor_eq]
    exact (Side.ascending_materializeRow h.reverse.delta (h.reverse.ascending v)).imp ne_of_lt
  · change u ∈ g.forEachInNeighbor v ↔ _
    rw [forEachInNeighbor_eq, inNeighbors,
      Side.mem_materializeRow h.reverse.delta (h.reverse.ascending v), h.agree, h.has,
      present_eq_true]

/-- A batch on a reachable dynamic graph. -/
theorem Refines.applies (h : Refines g arcs) (batch : UpdateBatch) :
    GraphAccess.Applies g arcs batch := by
  obtain ⟨hrefines, hcount, hdirected, -⟩ := h.apply batch
  refine ⟨hrefines.serves, hdirected, ?_, fun hnil => ?_⟩
  · exact (le_growAll _ _).trans hcount.ge
  · rw [hnil] at hcount
    exact hcount

end DynamicGraph

end VeloGraphX
