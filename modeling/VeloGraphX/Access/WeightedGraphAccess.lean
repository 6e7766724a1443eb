import Mathlib
import VeloGraphX.Storage.WeightedDynamicGraph

/-!
# Weighted graph access

The access functions of the weighted engine. `Serves` says that they answer from one
weighted graph, `Applies` what an accepted batch does.
-/

namespace VeloGraphX

open Weights

/-- The access functions the weighted engine uses. An update may throw; the graph that is
left behind is part of its result. -/
class WeightedGraphAccess (G : Type) where
  vertexCount : G → ℕ
  isDirected : G → Bool
  edgeWeight : G → VertexId → VertexId → Option ℕ
  forEachWeightedNeighbor : G → VertexId → List (VertexId × ℕ)
  applyUpdates : G → WeightedUpdateBatch → Except Exception Unit × G

namespace WeightedGraphAccess

variable {G : Type} [WeightedGraphAccess G]

/-- The access functions answer from one weighted graph. -/
structure Serves (g : G) (weights : Weights) : Prop where
  mem_neighbor : ∀ u v w, (v, w) ∈ forEachWeightedNeighbor g u ↔ weights u v = some w
  edgeWeight : ∀ u v, WeightedGraphAccess.edgeWeight g u v = weights u v
  simple : Simple (isDirected g) (vertexCount g) weights

/-- What an accepted batch does to a graph. -/
structure Applies (g : G) (weights : Weights) (batch : WeightedUpdateBatch) : Prop where
  accepted : (applyUpdates g batch).1 = .ok ()
  serves : Serves (applyUpdates g batch).2 (applyAll (isDirected g) weights batch.updates)
  directed : isDirected (applyUpdates g batch).2 = isDirected g
  vertexCount_le : vertexCount g ≤ vertexCount (applyUpdates g batch).2

end WeightedGraphAccess

/-- The weighted dynamic graph as a backend. -/
instance : WeightedGraphAccess WeightedDynamicGraph where
  vertexCount := WeightedDynamicGraph.vertexCount
  isDirected := WeightedDynamicGraph.directed
  edgeWeight := WeightedDynamicGraph.weight
  forEachWeightedNeighbor := WeightedDynamicGraph.forEachNeighbor
  applyUpdates := WeightedDynamicGraph.apply

namespace WeightedDynamicGraph

variable {g : WeightedDynamicGraph} {weights : Weights}

/-- A reachable weighted graph serves its weights. -/
theorem Refines.serves (h : Refines g weights) : WeightedGraphAccess.Serves g weights := by
  refine ⟨fun u v w => ?_, fun u v => congrFun (congrFun h.weight_eq u) v, h.simple⟩
  rw [← h.weight_eq]
  exact mem_forEachNeighbor g u v w

/-- An accepted batch on a reachable weighted graph. -/
theorem Refines.applies (h : Refines g weights) {batch : WeightedUpdateBatch}
    (haccept : batch.updates.any rejects = false) :
    WeightedGraphAccess.Applies g weights batch := by
  obtain ⟨hok, hrefines, hcount, hdirected⟩ := h.apply haccept
  exact ⟨hok, hrefines.serves, hdirected, (ArcSet.le_growAll _ _).trans hcount.ge⟩

end WeightedDynamicGraph

end VeloGraphX
