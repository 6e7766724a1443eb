import Mathlib
import VeloGraphX.Access.GraphAccess
import VeloGraphX.Storage.CsrGraph

/-!
# The simple graph of an undirected store

The arcs of an undirected graph come in opposite pairs and never form loops, so they are the
edges of a simple graph; results about degrees, cores and cliques are stated of it.
-/

namespace VeloGraphX

open ArcSet GraphAccess

/-- The simple graph of a set of arcs. -/
def graphOf (arcs : ArcSet) : SimpleGraph VertexId := SimpleGraph.fromRel fun u v => (u, v) ∈ arcs

variable {arcs : ArcSet} {u v : VertexId}

/-- In an undirected graph the edges are the arcs. -/
theorem graphOf_adj (hundirected : Undirected arcs) (hloopless : Loopless arcs) :
    (graphOf arcs).Adj u v ↔ (u, v) ∈ arcs := by
  rw [graphOf, SimpleGraph.fromRel_adj]
  refine ⟨fun hadj => hadj.2.elim id (hundirected v u), fun harc => ⟨?_, Or.inl harc⟩⟩
  rintro rfl
  exact hloopless u harc

/-- The simple graph that a store enumerates. -/
theorem GraphAccess.Serves.fromRel_eq {G : Type} [GraphAccess G] {g : G} (h : Serves g arcs) :
    (SimpleGraph.fromRel fun p q => q ∈ forEachNeighbor g p) = graphOf arcs := by
  refine congrArg SimpleGraph.fromRel ?_
  funext p q
  exact propext (h.mem_neighbor p q)

/-- The simple graph of a static graph, whose edges `has_edge` confirms. -/
def CsrGraph.edgeGraph (g : CsrGraph) : SimpleGraph VertexId :=
  SimpleGraph.fromRel fun u v => g.hasEdge u v = true

/-- It is the graph of the arcs. -/
theorem CsrGraph.Holds.edgeGraph_eq {g : CsrGraph} (h : g.Holds arcs) :
    g.edgeGraph = graphOf arcs := by
  refine congrArg SimpleGraph.fromRel (funext fun u => funext fun v => propext ?_)
  rw [h.hasEdge, present_eq_true]

end VeloGraphX
