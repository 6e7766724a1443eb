import Mathlib
import VeloGraphX.Storage.DynamicGraphReverse

/-!
# Copies of a dynamic graph

A copy is made from a list of the edges of a graph, which names each edge of an undirected graph
once. It shows the graph it was made from, is compact, and is read backwards exactly.
-/

namespace VeloGraphX

open SortedList ArcSet

namespace ArcSet

variable {directed : Bool} {arcs : ArcSet} {n : ℕ}

/-- A list that names every edge of a simple graph at least once determines its arcs. -/
theorem Simple.ofEdges_eq (h : Simple directed n arcs) {edges : List (VertexId × VertexId)}
    (hsound : ∀ e ∈ edges, e ∈ arcs)
    (hcomplete : ∀ u v, (u, v) ∈ arcs → (u, v) ∈ edges ∨ directed = false ∧ (v, u) ∈ edges) :
    ofEdges directed edges = arcs := by
  refine Set.ext fun ⟨u, v⟩ => ⟨fun ⟨_, hor⟩ => ?_, fun hmem => ⟨?_, hcomplete u v hmem⟩⟩
  · rcases hor with hedge | ⟨hdirected, hedge⟩
    · exact hsound _ hedge
    · exact h.undirected hdirected v u (hsound _ hedge)
  · rintro (rfl : u = v)
    exact h.loopless u hmem

/-- Edges between existing vertices make no new ones. -/
theorem growAll_of_within {edges : List (VertexId × VertexId)}
    (h : ∀ e ∈ edges, e.1.val < n ∧ e.2.val < n) : growAll n (insertions edges) = n := by
  induction edges with
  | nil => rfl
  | cons e rest ih =>
    have hgrow : growBy n ⟨e.1, e.2, true, 0⟩ = n := by
      have hlt := h e List.mem_cons_self
      unfold growBy
      split
      · rfl
      · dsimp only
        omega
    have hrest := ih fun e' he' => h e' (List.mem_cons_of_mem _ he')
    change growAll (growBy n ⟨e.1, e.2, true, 0⟩) (insertions rest) = n
    rw [hgrow, hrest]

end ArcSet

namespace DynamicGraph

variable {D : Type} {g copy : DynamicGraph D} {arcs : ArcSet}

/-- A compact graph that shows what another does and whose in-neighbours are the transpose of its
neighbours. -/
structure IsCopy (g copy : DynamicGraph D) : Prop where
  compact : copy.isCompact = true
  directed : copy.directed = g.directed
  vertexCount : copy.vertexCount = g.vertexCount
  neighbors : ∀ u, copy.neighbors u = g.neighbors u
  hasEdge : ∀ u v, copy.hasEdge u v = g.hasEdge u v
  edgeCountDirected : copy.edgeCountDirected = g.edgeCountDirected
  ascending : ∀ v, Ascending id (copy.inNeighbors v)
  transposed : ∀ u v, u ∈ copy.inNeighbors v ↔ v ∈ copy.neighbors u

/-- The in-neighbours of mirrored views are the sources of the represented arcs. -/
theorem Mirrored.mem_inNeighbors (h : Mirrored g arcs) (u v : VertexId) :
    u ∈ g.inNeighbors v ↔ v ∈ g.neighbors u := by
  rw [inNeighbors, Side.mem_materializeRow h.reverse.delta (h.reverse.ascending v), h.agree,
    DynamicGraph.neighbors, Side.mem_materializeRow h.outgoing.delta (h.outgoing.ascending u)]

/-- A compact mirrored graph with the same vertices and arcs is a copy. -/
theorem Mirrored.isCopy (h : Mirrored copy arcs) (hg : Refines g arcs)
    (hcompact : copy.isCompact = true) (hdirected : copy.directed = g.directed)
    (hcount : copy.vertexCount = g.vertexCount) : IsCopy g copy := by
  refine ⟨hcompact, hdirected, hcount, fun u => ?_, fun u v => ?_, ?_, fun v => ?_, h.mem_inNeighbors⟩
  · refine eq_of_mem_iff (h.ascending_neighbors u) (hg.ascending_neighbors u) fun v => ?_
    rw [h.mem_neighbors, hg.mem_neighbors]
  · rw [h.hasEdge, hg.hasEdge]
  · rw [h.edgeCountDirected_eq.2, hg.edgeCountDirected_eq.2]
  · exact Side.ascending_materializeRow h.reverse.delta (h.reverse.ascending v)

end DynamicGraph

end VeloGraphX
