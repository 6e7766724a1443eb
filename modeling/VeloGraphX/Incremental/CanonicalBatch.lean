import Mathlib
import VeloGraphX.Incremental.ComponentRepair
import VeloGraphX.Incremental.WeightedSssp
import VeloGraphX.Storage.DynamicGraphCalls
import VeloGraphX.Storage.WeightedDynamicGraph

/-!
# The canonical form of a batch

The engines hand the raw batch to the graph and decide on repairs by its canonical form. Both
write the same arcs, and the last operation on each arc is the same, so on the abstract graphs
they have one effect. The weighted store validates a batch before it applies it: it can reject a
raw batch for the weight of an operation that the canonical form has dropped.
-/

namespace VeloGraphX

open LastWrite ArcSet

/-- The canonical form has the effect of the batch on the arcs. -/
theorem applyAll_canonicalizeUndirected (arcs : ArcSet) (batch : UpdateBatch) :
    applyAll false arcs (canonicalizeUndirected batch).updates =
      applyAll false arcs batch.updates := by
  refine Set.ext fun ⟨u, v⟩ => ?_
  rw [← present_eq_true, ← present_eq_true, present_applyAll, present_applyAll]
  exact Bool.eq_iff_iff.mp ((locates_componentEntry u v).lastWrite_keepLast batch.updates _)

/-- The canonical form makes the vertices that the batch does. -/
theorem growAll_canonicalizeUndirected (n : ℕ) (batch : UpdateBatch) :
    growAll n (canonicalizeUndirected batch).updates = growAll n batch.updates :=
  growAll_congr (fun u v => (locates_componentEntry u v).exists_write_iff) n

/-- The canonical form has the effect of the batch on the weights. -/
theorem applyAll_canonicalizeWeighted (directed : Bool) (weights : Weights)
    (batch : WeightedUpdateBatch) :
    Weights.applyAll directed weights (canonicalizeWeighted directed batch).updates =
      Weights.applyAll directed weights batch.updates := by
  funext u v
  exact (locates_canonicalEntry directed u v).lastWrite_keepLast batch.updates _

/-- An operation with a weight writes the arcs that it writes without it. -/
theorem exists_writeOn_edge_iff {directed : Bool} {u v : VertexId}
    {updates : List WeightedEdgeUpdate} :
    (∃ op ∈ updates.map (·.edge), (writeOn directed u v op).isSome) ↔
      ∃ op ∈ updates, (Weights.weightOn directed u v op).isSome := by
  simp only [List.mem_map, exists_exists_and_eq_and, Weights.weightOn, Option.isSome_map]

/-- The canonical form makes the vertices that the weighted batch does. -/
theorem growAll_canonicalizeWeighted (n : ℕ) (directed : Bool) (batch : WeightedUpdateBatch) :
    growAll n ((canonicalizeWeighted directed batch).updates.map (·.edge)) =
      growAll n (batch.updates.map (·.edge)) := by
  refine @growAll_congr directed _ _ (fun u v => ?_) n
  rw [exists_writeOn_edge_iff, exists_writeOn_edge_iff]
  exact (locates_canonicalEntry directed u v).exists_write_iff

/-- A batch is rejected along with its canonical form. -/
theorem any_rejects_of_canonical {directed : Bool} {batch : WeightedUpdateBatch}
    (h : (canonicalizeWeighted directed batch).updates.any WeightedDynamicGraph.rejects = true) :
    batch.updates.any WeightedDynamicGraph.rejects = true := by
  obtain ⟨kept, hkept, hrejects⟩ := List.any_eq_true.mp h
  obtain ⟨op, hop, key, hentry⟩ := exists_of_mem_keepLast hkept
  refine List.any_eq_true.mpr ⟨op, hop, ?_⟩
  unfold canonicalEntry at hentry
  split at hentry
  · exact absurd hentry (by simp)
  · obtain ⟨-, rfl⟩ := Prod.mk.inj (Option.some.inj hentry)
    unfold WeightedDynamicGraph.rejects at hrejects ⊢
    split at hrejects
    · rwa [show (decide (op.src ≠ op.dst)) = decide (op.dst ≠ op.src) by
        rw [decide_eq_decide]; exact ne_comm]
    · exact hrejects

/-- Weighted graphs with the same vertices and the same edges of the same weights. -/
def SameWeights (g g' : WeightedDynamicGraph) : Prop :=
  g.vertexCount = g'.vertexCount ∧ g.weight = g'.weight ∧
    ∀ u, g.forEachNeighbor u = g'.forEachNeighbor u

/-- The rows of graphs with the same vertices follow their weights. -/
theorem sameWeights_iff {g g' : WeightedDynamicGraph} :
    SameWeights g g' ↔ g.vertexCount = g'.vertexCount ∧ g.weight = g'.weight := by
  refine ⟨fun h => ⟨h.1, h.2.1⟩, fun ⟨hcount, hweight⟩ => ⟨hcount, hweight, fun u => ?_⟩⟩
  have hlength : g.adjacency.length = g'.adjacency.length := hcount
  unfold WeightedDynamicGraph.forEachNeighbor
  rw [hlength]
  split
  · rfl
  · refine Std.TreeMap.Equiv.toList_eq (Std.TreeMap.Equiv.of_forall_constGet?_eq fun v => ?_)
    rw [← WeightedDynamicGraph.weight_eq, ← WeightedDynamicGraph.weight_eq, hweight]

/-- The canonical form of a batch leaves the vertices, edges and weights behind that the batch
does. -/
def CanonicalApplies (g : WeightedDynamicGraph) (batch : WeightedUpdateBatch) : Prop :=
  SameWeights (g.apply (canonicalizeWeighted g.directed batch)).2 (g.apply batch).2

/-- Where the store accepts the batch, or rejects its canonical form as well, both leave the same
graph behind. -/
theorem canonicalApplies_of {g : WeightedDynamicGraph} {batch : WeightedUpdateBatch}
    (h : batch.updates.any WeightedDynamicGraph.rejects = false ∨
      (canonicalizeWeighted g.directed batch).updates.any WeightedDynamicGraph.rejects = true) :
    CanonicalApplies g batch := by
  cases h with
  | inl haccept =>
    have hcanonical : (canonicalizeWeighted g.directed batch).updates.any
        WeightedDynamicGraph.rejects = false :=
      Bool.eq_false_iff.mpr fun hrejects => by
        rw [any_rejects_of_canonical hrejects] at haccept
        exact Bool.noConfusion haccept
    obtain ⟨-, hweight, hcount, -⟩ := g.apply_spec haccept
    obtain ⟨-, hweight', hcount', -⟩ := g.apply_spec hcanonical
    refine sameWeights_iff.mpr ⟨?_, ?_⟩
    · rw [hcount', hcount, growAll_canonicalizeWeighted]
    · rw [hweight', hweight, applyAll_canonicalizeWeighted]
  | inr hrejects =>
    unfold CanonicalApplies
    rw [WeightedDynamicGraph.apply_of_rejects g hrejects,
      WeightedDynamicGraph.apply_of_rejects g (any_rejects_of_canonical hrejects)]
    exact ⟨rfl, rfl, fun _ => rfl⟩

/-- Canonical batches leave behind the graphs that the batches do: in the weighted store unless it
rejects the batch only for operations that the canonical form has dropped, and in every undirected
dynamic graph. -/
theorem canonical_batches_apply :
    (∀ (g : WeightedDynamicGraph) (batch : WeightedUpdateBatch),
      (batch.updates.any WeightedDynamicGraph.rejects = false ∨
        (canonicalizeWeighted g.directed batch).updates.any WeightedDynamicGraph.rejects = true) →
      CanonicalApplies g batch) ∧
    ∀ (D : Type) [DoubleArith D] (vertices : ℕ) (calls : List (Call D)) (batch : UpdateBatch),
      let g : DynamicGraph D := Call.run (.create vertices false) calls
      (g.apply (canonicalizeUndirected batch)).vertexCount = (g.apply batch).vertexCount ∧
        ∀ u, (g.apply (canonicalizeUndirected batch)).neighbors u = (g.apply batch).neighbors u := by
  refine ⟨fun g batch h => canonicalApplies_of h, fun D _ vertices calls batch => ?_⟩
  obtain ⟨hrun, hdirected⟩ := (@DynamicGraph.refines_create D vertices false).1.run calls
  dsimp only
  generalize Call.run (.create vertices false : DynamicGraph D) calls = g at hrun hdirected ⊢
  have hundirected : g.directed = false := hdirected
  obtain ⟨hraw, hcount, -⟩ := hrun.apply batch
  obtain ⟨hcanonical, hcount', -⟩ := hrun.apply (canonicalizeUndirected batch)
  rw [hundirected] at hraw hcanonical
  rw [applyAll_canonicalizeUndirected] at hcanonical
  refine ⟨?_, hcanonical.neighbors_eq hraw.toRepresents⟩
  rw [hcount', hcount, growAll_canonicalizeUndirected]

/-- The case of an insertion that overrides a removal given the other way round. -/
theorem canonical_batches_apply_reversed :
    CanonicalApplies (.create 0 false) ⟨[⟨1, 0, 3, false, 0⟩, ⟨0, 1, 5, true, 0⟩]⟩ :=
  canonical_batches_apply.1 _ _ (Or.inl (by decide))

/-- An overridden insertion of too large a weight makes the store reject the batch, but not its
canonical form. -/
theorem not_canonical_batches_apply :
    ¬ CanonicalApplies (.create 0 false)
      ⟨[⟨0, 1, 2 ^ 64 - 1, true, 0⟩, ⟨0, 1, 1, true, 0⟩]⟩ := by
  intro happlies
  have hcount := happlies.1
  exact absurd hcount (by decide)

end VeloGraphX
