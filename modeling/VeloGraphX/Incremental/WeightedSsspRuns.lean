import Mathlib
import VeloGraphX.Incremental.WeightedSssp

/-!
# Runs of the weighted engine

A weighted graph is built by any calls, an engine is constructed on it with a source that is
a vertex, and batches follow. After every batch the distances are the least weights of walks
from the source, and a rejected batch has changed nothing.
-/

namespace VeloGraphX

open ShortestPath Weights

/-- The calls that change a weighted graph. -/
inductive WeightedCall
  | ensureVertex (v : VertexId)
  | apply (batch : WeightedUpdateBatch)

namespace WeightedCall

/-- Execute one call; a call that throws leaves behind what it has changed. -/
def exec (g : WeightedDynamicGraph) : WeightedCall → WeightedDynamicGraph
  | ensureVertex v => g.ensureVertex v
  | apply batch => (g.apply batch).2

/-- Execute a sequence of calls. -/
def run (g : WeightedDynamicGraph) (calls : List WeightedCall) : WeightedDynamicGraph :=
  calls.foldl exec g

end WeightedCall

namespace WeightedDynamicGraph

/-- Every reachable graph refines some weighted graph. -/
theorem exists_refines_run {g : WeightedDynamicGraph} {weights : Weights} (h : Refines g weights)
    (calls : List WeightedCall) : ∃ weights', Refines (WeightedCall.run g calls) weights' := by
  induction calls generalizing g weights with
  | nil => exact ⟨weights, h⟩
  | cons call rest ih =>
    cases call with
    | ensureVertex v => exact ih (h.ensureVertex v)
    | apply batch =>
      cases hreject : batch.updates.any rejects with
      | false => exact ih (h.apply hreject).2.1
      | true =>
        have hsame : WeightedCall.exec g (.apply batch) = g :=
          congrArg Prod.snd (apply_of_rejects g hreject)
        rw [WeightedCall.run, List.foldl_cons, hsame]
        exact ih h

end WeightedDynamicGraph

namespace IncrementalWeightedSSSP

/-- Execute a sequence of batches; a rejected batch leaves behind what it has changed. -/
def run (engine : IncrementalWeightedSSSP WeightedDynamicGraph)
    (batches : List WeightedUpdateBatch) : IncrementalWeightedSSSP WeightedDynamicGraph :=
  batches.foldl (fun engine batch => (engine.apply batch).2) engine

/-- The engine and the graph reject the same operations. -/
theorem rejects_eq : rejects = WeightedDynamicGraph.rejects := by
  funext op
  have hlimit : kDijkstraInf = kMaxFiniteWeightedDistance + 1 := by decide
  unfold rejects WeightedDynamicGraph.rejects
  rw [hlimit]
  rfl

/-- What every reachable engine keeps: the graph is a well-formed store, the distances are
exact in it, and the source is a vertex. -/
structure Sound (engine : IncrementalWeightedSSSP WeightedDynamicGraph) (weights : Weights) :
    Prop extends Correct engine weights where
  refines : WeightedDynamicGraph.Refines engine.graph weights
  source_lt : engine.source.val < engine.graph.vertexCount

variable {engine : IncrementalWeightedSSSP WeightedDynamicGraph} {weights : Weights}

/-- A batch with an over-large weight is rejected before anything changes. -/
theorem apply_of_rejects {batch : WeightedUpdateBatch} (hreject : batch.updates.any rejects = true) :
    engine.apply batch = (.error (.invalidArgument
      "edge weight exceeds the representable finite-distance domain"), engine) := by
  have hne : batch.empty = false := by
    rw [WeightedUpdateBatch.empty, List.isEmpty_eq_false_iff]
    rintro hnil
    rw [hnil] at hreject
    exact absurd hreject (by simp)
  unfold IncrementalWeightedSSSP.apply
  rw [hne, if_neg (by decide), if_pos hreject]

/-- The graph of the engine after an accepted batch. -/
theorem graph_apply {batch : WeightedUpdateBatch} (haccept : batch.updates.any rejects = false) :
    (engine.apply batch).2.graph = (engine.graph.apply batch).2 ∧
      (engine.apply batch).2.source = engine.source := by
  unfold IncrementalWeightedSSSP.apply
  split
  · rename_i hempty
    have hnil : batch.updates = [] := List.isEmpty_iff.mp hempty
    unfold WeightedDynamicGraph.apply
    rw [hnil, WeightedUpdateBatch.empty, hnil]
    exact ⟨rfl, rfl⟩
  · rw [if_neg (by rw [haccept]; decide)]
    have hok : (engine.graph.apply batch).1 = .ok () := by
      rw [rejects_eq] at haccept
      unfold WeightedDynamicGraph.apply
      rw [haccept]
      rfl
    dsimp only [WeightedGraphAccess.applyUpdates]
    rw [hok]
    dsimp only
    split <;> exact ⟨rfl, rfl⟩

/-- Whether it is accepted or not, a batch does to the engine's graph what it does to the graph alone. -/
theorem graph_exec (engine : IncrementalWeightedSSSP WeightedDynamicGraph)
    (batch : WeightedUpdateBatch) :
    (engine.apply batch).2.graph = WeightedCall.exec engine.graph (.apply batch) := by
  cases hreject : batch.updates.any rejects with
  | true =>
    rw [apply_of_rejects hreject, WeightedCall.exec,
      WeightedDynamicGraph.apply_of_rejects engine.graph (rejects_eq ▸ hreject)]
  | false => exact (graph_apply hreject).1

/-- The graph of the engine after a run is the graph after the same batches. -/
theorem graph_run (engine : IncrementalWeightedSSSP WeightedDynamicGraph)
    (batches : List WeightedUpdateBatch) :
    (engine.run batches).graph = WeightedCall.run engine.graph (batches.map .apply) := by
  induction batches generalizing engine with
  | nil => rfl
  | cons batch rest ih =>
    rw [List.map_cons, WeightedCall.run, List.foldl_cons, ← graph_exec]
    exact ih (engine.apply batch).2

/-- An engine on a graph that calls have built, and the graph after its batches. -/
theorem graph_run_create (g : WeightedDynamicGraph) (calls : List WeightedCall) (source : VertexId)
    (batches : List WeightedUpdateBatch) :
    ((create (WeightedCall.run g calls) source).run batches).graph =
      WeightedCall.run g (calls ++ batches.map .apply) := by
  rw [graph_run]
  exact List.foldl_append.symm

/-- Every batch keeps the engine sound, and the source. -/
theorem Sound.apply (h : Sound engine weights) (batch : WeightedUpdateBatch) :
    (∃ weights', Sound (engine.apply batch).2 weights') ∧
      (engine.apply batch).2.source = engine.source := by
  cases hreject : batch.updates.any rejects with
  | true =>
    rw [apply_of_rejects hreject]
    exact ⟨⟨weights, h⟩, rfl⟩
  | false =>
    have haccept : batch.updates.any WeightedDynamicGraph.rejects = false := rejects_eq ▸ hreject
    have hcorrect := h.toCorrect.apply h.source_lt hreject (h.refines.applies haccept)
    obtain ⟨-, hrefines, hcount, -⟩ := h.refines.apply haccept
    obtain ⟨hgraph, hsource⟩ := @graph_apply engine batch hreject
    refine ⟨⟨_, hcorrect.2, ?_, ?_⟩, hsource⟩
    · rw [hgraph]
      exact hrefines
    · rw [hgraph, hsource, hcount]
      exact h.source_lt.trans_le (ArcSet.le_growAll _ _)

/-- Every sequence of batches keeps the engine sound, and the source. -/
theorem Sound.run (h : Sound engine weights) (batches : List WeightedUpdateBatch) :
    (∃ weights', Sound (engine.run batches) weights') ∧
      (engine.run batches).source = engine.source := by
  induction batches generalizing engine weights with
  | nil => exact ⟨⟨weights, h⟩, rfl⟩
  | cons batch rest ih =>
    obtain ⟨⟨weights', hbatch⟩, hsource⟩ := h.apply batch
    obtain ⟨hrest, hsource'⟩ := ih hbatch
    exact ⟨hrest, hsource'.trans hsource⟩

/-- A new engine is sound. -/
theorem sound_create {g : WeightedDynamicGraph} (h : WeightedDynamicGraph.Refines g weights)
    {source : VertexId} (hsource : source.val < g.vertexCount) :
    Sound (create g source) weights :=
  ⟨correct_recompute h.serves, h, hsource⟩

/-- The distances of a sound engine are the least weights, cut off at the infinity. -/
theorem Sound.dist_spec (h : Sound engine weights) {v : VertexId}
    (hv : v.val < engine.graph.vertexCount) :
    (∀ c, IsLeast {c | Walk {engine.source} (arc weights) v c} c →
        engine.dist.getD v 0 = if c < kDijkstraInf then c else kDijkstraInf) ∧
      ((∀ c, ¬ Walk {engine.source} (arc weights) v c) →
        engine.dist.getD v 0 = kDijkstraInf) := by
  have hexact := h.exact_dist
  change Exact (startAt engine.source engine.graph.vertexCount) _ _ _ at hexact
  rw [startAt_eq_singleton h.source_lt] at hexact
  rw [← label_eq_getD kDijkstraInf (h.length_eq.symm ▸ hv) 0]
  refine ⟨fun c hc => ?_, hexact.eq_cap⟩
  rw [hexact.eq_min hc]
  split
  · exact min_eq_left (by omega)
  · exact min_eq_right (by omega)

/-- A distance and a weight add up inside the 64-bit range. -/
theorem Sound.addU64_eq (h : Sound engine weights) {u v : VertexId} {w : ℕ}
    (hweight : weights u v = some w) :
    addU64 (engine.dist.getD u 0) w = engine.dist.getD u 0 + w := by
  have hu := (h.refines.simple.within u w v hweight).1
  have hle := h.exact_dist.le_cap u
  rw [label_eq_getD kDijkstraInf (h.length_eq.symm ▸ hu) 0] at hle
  have hbound := h.refines.bounded u w v hweight
  have hlimit : kDijkstraInf + kMaxFiniteWeightedDistance < 2 ^ 64 := by decide
  exact Nat.mod_eq_of_lt (by omega)

/-- A batch is rejected for a weight above the limit, and then changes nothing. -/
theorem Sound.apply_ne_ok_iff (h : Sound engine weights) (batch : WeightedUpdateBatch) :
    ((engine.apply batch).1 ≠ .ok () ↔ ∃ op ∈ batch.updates, op.src ≠ op.dst ∧
        op.add = true ∧ kMaxFiniteWeightedDistance < op.weight) ∧
      ((engine.apply batch).1 ≠ .ok () → (engine.apply batch).2 = engine) := by
  cases hreject : batch.updates.any rejects with
  | true =>
    rw [apply_of_rejects hreject]
    refine ⟨iff_of_true (by simp) ?_, fun _ => rfl⟩
    rw [rejects_eq] at hreject
    obtain ⟨op, hop, hrejects⟩ := List.any_eq_true.mp hreject
    simp only [WeightedDynamicGraph.rejects, Bool.and_eq_true, decide_eq_true_eq] at hrejects
    exact ⟨op, hop, hrejects.1.1, hrejects.1.2, hrejects.2⟩
  | false =>
    have haccept : batch.updates.any WeightedDynamicGraph.rejects = false := rejects_eq ▸ hreject
    have hok := (h.toCorrect.apply h.source_lt hreject (h.refines.applies haccept)).1
    refine ⟨iff_of_false (not_not.mpr hok) ?_, fun hne => absurd hok hne⟩
    rintro ⟨op, hop, hne, hadd, hweight⟩
    have hnot := List.any_eq_false.mp haccept op hop
    simp [WeightedDynamicGraph.rejects, hne, hadd, hweight] at hnot

/-- After every batch the engine is on the graph that the calls and the batches make, the distances are
the least weights of walks from the source in it, no sum of a distance and a weight leaves the 64-bit
range, and a rejected batch changes nothing. -/
theorem distances_exact (vertices : ℕ) (directed : Bool) (calls : List WeightedCall)
    (source : VertexId)
    (hsource : source.val <
      (WeightedCall.run (.create vertices directed) calls).vertexCount)
    (batches : List WeightedUpdateBatch) :
    let engine := (create (WeightedCall.run (.create vertices directed) calls) source).run batches
    engine.graph = WeightedCall.run (.create vertices directed) (calls ++ batches.map .apply) ∧
      engine.dist.length = engine.graph.vertexCount ∧
      (∀ v : VertexId, v.val < engine.graph.vertexCount →
        (∀ c, IsLeast {c | Walk {source} (arc engine.graph.weight) v c} c →
          engine.dist.getD v 0 = if c < kDijkstraInf then c else kDijkstraInf) ∧
        ((∀ c, ¬ Walk {source} (arc engine.graph.weight) v c) →
          engine.dist.getD v 0 = kDijkstraInf)) ∧
      (∀ u v w, engine.graph.weight u v = some w →
        addU64 (engine.dist.getD u 0) w = engine.dist.getD u 0 + w) ∧
      ∀ batch, ((engine.apply batch).1 ≠ .ok () ↔ ∃ op ∈ batch.updates, op.src ≠ op.dst ∧
          op.add = true ∧ kMaxFiniteWeightedDistance < op.weight) ∧
        ((engine.apply batch).1 ≠ .ok () → (engine.apply batch).2 = engine) := by
  obtain ⟨weights, hrefines⟩ := WeightedDynamicGraph.exists_refines_run
    (WeightedDynamicGraph.refines_create vertices directed) calls
  obtain ⟨⟨weights', h⟩, hkept⟩ := (sound_create hrefines hsource).run batches
  have hgraph := graph_run_create (.create vertices directed) calls source batches
  change (run _ batches).source = source at hkept
  dsimp only
  generalize (create (WeightedCall.run (.create vertices directed) calls) source).run batches =
    engine at h hkept hgraph ⊢
  refine ⟨hgraph, ?_⟩
  rw [h.refines.weight_eq, ← hkept]
  exact ⟨h.length_eq, fun v hv => h.dist_spec hv, fun u v w hweight => h.addU64_eq hweight,
    h.apply_ne_ok_iff⟩

/-- An insertion and a rejected batch on a graph with three vertices: the arc is the only one, its
weight the distance of its end, and whatever reaches the third vertex weighs more than is finite. -/
theorem distances_exact_insert :
    let engine := (create (WeightedCall.run (.create 0 true) [.ensureVertex 2]) 0).run
      [⟨[⟨0, 1, 5, true, 0⟩]⟩, ⟨[⟨0, 2, kDijkstraInf, true, 0⟩]⟩]
    engine.dist = [0, 5, kDijkstraInf] ∧
      (∀ c, IsLeast {c | Walk {0} (arc engine.graph.weight) 1 c} c → c = 5) ∧
      (∀ c, IsLeast {c | Walk {0} (arc engine.graph.weight) 2 c} c → kDijkstraInf ≤ c) := by
  intro engine
  have hdist : engine.dist = [0, 5, kDijkstraInf] := by decide +kernel
  have hcount : engine.graph.vertexCount = 3 := by decide +kernel
  obtain ⟨-, -, hexact, -⟩ := distances_exact 0 true [.ensureVertex 2] 0 (by decide)
    [⟨[⟨0, 1, 5, true, 0⟩]⟩, ⟨[⟨0, 2, kDijkstraInf, true, 0⟩]⟩]
  refine ⟨hdist, fun c hc => ?_, fun c hc => ?_⟩
  · have hvalue := (hexact 1 (by rw [hcount]; decide)).1 c hc
    change engine.dist.getD 1 0 = _ at hvalue
    rw [hdist] at hvalue
    split at hvalue
    · exact hvalue.symm
    · exact absurd hvalue (by decide)
  · have hvalue := (hexact 2 (by rw [hcount]; decide)).1 c hc
    change engine.dist.getD 2 0 = _ at hvalue
    rw [hdist] at hvalue
    by_contra hfinite
    rw [if_pos (not_le.mp hfinite)] at hvalue
    exact hfinite hvalue.le

end IncrementalWeightedSSSP

end VeloGraphX
