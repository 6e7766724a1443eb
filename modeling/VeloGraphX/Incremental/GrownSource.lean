import Mathlib
import VeloGraphX.Incremental.SsspRuns
import VeloGraphX.Incremental.WeightedSsspRuns

/-!
# A source that becomes a vertex later

The constructors accept a source that is not a vertex yet; no vertex is reached from it. When a
batch makes the graph grow past it, only a recomputation gives it the distance zero: the
incremental path of each engine starts from finite distances, and there are none. So the
breadth-first engine never notices its source, and the other two notice it in a batch that
makes them recompute.
-/

namespace VeloGraphX

open FuelLoop PointUpdate PriorityQueue ShortestPath ArcSet

/-- No distance is finite. -/
def Blank (cap : ℕ) (dist : List ℕ) : Prop := ∀ d ∈ dist, d = cap

/-- A cell of an array without finite distances. -/
theorem Blank.getD {cap : ℕ} {dist : List ℕ} (h : Blank cap dist) {i : ℕ} (hi : i < dist.length)
    (d : ℕ) : dist.getD i d = cap := by
  rw [List.getD_eq_getElem _ _ hi]
  exact h _ (List.getElem_mem hi)

/-- A new array. -/
theorem blank_replicate (cap n : ℕ) : Blank cap (List.replicate n cap) :=
  fun _ hd => List.eq_of_mem_replicate hd

/-- An array that grows with the graph. -/
theorem Blank.grown {cap : ℕ} {dist : List ℕ} (h : Blank cap dist) (n : ℕ) :
    Blank cap (if dist.length < n then resize dist n cap else dist) := by
  split
  · intro d hd
    rcases List.mem_append.mp hd with hold | hnew
    · exact h d (List.mem_of_mem_take hold)
    · exact List.eq_of_mem_replicate hnew
  · exact h

/-- The length of an array that grows with the graph. -/
theorem le_length_grown (cap : ℕ) (dist : List ℕ) (n : ℕ) :
    n ≤ (if dist.length < n then resize dist n cap else dist).length := by
  split
  · exact (length_resize _ _ _).ge
  · omega

/-- Steps that change nothing. -/
theorem foldl_eq_self {α β : Type*} {step : β → α → β} {s : β} (h : ∀ a, step s a = s)
    (list : List α) : list.foldl step s = s := by
  induction list with
  | nil => rfl
  | cons a rest ih => rw [List.foldl_cons, h, ih]

/-- Nothing is propagated from an empty queue. -/
theorem propagateDijkstra_nil (enumerate : VertexId → List (VertexId × ℕ)) (dist : List ℕ) :
    propagateDijkstra enumerate dist [] = dist := by
  rw [propagateDijkstra]
  rfl

/-- Without a source that is a vertex, recomputation leaves no finite distance. -/
theorem blank_recomputeDijkstra {n : ℕ} {source : VertexId} (h : n ≤ source.val)
    (enumerate : VertexId → List (VertexId × ℕ)) :
    Blank kDijkstraInf (recomputeDijkstra n source enumerate) ∧
      n ≤ (recomputeDijkstra n source enumerate).length := by
  rw [recomputeDijkstra]
  exact (if_pos h).symm ▸ ⟨blank_replicate _ _, List.length_replicate.ge⟩

/-- Relaxing arcs from vertices without a finite distance leaves nothing to propagate. -/
theorem blank_propagateDijkstra {α : Type} {dist : List ℕ} (h : Blank kDijkstraInf dist) (n : ℕ)
    (step : List ℕ × List Item → α → List ℕ × List Item)
    (hstep : ∀ dist, Blank kDijkstraInf dist → ∀ op, step (dist, []) op = (dist, []))
    (enumerate : VertexId → List (VertexId × ℕ)) (ops : List α) :
    let state := ops.foldl step (if dist.length < n then resize dist n kDijkstraInf else dist, [])
    Blank kDijkstraInf (propagateDijkstra enumerate state.1 state.2) ∧
      n ≤ (propagateDijkstra enumerate state.1 state.2).length := by
  dsimp only
  rw [foldl_eq_self (hstep _ (h.grown n)), propagateDijkstra_nil]
  exact ⟨h.grown n, le_length_grown _ _ _⟩

/-- A vertex without a finite distance. -/
theorem Blank.getElem? {cap : ℕ} {dist : List ℕ} (h : Blank cap dist) {i : ℕ}
    (hi : i < dist.length) : dist[i]? = some cap := by
  rw [List.getElem?_eq_getElem hi]
  exact congrArg some (h _ (List.getElem_mem hi))

/-- Two distance arrays are of one length and read the same at every vertex id. -/
def SameDistances (dist dist' : List ℕ) : Prop :=
  dist.length = dist'.length ∧ ∀ v : VertexId, dist.getD v 0 = dist'.getD v 0

/-- Arrays of one length with the same labels read the same. -/
theorem sameDistances_of_label {cap : ℕ} {dist dist' : List ℕ}
    (hlength : dist.length = dist'.length) (hlabel : label cap dist = label cap dist') :
    SameDistances dist dist' := by
  refine ⟨hlength, fun v => ?_⟩
  by_cases hv : v.val < dist.length
  · rw [← label_eq_getD cap hv 0, ← label_eq_getD cap (hlength ▸ hv) 0, hlabel]
  · rw [List.getD_eq_default _ _ (not_lt.mp hv), List.getD_eq_default _ _ (hlength ▸ not_lt.mp hv)]

/-- Exact distances of a graph in which the source is a vertex are zero there. -/
theorem source_eq_zero {arc : VertexId → ℕ → VertexId → Prop} {cap n : ℕ} {source : VertexId}
    {dist : List ℕ} (h : Exact (startAt source n) arc cap (label cap dist))
    (hlength : dist.length = n) (hsource : source.val < n) : dist[source.val]? = some 0 := by
  have hzero := Nat.le_zero.mp (h.le_walk source 0 (.nil ⟨rfl, hsource⟩))
  rw [label_eq_getD cap (hlength ▸ hsource) 0, List.getD_eq_getElem _ _ (hlength ▸ hsource)] at hzero
  rw [List.getElem?_eq_getElem (hlength ▸ hsource), hzero]

namespace IncrementalSSSP

open GraphAccess

section Unseeded

variable {G : Type} [GraphAccess G] {engine : IncrementalSSSP G}

/-- Nothing is relaxed over an arc from a vertex without a finite distance. -/
theorem relaxUnit_of_blank {dist : List ℕ} (h : Blank kDijkstraInf dist) {u : VertexId}
    (hu : u.val < dist.length) (v : VertexId) (queue : List Item) :
    relaxUnit (dist, queue) (u, v) = (dist, queue) :=
  if_neg fun hfinite => hfinite.1 (h.getD hu 0)

/-- A batch of insertions finds nothing to start from. -/
theorem blank_relaxFromUpdates (h : Blank kDijkstraInf engine.dist) (batch : UpdateBatch) :
    Blank kDijkstraInf (engine.relaxFromUpdates batch).dist ∧
      vertexCount engine.graph ≤ (engine.relaxFromUpdates batch).dist.length := by
  refine blank_propagateDijkstra h _ _ (fun dist hblank op => ?_) _ _
  unfold relaxUpdate
  split
  · rfl
  · rename_i hwithin
    simp only [Bool.or_eq_true, decide_eq_true_eq, not_or, not_le] at hwithin
    rw [relaxUnit_of_blank hblank hwithin.1.2]
    dsimp only
    rw [relaxUnit_of_blank hblank hwithin.2]
    exact ite_self _

/-- An engine that has not noticed its source. -/
structure Unseeded (engine : IncrementalSSSP G) : Prop where
  blank : Blank kDijkstraInf engine.dist
  covers : vertexCount engine.graph ≤ engine.dist.length

/-- Recomputation does not notice a source that is not a vertex. -/
theorem unseeded_recompute (h : vertexCount engine.graph ≤ engine.source.val) :
    Unseeded engine.recompute := by
  obtain ⟨hblank, hcovers⟩ := blank_recomputeDijkstra h _
  exact ⟨hblank, hcovers⟩

/-- A batch without a removal goes by unnoticed, as does one that leaves the source outside. -/
theorem Unseeded.apply (h : Unseeded engine) {batch : UpdateBatch}
    (hbatch : (batch.updates.any fun op => !op.add) = false ∨
      vertexCount (applyUpdates engine.graph batch) ≤ engine.source.val) :
    Unseeded (engine.apply batch) := by
  unfold IncrementalSSSP.apply
  dsimp only
  split
  · rename_i hremoval
    rcases hbatch with hnone | hout
    · rw [hnone] at hremoval
      exact absurd hremoval Bool.false_ne_true
    · exact unseeded_recompute hout
  · obtain ⟨hblank, hcovers⟩ := @blank_relaxFromUpdates G _
      { engine with graph := applyUpdates engine.graph batch } h.blank batch
    exact ⟨hblank, hcovers⟩

/-- An engine that has not noticed its source reports infinity there. -/
theorem Unseeded.source_eq (h : Unseeded engine)
    (hsource : engine.source.val < vertexCount engine.graph) :
    engine.dist[engine.source.val]? = some kDijkstraInf :=
  h.blank.getElem? (hsource.trans_le h.covers)

end Unseeded

variable {D : Type} [DoubleArith D] {engine : IncrementalSSSP (DynamicGraph D)} {arcs : ArcSet}

/-- The engine reports what a fresh recomputation would, and distance zero at its source. -/
def Right {G : Type} [GraphAccess G] (engine : IncrementalSSSP G) : Prop :=
  SameDistances engine.dist engine.recompute.dist ∧ engine.dist[engine.source.val]? = some 0

/-- An engine with exact distances and a source that is a vertex is right. -/
theorem Correct.right (h : Correct engine arcs)
    (hsource : engine.source.val < engine.graph.vertexCount) : Right engine := by
  have hfresh : Correct engine.recompute arcs := correct_recompute h.serves
  have hlabel := h.exact_dist.unique hfresh.exact_dist
  exact ⟨sameDistances_of_label (h.length_eq.trans hfresh.length_eq.symm) hlabel,
    source_eq_zero h.exact_dist h.length_eq hsource⟩

/-- As long as the source stays outside, no batch is noticed. -/
theorem Unseeded.foldl (h : Unseeded engine) (hrefines : DynamicGraph.Refines engine.graph arcs)
    (batches : List UpdateBatch)
    (hout : countAfter engine.graph.vertexCount batches ≤ engine.source.val) :
    Unseeded (batches.foldl IncrementalSSSP.apply engine) ∧
      (∃ arcs', DynamicGraph.Refines (batches.foldl IncrementalSSSP.apply engine).graph arcs') ∧
      (batches.foldl IncrementalSSSP.apply engine).graph.vertexCount =
        countAfter engine.graph.vertexCount batches ∧
      (batches.foldl IncrementalSSSP.apply engine).source = engine.source := by
  induction batches generalizing engine arcs with
  | nil => exact ⟨h, ⟨arcs, hrefines⟩, rfl, rfl⟩
  | cons batch rest ih =>
    obtain ⟨hgraph, hkept⟩ := @graph_apply D _ engine batch
    obtain ⟨hnext, hcount, -, -⟩ := hrefines.apply batch
    have hcount' : (engine.apply batch).graph.vertexCount =
        growAll engine.graph.vertexCount batch.updates := by rw [hgraph, hcount]
    have hstep : Unseeded (engine.apply batch) := h.apply (Or.inr (by
      change (engine.graph.apply batch).vertexCount ≤ engine.source.val
      rw [hcount]
      exact (le_countAfter _ rest).trans hout))
    have hrest := ih hstep (hgraph ▸ hnext) (by rw [hcount', hkept]; exact hout)
    rw [hcount', hkept] at hrest
    exact hrest

/-- Once a batch makes the graph grow past the source, the engine is right from that batch on
exactly when the batch contains a removal. -/
theorem Unseeded.right_iff_of_growing (h : Unseeded engine)
    (hrefines : DynamicGraph.Refines engine.graph arcs) (growing : UpdateBatch)
    (hin : engine.source.val < growAll engine.graph.vertexCount growing.updates)
    (later : List UpdateBatch) :
    (∀ k, Right ((later.take k).foldl IncrementalSSSP.apply (engine.apply growing))) ↔
      (growing.updates.any fun op => !op.add) = true := by
  obtain ⟨hgraph, hkept⟩ := @graph_apply D _ engine growing
  obtain ⟨hnext, hcount, -, -⟩ := hrefines.apply growing
  have hsource : (engine.apply growing).source.val < (engine.apply growing).graph.vertexCount := by
    rw [hgraph, hkept, hcount]
    exact hin
  constructor
  · intro hright
    by_contra hremoval
    have hunseeded := h.apply (Or.inl (Bool.eq_false_iff.mpr hremoval))
    have hzero := (hright 0).2
    rw [List.take_zero, List.foldl_nil, hunseeded.source_eq hsource] at hzero
    exact absurd (Option.some.inj hzero) (by decide)
  · intro hremoval k
    have hcorrect : Correct (engine.apply growing)
        (ArcSet.applyAll engine.graph.directed arcs growing.updates) := by
      unfold IncrementalSSSP.apply
      rw [if_pos hremoval]
      exact correct_recompute hnext.serves
    obtain ⟨hlater, hcount', hkept'⟩ :=
      hcorrect.foldl (hgraph ▸ hnext) hsource (later.take k)
    refine hlater.right ?_
    rw [hcount', hkept']
    exact hsource.trans_le (le_countAfter _ _)

/-- A source that becomes a vertex is noticed in a batch that contains a removal. -/
theorem right_iff_of_grown {g : DynamicGraph D} (h : DynamicGraph.Refines g arcs)
    {source : VertexId} (before : List UpdateBatch) (growing : UpdateBatch)
    (later : List UpdateBatch) (hout : countAfter g.vertexCount before ≤ source.val)
    (hin : source.val < countAfter g.vertexCount (before ++ [growing])) :
    (∀ k, Right ((before ++ growing :: later.take k).foldl IncrementalSSSP.apply
        (create g source))) ↔ (growing.updates.any fun op => !op.add) = true := by
  have hstart : Unseeded (create g source) :=
    unseeded_recompute ((le_countAfter _ before).trans hout)
  obtain ⟨hunseeded, ⟨arcs', hrefines⟩, hcount, hkept⟩ := hstart.foldl h before hout
  simp only [List.foldl_append, List.foldl_cons]
  refine hunseeded.right_iff_of_growing hrefines growing ?_ later
  have hgrown : countAfter g.vertexCount (before ++ [growing]) =
      growAll (countAfter g.vertexCount before) growing.updates := by
    simp only [countAfter, List.foldl_append, List.foldl_cons, List.foldl_nil]
  rw [hcount, hkept]
  exact hgrown ▸ hin

end IncrementalSSSP

namespace IncrementalWeightedSSSP

open WeightedGraphAccess

section Unseeded

variable {G : Type} [WeightedGraphAccess G] {engine : IncrementalWeightedSSSP G}

/-- Nothing is relaxed over an arc from a vertex without a finite distance. -/
theorem relaxWeight_of_blank {dist : List ℕ} (h : Blank kDijkstraInf dist) {u : VertexId}
    (hu : u.val < dist.length) (weight : ℕ) (v : VertexId) (queue : List Item) :
    relaxWeight weight (dist, queue) (u, v) = (dist, queue) :=
  if_neg fun hfinite => hfinite.1 (h.getD hu 0)

/-- A batch that makes nothing worse finds nothing to start from. -/
theorem blank_relaxFromUpdates (h : Blank kDijkstraInf engine.dist) (batch : WeightedUpdateBatch) :
    Blank kDijkstraInf (engine.relaxFromUpdates batch).dist ∧
      vertexCount engine.graph ≤ (engine.relaxFromUpdates batch).dist.length := by
  refine blank_propagateDijkstra h _ _ (fun dist hblank op => ?_) _ _
  unfold relaxUpdate
  split
  · rfl
  · rename_i hwithin
    simp only [Bool.or_eq_true, decide_eq_true_eq, not_or, not_le] at hwithin
    split
    · rfl
    · rw [relaxWeight_of_blank hblank hwithin.1.2]
      dsimp only
      rw [relaxWeight_of_blank hblank hwithin.2]
      exact ite_self _

/-- An engine that has not noticed its source. -/
structure Unseeded (engine : IncrementalWeightedSSSP G) : Prop where
  blank : Blank kDijkstraInf engine.dist
  covers : vertexCount engine.graph ≤ engine.dist.length

/-- Recomputation does not notice a source that is not a vertex. -/
theorem unseeded_recompute (h : vertexCount engine.graph ≤ engine.source.val) :
    Unseeded engine.recompute := by
  obtain ⟨hblank, hcovers⟩ := blank_recomputeDijkstra h _
  exact ⟨hblank, hcovers⟩

/-- An engine that has not noticed its source reports infinity there. -/
theorem Unseeded.source_eq (h : Unseeded engine)
    (hsource : engine.source.val < vertexCount engine.graph) :
    engine.dist[engine.source.val]? = some kDijkstraInf :=
  h.blank.getElem? (hsource.trans_le h.covers)

end Unseeded

/-- Whether a batch makes the engine recompute on a graph. -/
def mustRecompute {G : Type} [WeightedGraphAccess G] (g : G) (batch : WeightedUpdateBatch) : Bool :=
  (canonicalizeWeighted (isDirected g) batch).updates.any (requiresRecompute g)

/-- The engine reports what a fresh recomputation would, and distance zero at its source. -/
def Right {G : Type} [WeightedGraphAccess G] (engine : IncrementalWeightedSSSP G) : Prop :=
  SameDistances engine.dist engine.recompute.dist ∧ engine.dist[engine.source.val]? = some 0

variable {engine : IncrementalWeightedSSSP WeightedDynamicGraph} {weights : Weights}

/-- What an accepted batch does to the engine. -/
theorem apply_accepted (hrefines : WeightedDynamicGraph.Refines engine.graph weights)
    {batch : WeightedUpdateBatch} (haccept : batch.updates.any rejects = false)
    (hsome : batch.updates ≠ []) :
    (engine.apply batch).2 =
      if mustRecompute engine.graph batch then
        recompute { engine with graph := (engine.graph.apply batch).2 }
      else relaxFromUpdates { engine with graph := (engine.graph.apply batch).2 }
        (canonicalizeWeighted (isDirected engine.graph) batch) := by
  have hok : (WeightedGraphAccess.applyUpdates engine.graph batch).1 = .ok () :=
    (hrefines.apply (rejects_eq ▸ haccept)).1
  unfold IncrementalWeightedSSSP.apply mustRecompute
  rw [if_neg (by rwa [WeightedUpdateBatch.empty, List.isEmpty_iff]),
    if_neg (by rw [haccept]; decide)]
  dsimp only
  rw [hok]
  rfl

/-- A batch that does not make the engine recompute goes by unnoticed, as does one that leaves the
source outside. -/
theorem Unseeded.apply (h : Unseeded engine)
    (hrefines : WeightedDynamicGraph.Refines engine.graph weights) {batch : WeightedUpdateBatch}
    (hbatch : mustRecompute engine.graph batch = false ∨
      (engine.graph.apply batch).2.vertexCount ≤ engine.source.val) :
    Unseeded (engine.apply batch).2 := by
  cases hreject : batch.updates.any rejects with
  | true =>
    rw [apply_of_rejects hreject]
    exact h
  | false =>
    by_cases hnil : batch.updates = []
    · have hempty : batch.empty = true := List.isEmpty_iff.mpr hnil
      rw [IncrementalWeightedSSSP.apply, if_pos hempty]
      exact h
    · rw [apply_accepted hrefines hreject hnil]
      split
      · rename_i hrecompute
        rcases hbatch with hnone | hout
        · rw [hnone] at hrecompute
          exact absurd hrecompute Bool.false_ne_true
        · exact unseeded_recompute hout
      · obtain ⟨hblank, hcovers⟩ := @blank_relaxFromUpdates _ _
          { engine with graph := (engine.graph.apply batch).2 } h.blank
          (canonicalizeWeighted (isDirected engine.graph) batch)
        exact ⟨hblank, hcovers⟩

/-- A batch acts on the graph of the engine as on the graph, and keeps the source. -/
theorem graph_step (hrefines : WeightedDynamicGraph.Refines engine.graph weights)
    (batch : WeightedUpdateBatch) :
    (engine.apply batch).2.graph = (engine.graph.apply batch).2 ∧
      (engine.apply batch).2.source = engine.source ∧
      engine.graph.vertexCount ≤ (engine.graph.apply batch).2.vertexCount ∧
      ∃ weights', WeightedDynamicGraph.Refines (engine.graph.apply batch).2 weights' := by
  cases hreject : batch.updates.any rejects with
  | true =>
    have hgraph := WeightedDynamicGraph.apply_of_rejects engine.graph (rejects_eq ▸ hreject)
    rw [apply_of_rejects hreject, hgraph]
    exact ⟨rfl, rfl, le_rfl, weights, hrefines⟩
  | false =>
    obtain ⟨hgraph, hsource⟩ := @graph_apply engine batch hreject
    obtain ⟨-, hnext, hcount, -⟩ := hrefines.apply (rejects_eq ▸ hreject)
    exact ⟨hgraph, hsource, hcount ▸ le_growAll _ _, _, hnext⟩

/-- A sequence of batches never takes a vertex away. -/
theorem le_vertexCount_run (hrefines : WeightedDynamicGraph.Refines engine.graph weights)
    (batches : List WeightedUpdateBatch) :
    engine.graph.vertexCount ≤ (engine.run batches).graph.vertexCount := by
  induction batches generalizing engine weights with
  | nil => exact le_rfl
  | cons batch rest ih =>
    obtain ⟨hgraph, -, hle, weights', hnext⟩ := graph_step hrefines batch
    exact (hgraph ▸ hle).trans (ih (hgraph ▸ hnext))

/-- As long as the source stays outside, no batch is noticed. -/
theorem Unseeded.run (h : Unseeded engine)
    (hrefines : WeightedDynamicGraph.Refines engine.graph weights)
    (batches : List WeightedUpdateBatch)
    (hout : (engine.run batches).graph.vertexCount ≤ engine.source.val) :
    Unseeded (engine.run batches) ∧
      (∃ weights', WeightedDynamicGraph.Refines (engine.run batches).graph weights') ∧
      (engine.run batches).source = engine.source := by
  induction batches generalizing engine weights with
  | nil => exact ⟨h, ⟨weights, hrefines⟩, rfl⟩
  | cons batch rest ih =>
    obtain ⟨hgraph, hkept, -, weights', hnext⟩ := graph_step hrefines batch
    have hnext' : WeightedDynamicGraph.Refines (engine.apply batch).2.graph weights' :=
      hgraph ▸ hnext
    have hfirst : (engine.graph.apply batch).2.vertexCount ≤ engine.source.val :=
      (hgraph ▸ le_vertexCount_run hnext' rest).trans hout
    have hrest := ih (h.apply hrefines (Or.inr hfirst)) hnext' (by rw [hkept]; exact hout)
    rw [hkept] at hrest
    exact hrest

/-- An engine with exact distances and a source that is a vertex is right. -/
theorem Sound.right (h : Sound engine weights) : Right engine := by
  have hfresh : Correct engine.recompute weights := correct_recompute h.serves
  have hlabel := h.exact_dist.unique hfresh.exact_dist
  exact ⟨sameDistances_of_label (h.length_eq.trans hfresh.length_eq.symm) hlabel,
    source_eq_zero h.exact_dist h.length_eq h.source_lt⟩

/-- Once a batch makes the graph grow past the source, the engine is right from that batch on
exactly when the batch makes it recompute. -/
theorem Unseeded.right_iff_of_growing (h : Unseeded engine)
    (hrefines : WeightedDynamicGraph.Refines engine.graph weights) (growing : WeightedUpdateBatch)
    (hout : engine.graph.vertexCount ≤ engine.source.val)
    (hin : engine.source.val < (engine.graph.apply growing).2.vertexCount)
    (later : List WeightedUpdateBatch) :
    (∀ k, Right ((engine.apply growing).2.run (later.take k))) ↔
      mustRecompute engine.graph growing = true := by
  obtain ⟨hgraph, hkept, -, weights', hnext⟩ := graph_step hrefines growing
  have hsource : (engine.apply growing).2.source.val <
      (engine.apply growing).2.graph.vertexCount := by
    rw [hgraph, hkept]
    exact hin
  constructor
  · intro hright
    by_contra hrecompute
    have hunseeded := h.apply hrefines (Or.inl (Bool.eq_false_iff.mpr hrecompute))
    have hzero := (hright 0).2
    rw [List.take_zero, IncrementalWeightedSSSP.run, List.foldl_nil,
      hunseeded.source_eq hsource] at hzero
    exact absurd (Option.some.inj hzero) (by decide)
  · intro hrecompute k
    -- a batch that makes the graph grow is accepted and not empty
    have haccept : growing.updates.any rejects = false := by
      by_contra hreject
      have hsame := WeightedDynamicGraph.apply_of_rejects engine.graph
        (rejects_eq ▸ Bool.not_eq_false _ ▸ hreject)
      rw [hsame] at hin
      exact absurd hin (not_lt.mpr hout)
    have hsome : growing.updates ≠ [] := by
      intro hnil
      have hcount := (hrefines.apply (rejects_eq ▸ haccept)).2.2.1
      rw [hcount, hnil] at hin
      exact absurd hin (not_lt.mpr hout)
    have hcorrect : Correct (engine.apply growing).2 weights' := by
      rw [apply_accepted hrefines haccept hsome, if_pos hrecompute]
      exact correct_recompute hnext.serves
    have hsound : Sound (engine.apply growing).2 weights' := ⟨hcorrect, hgraph ▸ hnext, hsource⟩
    obtain ⟨⟨weights'', hlater⟩, -⟩ := hsound.run (later.take k)
    exact hlater.right

/-- A source that becomes a vertex is noticed in a batch that makes the engine recompute. -/
theorem right_iff_of_grown {start : IncrementalWeightedSSSP WeightedDynamicGraph}
    (hfresh : start.graph.vertexCount ≤ start.source.val → Unseeded start)
    (h : WeightedDynamicGraph.Refines start.graph weights) (before : List WeightedUpdateBatch)
    (growing : WeightedUpdateBatch) (later : List WeightedUpdateBatch)
    (hout : (start.run before).graph.vertexCount ≤ start.source.val)
    (hin : start.source.val < (start.run (before ++ [growing])).graph.vertexCount) :
    (∀ k, Right (start.run (before ++ growing :: later.take k))) ↔
      mustRecompute (start.run before).graph growing = true := by
  have hstart := hfresh ((le_vertexCount_run h before).trans hout)
  obtain ⟨hunseeded, ⟨weights', hrefines⟩, hkept⟩ := hstart.run h before hout
  have hsplit : ∀ batches, start.run (before ++ growing :: batches) =
      ((start.run before).apply growing).2.run batches := fun batches => by
    simp only [IncrementalWeightedSSSP.run, List.foldl_append, List.foldl_cons]
  rw [hsplit, ← hkept] at hin
  simp only [hsplit]
  refine hunseeded.right_iff_of_growing hrefines growing (hkept ▸ hout) ?_ later
  rw [← (graph_step hrefines growing).1]
  exact hin

end IncrementalWeightedSSSP

namespace IncrementalBFS

open GraphAccess

variable {G D : Type} [GraphAccess G] {engine : IncrementalBFS G D}

/-- An engine that has not noticed its source. -/
structure Unseeded (engine : IncrementalBFS G D) : Prop where
  blank : Blank unreachable engine.levels.dist
  covers : vertexCount engine.graph ≤ engine.levels.dist.length
  seen : engine.seenFinalUpdates.Reusable
  deletionKeys : engine.finalDeletionKeys.Reusable

/-- No arc is a shortest-path arc. -/
theorem isShortestParent_of_blank {dist : List ℕ} (h : Blank unreachable dist) (u v : VertexId) :
    isShortestParent dist u v = false := by
  unfold isShortestParent
  by_cases hu : u.val < dist.length
  · rw [h.getD hu]
    simp
  · simp [hu]

/-- No deleted edge was a shortest-path edge. -/
theorem deletionCandidates_of_blank {g : G} {dist : List ℕ} (h : Blank unreachable dist)
    (existing : List (VertexId × VertexId)) : deletionCandidates g dist existing = [] := by
  refine List.flatMap_eq_nil_iff.mpr fun edge _ => ?_
  obtain ⟨u, v⟩ := edge
  simp [isShortestParent_of_blank h]

/-- Nothing is relaxed over an edge from a vertex without a finite distance. -/
theorem relaxEdge_of_blank {levels : Levels} (h : Blank unreachable levels.dist)
    (q : List VertexId) (u v : VertexId) : relaxEdge (levels, q) u v = (levels, q) := by
  unfold relaxEdge
  by_cases hu : u.val < levels.dist.length
  · simp only [h.getD hu, decide_true, Bool.or_true, if_true]
  · simp [not_lt.mp hu]

/-- Nothing is propagated from an empty queue. -/
theorem propagateDecreases_nil (g : G) (levels : Levels) :
    Returns (fun fuel => propagateDecreases fuel g levels []) (· = levels) :=
  ⟨levels, rfl, 1, fun fuel hfuel => by
    obtain ⟨n, rfl⟩ := Nat.exists_eq_add_of_le' hfuel
    rfl⟩

/-- The part of `apply` after the graph has changed finds nothing to start from. -/
theorem Unseeded.finish {grown : IncrementalBFS G D} (hblank : Blank unreachable grown.levels.dist)
    (hseen : grown.seenFinalUpdates.Reusable) (hkeys : grown.finalDeletionKeys.Reusable)
    (additions : List (VertexId × VertexId)) (work : Workspace) :
    Returns (fun fuel => grown.finish fuel additions { work := work } false) fun engine' =>
      Unseeded engine' ∧ engine'.graph = grown.graph ∧ engine'.source = grown.source := by
  have hnew := hblank.grown (vertexCount grown.graph)
  have hlength := le_length_grown unreachable grown.levels.dist (vertexCount grown.graph)
  unfold IncrementalBFS.finish
  dsimp only
  generalize hdist : (if grown.levels.dist.length < vertexCount grown.graph then
    resize grown.levels.dist (vertexCount grown.graph) unreachable else grown.levels.dist) = dist
    at hnew hlength ⊢
  have hstep : ∀ edge, relaxAddition (isDirected grown.graph)
      ({ grown.levels with dist := dist }, []) edge = ({ grown.levels with dist := dist }, []) := by
    intro edge
    obtain ⟨u, v⟩ := edge
    unfold relaxAddition
    dsimp only
    rw [relaxEdge_of_blank hnew, relaxEdge_of_blank hnew]
    exact ite_self _
  simp only [Bool.false_eq_true, if_false, List.isEmpty_nil, if_true, Option.bind_some]
  rw [foldl_eq_self hstep]
  refine Returns.map ((propagateDecreases_nil grown.graph _).mono fun levels hlevels => ?_)
  subst hlevels
  exact ⟨⟨hnew, hlength, hseen, hkeys⟩, rfl, rfl⟩

/-- No batch is noticed. -/
theorem Unseeded.apply [DoubleArith D] (h : Unseeded engine) (batch : UpdateBatch) :
    Returns (fun fuel => engine.apply fuel batch) fun engine' =>
      Unseeded engine' ∧ engine'.graph = (BfsStep.apply batch).graphAfter engine.graph ∧
        engine'.source = engine.source := by
  by_cases hempty : batch.empty = true
  · have hgraph : (BfsStep.apply batch).graphAfter engine.graph = engine.graph :=
      if_neg (by simp [BfsStep.reaches, hempty])
    unfold IncrementalBFS.apply
    simp only [hempty, if_true, hgraph]
    exact Returns.pure ⟨⟨h.blank, h.covers, h.seen, h.deletionKeys⟩, rfl, rfl⟩
  · have hgraph : (BfsStep.apply batch).graphAfter engine.graph = applyUpdates engine.graph batch :=
      if_pos (by simp [BfsStep.reaches, hempty])
    unfold IncrementalBFS.apply
    simp only [if_neg hempty, hgraph]
    refine (collect_spec h.seen h.deletionKeys batch.updates).bind fun final hfinal => ?_
    simp only [deletionCandidates_of_blank h.blank, List.insertionSort_nil, List.destutter_nil,
      List.isEmpty_nil, if_true, Option.bind_some, Bool.not_true]
    refine Unseeded.finish ?_ ?_ ?_ final.additions _
    · exact h.blank
    · exact hfinal.seen.toReusable
    · exact hfinal.deletionKeys.toReusable

/-- A new engine whose source is not a vertex. -/
theorem unseeded_create {g : G} {source : VertexId} (hout : vertexCount g ≤ source.val)
    (fraction : D) :
    Returns (fun fuel => create fuel g source fraction) fun engine =>
      Unseeded engine ∧ engine.graph = g ∧ engine.source = source := by
  unfold IncrementalBFS.create IncrementalBFS.recompute recomputeLevels
  dsimp only
  simp only [if_pos hout, Option.map_some]
  exact Returns.pure ⟨⟨blank_replicate _ _, List.length_replicate.ge,
    ReusableKeySet.reusable_empty, ReusableKeySet.reusable_empty⟩, rfl, rfl⟩

/-- Whatever batches follow, the engine does not notice its source. -/
theorem unseeded_run [DoubleArith D] {g : G} {source : VertexId}
    (hout : vertexCount g ≤ source.val) (fraction : D) (batches : List UpdateBatch) :
    Returns (fun fuel => run fuel g source fraction (batches.map BfsStep.apply)) fun engine =>
      Unseeded engine ∧ engine.graph = (batches.map BfsStep.apply).foldl BfsStep.graphAfter g ∧
        engine.source = source := by
  have hrun : ∀ (engine : IncrementalBFS G D), Unseeded engine →
      Returns (fun fuel => foldRun (BfsStep.exec fuel) (batches.map BfsStep.apply) engine)
        fun engine' => Unseeded engine' ∧
          engine'.graph = (batches.map BfsStep.apply).foldl BfsStep.graphAfter engine.graph ∧
          engine'.source = engine.source := by
    induction batches with
    | nil => exact fun engine h => Returns.pure ⟨h, rfl, rfl⟩
    | cons batch rest ih =>
      intro engine h
      refine (h.apply batch).bind fun next hnext => ?_
      obtain ⟨hunseeded, hgraph, hkept⟩ := hnext
      refine (ih next hunseeded).mono fun last hlast => ?_
      obtain ⟨hlast, hgraph', hkept'⟩ := hlast
      exact ⟨hlast, by rw [hgraph', hgraph]; rfl, hkept'.trans hkept⟩
  refine (unseeded_create hout fraction).bind fun engine hengine => ?_
  obtain ⟨hunseeded, rfl, rfl⟩ := hengine
  exact hrun engine hunseeded

/-- A source that a batch makes a vertex stays at infinity. -/
theorem source_unreachable [DoubleArith D] {g : DynamicGraph D} {arcs : ArcSet}
    (h : DynamicGraph.Refines g arcs) {source : VertexId} (hout : g.vertexCount ≤ source.val)
    (fraction : D) (batches : List UpdateBatch)
    (hin : source.val < countAfter g.vertexCount batches) :
    Returns (fun fuel => run fuel g source fraction (batches.map BfsStep.apply)) fun bfs =>
      bfs.levels.dist[source.val]? = some unreachable := by
  have hcount := (h.foldl_graphAfter batches).2
  refine (unseeded_run hout fraction batches).mono fun bfs hbfs => ?_
  obtain ⟨hunseeded, hgraph, -⟩ := hbfs
  refine hunseeded.blank.getElem? (hin.trans_le (hcount.ge.trans ?_))
  rw [← hgraph]
  exact hunseeded.covers

end IncrementalBFS

/-- The engines that start before their source is a vertex, from the batch on that makes it one:
the breadth-first engine reports infinity at its source whatever happens, the engine with unit
weights is right exactly when that batch contains a removal, and the weighted engine exactly when
that batch makes it recompute. -/
theorem grown_source_right_iff {D : Type} [DoubleArith D] (vertices : ℕ) (directed : Bool)
    (calls : List (Call D)) (source : VertexId) (fraction : D) (before : List UpdateBatch)
    (growing : UpdateBatch) (later : List UpdateBatch)
    (hout : countAfter (Call.run (DynamicGraph.create vertices directed) calls).vertexCount before ≤
      source.val)
    (hin : source.val < countAfter
      (Call.run (DynamicGraph.create vertices directed) calls).vertexCount (before ++ [growing])) :
    (∀ k, Returns (fun fuel => IncrementalBFS.run fuel
        (Call.run (DynamicGraph.create vertices directed) calls) source fraction
        ((before ++ growing :: later.take k).map BfsStep.apply))
      fun bfs => bfs.levels.dist[source.val]? = some unreachable) ∧
    ((∀ k, IncrementalSSSP.Right ((before ++ growing :: later.take k).foldl IncrementalSSSP.apply
        (IncrementalSSSP.create (Call.run (DynamicGraph.create vertices directed) calls) source))) ↔
      (growing.updates.any fun op => !op.add) = true) ∧
    ∀ (weightedCalls : List WeightedCall) (before : List WeightedUpdateBatch)
      (growing : WeightedUpdateBatch) (later : List WeightedUpdateBatch),
      let start := IncrementalWeightedSSSP.create
        (WeightedCall.run (.create vertices directed) weightedCalls) source
      let graphAfter := fun batches : List WeightedUpdateBatch =>
        WeightedCall.run (.create vertices directed) (weightedCalls ++ batches.map .apply)
      (graphAfter before).vertexCount ≤ source.val →
      source.val < (graphAfter (before ++ [growing])).vertexCount →
      (∀ batches, (start.run batches).graph = graphAfter batches) ∧
      ((∀ k, IncrementalWeightedSSSP.Right (start.run (before ++ growing :: later.take k))) ↔
        IncrementalWeightedSSSP.mustRecompute (graphAfter before) growing = true) := by
  refine ⟨fun k => ?_, ?_, fun weightedCalls before growing later => ?_⟩
  · have h := ((@DynamicGraph.refines_create D vertices directed).1.run calls).1
    refine IncrementalBFS.source_unreachable h ((le_countAfter _ before).trans hout) fraction _
      (hin.trans_le ?_)
    simp only [countAfter, List.foldl_append, List.foldl_cons, List.foldl_nil]
    exact le_countAfter _ _
  · have h := ((@DynamicGraph.refines_create D vertices directed).1.run calls).1
    exact IncrementalSSSP.right_iff_of_grown h before growing later hout hin
  · intro start graphAfter hout hin
    obtain ⟨weights, h⟩ := WeightedDynamicGraph.exists_refines_run
      (WeightedDynamicGraph.refines_create vertices directed) weightedCalls
    have hfresh : start.graph.vertexCount ≤ start.source.val →
        IncrementalWeightedSSSP.Unseeded start :=
      fun hfirst => IncrementalWeightedSSSP.unseeded_recompute hfirst
    have hgraph : ∀ batches, (start.run batches).graph = graphAfter batches :=
      IncrementalWeightedSSSP.graph_run_create (.create vertices directed) weightedCalls source
    rw [← hgraph] at hout hin
    refine ⟨hgraph, ?_⟩
    rw [← hgraph]
    exact IncrementalWeightedSSSP.right_iff_of_grown hfresh h before growing later hout hin

/-- The engines on a graph with one arc, whose source is made a vertex by a batch that also removes the
arc: the breadth-first engine does not notice, the other two recompute. -/
theorem grown_source_right_removal :
    Returns (fun fuel => IncrementalBFS.run fuel
        (Call.run (DynamicGraph.create 1 true : DynamicGraph ℚ) [.addEdge 0 1]) 2 (0.35 : ℚ)
        [.apply ⟨[⟨2, 0, true, 0⟩, ⟨0, 1, false, 0⟩]⟩])
      (fun bfs => bfs.levels.dist[2]? = some unreachable) ∧
    IncrementalSSSP.Right (([⟨[⟨2, 0, true, 0⟩, ⟨0, 1, false, 0⟩]⟩] : List UpdateBatch).foldl
      IncrementalSSSP.apply (IncrementalSSSP.create
        (Call.run (DynamicGraph.create 1 true : DynamicGraph ℚ) [.addEdge 0 1]) 2)) ∧
    IncrementalWeightedSSSP.Right ((IncrementalWeightedSSSP.create
      (WeightedCall.run (.create 1 true) [.apply ⟨[⟨0, 1, 5, true, 0⟩]⟩]) 2).run
        [⟨[⟨2, 0, 7, true, 0⟩, ⟨0, 1, 0, false, 0⟩]⟩]) := by
  have hcount : (Call.run (DynamicGraph.create 1 true : DynamicGraph ℚ)
      [.addEdge 0 1]).vertexCount = 2 := by
    obtain ⟨hcreated, hvertices⟩ := @DynamicGraph.refines_create ℚ 1 true
    have hgrown := (hcreated.apply (UpdateBatch.add {} 0 1)).2.1
    rw [hvertices] at hgrown
    exact hgrown.trans (by decide)
  obtain ⟨hbfs, hsssp, hweighted⟩ := grown_source_right_iff 1 true [Call.addEdge 0 1] 2 (0.35 : ℚ) []
    ⟨[⟨2, 0, true, 0⟩, ⟨0, 1, false, 0⟩]⟩ [] (by rw [hcount]; decide) (by rw [hcount]; decide)
  obtain ⟨-, hiff⟩ := hweighted [.apply ⟨[⟨0, 1, 5, true, 0⟩]⟩] []
    ⟨[⟨2, 0, 7, true, 0⟩, ⟨0, 1, 0, false, 0⟩]⟩ [] (by decide +kernel) (by decide +kernel)
  exact ⟨hbfs 0, hsssp.mpr rfl 0, hiff.mpr (by decide +kernel) 0⟩

/-- On a graph with one vertex, inserting an arc at the source makes it a vertex, and none of the
three engines reports the distance zero there. -/
theorem not_grown_source_right :
    Returns (fun fuel => IncrementalBFS.run fuel (DynamicGraph.create 1 true : DynamicGraph ℚ) 1
        (0.35 : ℚ) [.apply ⟨[⟨1, 0, true, 0⟩]⟩])
      (fun bfs => bfs.levels.dist[1]? = some unreachable) ∧
    ¬ IncrementalSSSP.Right ((IncrementalSSSP.create
      (DynamicGraph.create 1 true : DynamicGraph ℚ) 1).apply ⟨[⟨1, 0, true, 0⟩]⟩) ∧
    ¬ IncrementalWeightedSSSP.Right ((IncrementalWeightedSSSP.create
      (WeightedDynamicGraph.create 1 true) 1).apply ⟨[⟨1, 0, 5, true, 0⟩]⟩).2 := by
  have hcreated := @DynamicGraph.refines_create ℚ 1 true
  have hout : (DynamicGraph.create 1 true : DynamicGraph ℚ).vertexCount ≤ (1 : VertexId).val := by
    rw [hcreated.2]
    decide
  have hgrown : (1 : VertexId).val < growAll (DynamicGraph.create 1 true : DynamicGraph ℚ).vertexCount
      [⟨1, 0, true, 0⟩] := by
    rw [hcreated.2]
    decide
  refine ⟨?_, fun hright => ?_, fun hright => ?_⟩
  · exact IncrementalBFS.source_unreachable hcreated.1 hout (0.35 : ℚ) [⟨[⟨1, 0, true, 0⟩]⟩] hgrown
  · have hstart : IncrementalSSSP.Unseeded (IncrementalSSSP.create
        (DynamicGraph.create 1 true : DynamicGraph ℚ) 1) :=
      IncrementalSSSP.unseeded_recompute hout
    have hiff := hstart.right_iff_of_growing hcreated.1 ⟨[⟨1, 0, true, 0⟩]⟩ hgrown []
    exact absurd (hiff.mp fun k => by rw [List.take_nil]; exact hright) (by decide)
  · have hstart : IncrementalWeightedSSSP.Unseeded (IncrementalWeightedSSSP.create
        (WeightedDynamicGraph.create 1 true) 1) :=
      IncrementalWeightedSSSP.unseeded_recompute (by decide)
    have hiff := hstart.right_iff_of_growing (WeightedDynamicGraph.refines_create 1 true)
      ⟨[⟨1, 0, 5, true, 0⟩]⟩ (by decide) (by decide +kernel) []
    exact absurd (hiff.mp fun k => by rw [List.take_nil]; exact hright) (by decide +kernel)

end VeloGraphX
