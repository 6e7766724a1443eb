import Mathlib
import VeloGraphX.Storage.DynamicGraphRefinement

/-!
# Runs of the dynamic graph

A run is a sequence of calls on a freshly constructed graph. After every run the forward
view is exactly the abstract arc set obtained by folding the same calls, the edge count is
its cardinality, and compaction is visible in no answer. A bulk load of more vertices than
there are ids writes outside its arrays when it transposes; such a run has no result.
-/

namespace VeloGraphX

open SortedList PointUpdate ArcSet

/-- The calls that change a dynamic graph or its storage. -/
inductive Call (D : Type)
  | ensureVertex (v : VertexId)
  | bulkLoadEdges (edges : List (VertexId × VertexId))
  | apply (batch : UpdateBatch)
  | addEdge (u v : VertexId)
  | removeEdge (u v : VertexId)
  | maybeCompact (threshold : D)
  | compact

namespace Call

variable {D : Type}

/-- Execute one call. -/
def exec [DoubleArith D] (g : DynamicGraph D) : Call D → DynamicGraph D
  | ensureVertex v => g.ensureVertex v
  | bulkLoadEdges edges => g.bulkLoadEdges edges
  | apply batch => g.apply batch
  | addEdge u v => g.addEdge u v
  | removeEdge u v => g.removeEdge u v
  | maybeCompact threshold => (g.maybeCompact threshold).2
  | compact => g.compact

/-- Execute a sequence of calls. -/
def run [DoubleArith D] (g : DynamicGraph D) (calls : List (Call D)) : DynamicGraph D :=
  calls.foldl exec g

/-- The result of a call, if it has one: the transposition of a bulk load has to stay within its arrays. -/
def exec? [DoubleArith D] (g : DynamicGraph D) (call : Call D) : Option (DynamicGraph D) :=
  match call with
  | bulkLoadEdges edges =>
    let loaded := g.bulkLoadEdges edges
    if loaded.outgoing.base.transposeInBounds then some loaded else none
  | call => some (call.exec g)

/-- The result of a sequence of calls, if it has one. -/
def run? [DoubleArith D] (g : DynamicGraph D) (calls : List (Call D)) : Option (DynamicGraph D) :=
  calls.foldlM exec? g

/-- What a call does to the abstract arc set. -/
def effect (directed : Bool) (arcs : ArcSet) : Call D → ArcSet
  | bulkLoadEdges edges => ofEdges directed edges
  | apply batch => applyAll directed arcs batch.updates
  | addEdge u v => applyAll directed arcs (UpdateBatch.add {} u v).updates
  | removeEdge u v => applyAll directed arcs (UpdateBatch.remove {} u v).updates
  | ensureVertex _ | maybeCompact _ | compact => arcs

end Call

namespace DynamicGraph

variable {D : Type} {g : DynamicGraph D} {arcs : ArcSet}

/-- One call acts on the represented arcs as its abstract counterpart. -/
theorem Refines.exec [DoubleArith D] (h : Refines g arcs) (call : Call D) :
    Refines (call.exec g) (call.effect g.directed arcs) ∧
      (call.exec g).directed = g.directed := by
  cases call with
  | ensureVertex v =>
    obtain ⟨hrep, hcount⟩ := h.toRepresents.ensureVertex v
    have hdirected := directed_ensureVertex g v
    refine ⟨⟨hrep, ?_⟩, hdirected⟩
    rw [Call.exec, hdirected, hcount]
    exact h.simple.mono (le_max_left _ _)
  | bulkLoadEdges edges =>
    obtain ⟨hload, -, hdirected⟩ := h.bulkLoadEdges edges
    exact ⟨hload, hdirected⟩
  | apply batch =>
    obtain ⟨hbatch, -, hdirected, -⟩ := h.apply batch
    exact ⟨hbatch, hdirected⟩
  | addEdge u v =>
    obtain ⟨hbatch, -, hdirected, -⟩ := h.apply (UpdateBatch.add {} u v)
    exact ⟨hbatch, hdirected⟩
  | removeEdge u v =>
    obtain ⟨hbatch, -, hdirected, -⟩ := h.apply (UpdateBatch.remove {} u v)
    exact ⟨hbatch, hdirected⟩
  | maybeCompact threshold =>
    have hkept := maybeCompact_spec h.outgoing.toTracked h.incoming threshold
    exact ⟨(h.maintained hkept).1, hkept.directed⟩
  | compact =>
    obtain ⟨hkept, -⟩ := compact_spec h.outgoing.toTracked h.incoming
    exact ⟨(h.maintained hkept).1, hkept.directed⟩

/-- Calls never make more vertices than there are ids. -/
theorem Refines.vertexCount_exec_le [DoubleArith D] (h : Refines g arcs)
    (hcount : g.vertexCount ≤ 2 ^ 32) (call : Call D) : (call.exec g).vertexCount ≤ 2 ^ 32 := by
  cases call with
  | ensureVertex v =>
    refine (h.toRepresents.ensureVertex v).2.le.trans (max_le hcount ?_)
    omega
  | bulkLoadEdges edges => exact (h.bulkLoadEdges edges).2.1.le.trans (growAll_le hcount _)
  | apply batch => exact (h.apply batch).2.1.le.trans (growAll_le hcount _)
  | addEdge u v => exact (h.apply _).2.1.le.trans (growAll_le hcount _)
  | removeEdge u v => exact (h.apply _).2.1.le.trans (growAll_le hcount _)
  | maybeCompact threshold =>
    have hkept := maybeCompact_spec h.outgoing.toTracked h.incoming threshold
    exact (h.maintained hkept).2.le.trans hcount
  | compact =>
    obtain ⟨hkept, -⟩ := compact_spec h.outgoing.toTracked h.incoming
    exact (h.maintained hkept).2.le.trans hcount

/-- A run acts on the represented arcs as the fold of its calls. -/
theorem Refines.run [DoubleArith D] (h : Refines g arcs) (calls : List (Call D)) :
    Refines (Call.run g calls) (calls.foldl (Call.effect g.directed) arcs) ∧
      (Call.run g calls).directed = g.directed := by
  induction calls generalizing g arcs with
  | nil => exact ⟨h, rfl⟩
  | cons call rest ih =>
    obtain ⟨hcall, hdirected⟩ := h.exec call
    obtain ⟨hrest, hdirected'⟩ := ih hcall
    rw [hdirected] at hrest
    exact ⟨hrest, hdirected'.trans hdirected⟩

/-- The successors of a vertex are the represented arcs that leave it. -/
theorem Represents.mem_neighbors (h : Represents g arcs) (u v : VertexId) :
    v ∈ g.neighbors u ↔ (u, v) ∈ arcs := by
  rw [neighbors, Side.mem_materializeRow h.outgoing.delta (h.outgoing.ascending u), h.has,
    present_eq_true]

/-- Rows of successors ascend. -/
theorem Represents.ascending_neighbors (h : Represents g arcs) (u : VertexId) :
    Ascending id (g.neighbors u) :=
  Side.ascending_materializeRow h.outgoing.delta (h.outgoing.ascending u)

/-- Graphs that represent the same arcs have the same rows. -/
theorem Represents.neighbors_eq {g' : DynamicGraph D} (h : Represents g arcs)
    (h' : Represents g' arcs) (u : VertexId) : g.neighbors u = g'.neighbors u := by
  refine SortedList.eq_of_mem_iff (h.ascending_neighbors u) (h'.ascending_neighbors u) fun v => ?_
  rw [h.mem_neighbors, h'.mem_neighbors]

/-- Enumerating the neighbours yields the materialised row. -/
theorem forEachNeighbor_eq (g : DynamicGraph D) (u : VertexId) :
    g.forEachNeighbor u = g.neighbors u := (Side.materializeRow_eq _ _).symm

/-- Enumerating the in-neighbours yields the materialised row. -/
theorem forEachInNeighbor_eq (g : DynamicGraph D) (v : VertexId) :
    g.forEachInNeighbor v = g.inNeighbors v := (Side.materializeRow_eq _ _).symm

/-- `has_edge` is membership in the represented arcs. -/
theorem Refines.hasEdge (h : Refines g arcs) (u v : VertexId) :
    g.hasEdge u v = present arcs u v := by
  unfold DynamicGraph.hasEdge
  rw [Side.compactContains_eq (h.outgoing.ascending u)]
  split
  · rename_i hle
    refine (Bool.eq_false_iff.mpr fun hpresent => ?_).symm
    exact absurd (h.simple.within u v (present_eq_true.mp hpresent)).1 (not_lt.mpr hle)
  · exact h.has u v

/-- The compact total and the delta counters balance to the length of all effective rows. -/
theorem Represents.edges_add (h : Represents g arcs) :
    (∑ u, (g.neighbors u).length) + g.outgoing.delta.deletions =
      g.outgoing.compactEdges + g.outgoing.delta.additions := by
  unfold PackedDeltaStore.deletions PackedDeltaStore.additions
  rw [h.outgoing.compactEdges_eq, h.outgoing.delta.absent_eq, h.outgoing.delta.present_eq,
    ← Finset.sum_add_distrib, ← Finset.sum_add_distrib]
  refine Finset.sum_congr rfl fun u _ => ?_
  rw [neighbors, Side.materializeRow_eq]
  exact length_mergeOverlay (h.outgoing.ascending u) (h.outgoing.delta.ascending u) (h.tight u)

/-- The represented arcs are as many as the effective rows are long. -/
theorem Represents.ncard_arcs (h : Represents g arcs) :
    arcs.ncard = ∑ u, (g.neighbors u).length := by
  have harcs : arcs = {p | p.2 ∈ g.neighbors p.1} :=
    Set.ext fun ⟨u, v⟩ => (h.mem_neighbors u v).symm
  rw [harcs, ncard_rows]
  exact fun u => (h.ascending_neighbors u).imp ne_of_lt

/-- `edge_count_directed` counts the represented arcs, and its subtraction does not wrap. -/
theorem Represents.edgeCountDirected_eq (h : Represents g arcs) :
    g.outgoing.delta.deletions ≤ g.outgoing.compactEdges + g.outgoing.delta.additions ∧
      g.edgeCountDirected = arcs.ncard := by
  have hedges := h.edges_add
  refine ⟨by omega, ?_⟩
  unfold edgeCountDirected
  exact (Nat.sub_eq_of_eq_add hedges.symm).trans h.ncard_arcs.symm

/-- Without overlay entries the compact rows are the effective rows. -/
theorem Represents.compactNeighbors_eq (h : Represents g arcs) (hcompact : g.isCompact = true)
    (u : VertexId) : g.compactNeighbors u = g.neighbors u := by
  have hempty : g.outgoing.delta.liveEntries = 0 := by
    have hout := (Bool.and_eq_true _ _ ▸ hcompact).1
    simpa [PackedDeltaStore.empty] using hout
  rw [compactNeighbors, neighbors, Side.compactNeighbors_eq,
    Side.materializeRow_of_nil (h.outgoing.delta.row_eq_nil_of_empty hempty u)]

/-- The forward view of a graph shows a set of arcs: rows, membership, edge count and compact rows. -/
structure ForwardView [DoubleArith D] (g : DynamicGraph D) (arcs : ArcSet) : Prop where
  neighbors : ∀ u, Ascending id (g.neighbors u) ∧ g.forEachNeighbor u = g.neighbors u ∧
    ∀ v, v ∈ g.neighbors u ↔ (u, v) ∈ arcs
  hasEdge : ∀ u v, g.hasEdge u v = true ↔ (u, v) ∈ arcs
  edgeCountDirected : g.outgoing.delta.deletions ≤
      g.outgoing.compactEdges + g.outgoing.delta.additions ∧ g.edgeCountDirected = arcs.ncard
  compactNeighbors : g.isCompact = true → ∀ u, g.compactNeighbors u = g.neighbors u
  isCompact : g.compact.isCompact = true

/-- A graph shows the arcs that it represents. -/
theorem Refines.forwardView [DoubleArith D] (h : Refines g arcs) : ForwardView g arcs := by
  refine ⟨fun u => ⟨h.ascending_neighbors u, forEachNeighbor_eq g u, h.mem_neighbors u⟩,
    fun u v => ?_, h.edgeCountDirected_eq, h.compactNeighbors_eq,
    (compact_spec h.outgoing.toTracked h.incoming).2⟩
  rw [h.hasEdge, present_eq_true]

/-- No call takes a vertex away. -/
theorem Refines.le_vertexCount_exec [DoubleArith D] (h : Refines g arcs) (call : Call D) :
    g.vertexCount ≤ (call.exec g).vertexCount := by
  cases call with
  | ensureVertex v => exact (le_max_left _ _).trans (h.toRepresents.ensureVertex v).2.ge
  | bulkLoadEdges edges => exact (le_growAll _ _).trans (h.bulkLoadEdges edges).2.1.ge
  | apply batch => exact (le_growAll _ _).trans (h.apply batch).2.1.ge
  | addEdge u v => exact (le_growAll _ _).trans (h.apply (UpdateBatch.add {} u v)).2.1.ge
  | removeEdge u v => exact (le_growAll _ _).trans (h.apply (UpdateBatch.remove {} u v)).2.1.ge
  | maybeCompact threshold =>
    exact (h.maintained (maybeCompact_spec h.outgoing.toTracked h.incoming threshold)).2.ge
  | compact => exact (h.maintained (compact_spec h.outgoing.toTracked h.incoming).1).2.ge

/-- The result of a call is the graph after it. -/
theorem exec_of_exec? [DoubleArith D] {g' : DynamicGraph D} {call : Call D}
    (h : call.exec? g = some g') : call.exec g = g' := by
  cases call with
  | bulkLoadEdges edges =>
    simp only [Call.exec?] at h
    split at h
    · exact Option.some.inj h
    · exact absurd h (Option.some_ne_none _).symm
  | _ => exact Option.some.inj h

/-- The result of a sequence of calls is the graph after it. -/
theorem run_of_run? [DoubleArith D] {g' : DynamicGraph D} {calls : List (Call D)}
    (h : Call.run? g calls = some g') : Call.run g calls = g' := by
  induction calls generalizing g with
  | nil => exact Option.some.inj h
  | cons call rest ih =>
    rw [Call.run?, List.foldlM_cons] at h
    obtain ⟨next, hnext, hrest⟩ := Option.bind_eq_some_iff.mp h
    rw [Call.run, List.foldl_cons, exec_of_exec? hnext]
    exact ih hrest

/-- A call has a result unless it is a bulk load of more vertices than there are ids. -/
theorem Refines.exec?_isSome_iff [DoubleArith D] (h : Refines g arcs) (call : Call D) :
    (call.exec? g).isSome = true ↔
      g.vertexCount ≤ 2 ^ 32 ∨ ∀ edges, call ≠ .bulkLoadEdges edges := by
  cases call with
  | bulkLoadEdges edges =>
    have hcount : (g.bulkLoadEdges edges).outgoing.base.vertexCount =
        growAll g.vertexCount (insertions edges) := (h.bulkLoadEdges edges).2.1
    have hbounds := SegmentedCsr.transposeInBounds_iff (g.bulkLoadEdges edges).outgoing.base
    rw [hcount] at hbounds
    have hgrow : growAll g.vertexCount (insertions edges) ≤ 2 ^ 32 ↔ g.vertexCount ≤ 2 ^ 32 :=
      ⟨(le_growAll _ _).trans, fun hle => growAll_le hle _⟩
    simp only [Call.exec?]
    split
    · rename_i hin
      exact iff_of_true rfl (Or.inl (hgrow.mp (hbounds.mp hin)))
    · rename_i hout
      refine iff_of_false Bool.false_ne_true ?_
      rintro (hle | hother)
      · exact hout (hbounds.mpr (hgrow.mpr hle))
      · exact hother edges rfl
  | _ => exact iff_of_true rfl (Or.inr fun _ heq => by cases heq)

/-- A sequence of calls has a result unless it loads more vertices than there are ids. -/
theorem Refines.run?_isSome_iff [DoubleArith D] (h : Refines g arcs) (calls : List (Call D)) :
    (Call.run? g calls).isSome = true ↔
      g.vertexCount ≤ 2 ^ 32 ∨ ∀ edges, Call.bulkLoadEdges edges ∉ calls := by
  induction calls generalizing g arcs with
  | nil => exact iff_of_true rfl (Or.inr fun _ => List.not_mem_nil)
  | cons call rest ih =>
    have hcall := h.exec?_isSome_iff call
    rw [Call.run?, List.foldlM_cons]
    cases hnext : call.exec? g with
    | none =>
      rw [hnext] at hcall
      refine iff_of_false Bool.false_ne_true ?_
      rintro (hle | hother)
      · exact Bool.false_ne_true (hcall.mpr (Or.inl hle))
      · exact Bool.false_ne_true (hcall.mpr (Or.inr fun edges heq =>
          hother edges (heq ▸ List.mem_cons_self)))
    | some next =>
      rw [hnext] at hcall
      obtain rfl := exec_of_exec? hnext
      refine (ih (h.exec call).1).trans ⟨?_, ?_⟩
      · rintro (hle | hrest)
        · exact Or.inl ((h.le_vertexCount_exec call).trans hle)
        · refine (hcall.mp rfl).imp_right fun hfirst edges hmem => ?_
          rcases List.mem_cons.mp hmem with heq | hlater
          · exact hfirst edges heq.symm
          · exact hrest edges hlater
      · rintro (hle | hnone)
        · exact Or.inl (h.vertexCount_exec_le hle call)
        · exact Or.inr fun edges hmem => hnone edges (List.mem_cons_of_mem _ hmem)

/-- After every call of a run the forward view is the abstract arc set, exactly when the run bulk loads
no graph with more vertices than there are ids. -/
theorem forward_view_refines_iff [DoubleArith D] (vertices : ℕ) (directed : Bool)
    (calls : List (Call D)) :
    (∀ k, ∃ g, Call.run? (create vertices directed) (calls.take k) = some g ∧
        ForwardView g ((calls.take k).foldl (Call.effect directed) ∅)) ↔
      vertices ≤ 2 ^ 32 ∨ ∀ edges, Call.bulkLoadEdges edges ∉ calls := by
  obtain ⟨hcreated, hcount⟩ := @refines_create D vertices directed
  have hresult := fun calls => hcreated.run?_isSome_iff calls
  rw [hcount] at hresult
  constructor
  · intro hall
    obtain ⟨g, hrun, -⟩ := hall calls.length
    rw [List.take_length] at hrun
    exact (hresult calls).mp (hrun ▸ rfl)
  · intro hbounds k
    have hsome := (hresult (calls.take k)).mpr
      (hbounds.imp_right fun hnone edges hmem => hnone edges (List.mem_of_mem_take hmem))
    obtain ⟨g, hrun⟩ := Option.isSome_iff_exists.mp hsome
    have h := (hcreated.run (calls.take k)).1
    rw [run_of_run? hrun] at h
    exact ⟨g, hrun, h.forwardView⟩

/-- The bulk load of a graph with one vertex more than there are ids has no forward view. -/
theorem not_forward_view_refines :
    ¬ ∀ (vertices : ℕ) (directed : Bool) (calls : List (Call ℚ)),
      ∃ g, Call.run? (create vertices directed) calls = some g ∧
        ForwardView g (calls.foldl (Call.effect directed) ∅) := by
  intro hall
  obtain ⟨hcreated, hcount⟩ := @refines_create ℚ (2 ^ 32 + 1) true
  obtain ⟨g, hrun, -⟩ := hall (2 ^ 32 + 1) true [.bulkLoadEdges [(0, 1)]]
  have hresult := (hcreated.run?_isSome_iff [.bulkLoadEdges [(0, 1)]]).mp (hrun ▸ rfl)
  rw [hcount] at hresult
  rcases hresult with hle | hnone
  · exact absurd hle (by norm_num)
  · exact hnone _ (List.mem_singleton_self _)

/-- Two states that no observer tells apart. -/
structure SameObservables (g g' : DynamicGraph D) : Prop where
  vertexCount : g'.vertexCount = g.vertexCount
  version : g'.version = g.version
  hasEdge : ∀ u v, g'.hasEdge u v = g.hasEdge u v
  neighbors : ∀ u, g'.neighbors u = g.neighbors u
  inNeighbors : ∀ v, g'.inNeighbors v = g.inNeighbors v
  edgeCountDirected : g'.edgeCountDirected = g.edgeCountDirected

/-- Maintenance is not observable. -/
theorem Refines.sameObservables {g' : DynamicGraph D} (h : Refines g arcs)
    (hkept : Maintained g g') : SameObservables g g' := by
  obtain ⟨h', hcount⟩ := h.maintained hkept
  refine ⟨hcount, hkept.version, fun u v => ?_, hkept.outgoing.materializeRow,
    hkept.incoming.materializeRow, ?_⟩
  · rw [h'.hasEdge, h.hasEdge]
  · rw [h'.edgeCountDirected_eq.2, h.edgeCountDirected_eq.2]

/-- The state of a batch just before its maintenance: all operations done and the version set. -/
def beforeMaintenance (g : DynamicGraph D) (batch : UpdateBatch) : DynamicGraph D :=
  let g := batch.updates.foldl applyUnversioned g
  { g with version := g.version + 1 }

/-- In every reachable state, no maintenance step is observable: neither the public ones nor the
one that ends a batch. -/
theorem maintenance_invisible [DoubleArith D] (vertices : ℕ) (directed : Bool)
    (calls : List (Call D)) :
    let g := Call.run (create vertices directed) calls
    (∀ threshold, SameObservables g (g.maybeCompact threshold).2) ∧
      SameObservables g g.compact ∧
      ∀ batch, SameObservables (g.beforeMaintenance batch)
          (g.beforeMaintenance batch).automaticStorageMaintenance ∧
        g.apply batch = if batch.empty then batch.updates.foldl applyUnversioned g
          else (g.beforeMaintenance batch).automaticStorageMaintenance := by
  dsimp only
  obtain ⟨h, -⟩ := (refines_create vertices directed).1.run calls
  generalize Call.run (create vertices directed) calls = g at h ⊢
  refine ⟨fun threshold => ?_, ?_, fun batch => ⟨?_, rfl⟩⟩
  · exact h.sameObservables (maybeCompact_spec h.outgoing.toTracked h.incoming threshold)
  · exact h.sameObservables (compact_spec h.outgoing.toTracked h.incoming).1
  · obtain ⟨hfold, -⟩ := h.foldl_applyUnversioned batch.updates
    have hbefore : Refines (g.beforeMaintenance batch) _ :=
      ⟨⟨hfold.outgoing, hfold.tight, hfold.incoming, hfold.has⟩, hfold.simple⟩
    exact hbefore.sameObservables
      (automaticStorageMaintenance_spec hbefore.outgoing.toTracked hbefore.incoming)

end DynamicGraph

end VeloGraphX
