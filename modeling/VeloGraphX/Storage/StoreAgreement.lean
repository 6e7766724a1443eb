import Mathlib
import VeloGraphX.Storage.CsrGraph
import VeloGraphX.Storage.DynamicGraphCalls
import VeloGraphX.Storage.WeightedDynamicGraph

/-!
# Agreement of the stores

Each store acts on a sequence of operations as the abstract graph does, whose state after a
sequence does not depend on how it is cut into batches. So all stores end with the same vertices
and the same successors, and so do the two that are built from an edge list at once.
-/

namespace VeloGraphX

open ArcSet LastWrite

/-- The batches of a cut, one after the other, are the whole sequence. -/
theorem ArcSet.applyAll_flatten (directed : Bool) (arcs : ArcSet) (cut : List (List EdgeUpdate)) :
    cut.foldl (applyAll directed) arcs = applyAll directed arcs cut.flatten := by
  induction cut generalizing arcs with
  | nil => rfl
  | cons ops rest ih =>
    rw [List.foldl_cons, ih, List.flatten_cons]
    exact (List.foldl_append).symm

/-- The batches of a cut make the vertices that the whole sequence makes. -/
theorem ArcSet.growAll_flatten (n : ℕ) (cut : List (List EdgeUpdate)) :
    cut.foldl growAll n = growAll n cut.flatten := by
  induction cut generalizing n with
  | nil => rfl
  | cons ops rest ih =>
    rw [List.foldl_cons, ih, List.flatten_cons]
    exact (List.foldl_append).symm

/-- The operation on the weighted graph: weight one for insertions. -/
def unitUpdate (op : EdgeUpdate) : WeightedEdgeUpdate :=
  ⟨op.src, op.dst, if op.add then 1 else 0, op.add, op.timestamp⟩

/-- Whether an arc is there after unit-weight operations is what the operations ask of it. -/
theorem Weights.mem_arcs_applyAll (directed : Bool) (weights : Weights) (ops : List EdgeUpdate) :
    Weights.arcs (Weights.applyAll directed weights (ops.map unitUpdate)) =
      ArcSet.applyAll directed (Weights.arcs weights) ops := by
  refine Set.ext fun ⟨u, v⟩ => ?_
  have hwrite : ∀ op, Weights.weightOn directed u v (unitUpdate op) =
      (writeOn directed u v op).map fun add => if add then some (if op.add then 1 else 0) else none :=
    fun op => rfl
  have hlast : ∀ initial : Option ℕ,
      (lastWrite (Weights.weightOn directed u v) (ops.map unitUpdate) initial).isSome =
        lastWrite (writeOn directed u v) ops initial.isSome := by
    induction ops with
    | nil => exact fun initial => rfl
    | cons op rest ih =>
      intro initial
      rw [List.map_cons, lastWrite_cons, lastWrite_cons, ih, hwrite]
      cases writeOn directed u v op with
      | none => rfl
      | some add => cases add <;> rfl
  refine Iff.trans ?_ present_eq_true
  have hpresent : present (Weights.arcs weights) u v = (weights u v).isSome :=
    Bool.eq_iff_iff.mpr present_eq_true
  rw [present_applyAll, hpresent, ← hlast]
  rfl

/-- The dynamic graph after the batches of a cut. -/
theorem DynamicGraph.Refines.foldl_cut {D : Type} [DoubleArith D] {g : DynamicGraph D}
    {arcs : ArcSet} (h : DynamicGraph.Refines g arcs) (cut : List (List EdgeUpdate)) :
    DynamicGraph.Refines (cut.foldl (fun g ops => g.apply ⟨ops⟩) g)
        (cut.foldl (applyAll g.directed) arcs) ∧
      (cut.foldl (fun g ops => g.apply ⟨ops⟩) g).vertexCount = cut.foldl growAll g.vertexCount := by
  induction cut generalizing g arcs with
  | nil => exact ⟨h, rfl⟩
  | cons ops rest ih =>
    obtain ⟨hbatch, hcount, hdirected, -⟩ := h.apply ⟨ops⟩
    obtain ⟨hrest, hcount'⟩ := ih hbatch
    rw [hdirected] at hrest
    exact ⟨hrest, hcount'.trans (by rw [hcount]; rfl)⟩

/-- Unit weights are accepted. -/
theorem accepts_unitUpdate (ops : List EdgeUpdate) :
    (ops.map unitUpdate).any WeightedDynamicGraph.rejects = false := by
  have hlimit : ¬ kMaxFiniteWeightedDistance < 1 := by decide
  rw [List.any_eq_false]
  intro op hop
  obtain ⟨op', -, rfl⟩ := List.mem_map.mp hop
  unfold WeightedDynamicGraph.rejects unitUpdate
  cases hadd : op'.add <;> simp [hlimit]

/-- The weighted graph after the batches of a cut, with unit weights. -/
theorem WeightedDynamicGraph.Refines.foldl_cut {g : WeightedDynamicGraph} {weights : Weights}
    (h : WeightedDynamicGraph.Refines g weights) (cut : List (List EdgeUpdate)) :
    ∃ weights', WeightedDynamicGraph.Refines
        (cut.foldl (fun g ops => (g.apply ⟨ops.map unitUpdate⟩).2) g) weights' ∧
      weights'.arcs = cut.foldl (ArcSet.applyAll g.directed) weights.arcs ∧
      (cut.foldl (fun g ops => (g.apply ⟨ops.map unitUpdate⟩).2) g).vertexCount =
        cut.foldl growAll g.vertexCount := by
  induction cut generalizing g weights with
  | nil => exact ⟨weights, h, rfl, rfl⟩
  | cons ops rest ih =>
    obtain ⟨-, hbatch, hcount, hdirected⟩ :=
      @WeightedDynamicGraph.Refines.apply g weights h ⟨ops.map unitUpdate⟩ (accepts_unitUpdate ops)
    obtain ⟨weights', hrest, harcs, hcount'⟩ := ih hbatch
    have hedges : (ops.map unitUpdate).map (·.edge) = ops := by
      rw [List.map_map]
      exact List.map_id ops
    refine ⟨weights', hrest, ?_, ?_⟩
    · rw [harcs, hdirected, List.foldl_cons]
      exact congrArg (fun arcs => rest.foldl (ArcSet.applyAll g.directed) arcs)
        (Weights.mem_arcs_applyAll g.directed weights ops)
    · rw [List.foldl_cons, hcount', hcount, hedges]
      rfl

/-- Insertions act on the abstract graph as the insertion of their edges. -/
theorem insertions_edges {ops : List EdgeUpdate} (hadd : ∀ op ∈ ops, op.add = true)
    (directed : Bool) (arcs : ArcSet) (n : ℕ) :
    applyAll directed arcs (insertions (ops.map fun op => (op.src, op.dst))) =
        applyAll directed arcs ops ∧
      growAll n (insertions (ops.map fun op => (op.src, op.dst))) = growAll n ops := by
  induction ops generalizing arcs n with
  | nil => exact ⟨rfl, rfl⟩
  | cons op rest ih =>
    have hop : applyOp directed arcs ⟨op.src, op.dst, true, 0⟩ = applyOp directed arcs op := by
      unfold applyOp
      rw [hadd op List.mem_cons_self]
    have hrest := fun op' hop' => hadd op' (List.mem_cons_of_mem _ hop')
    refine ⟨?_, (ih hrest arcs _).2⟩
    change applyAll directed (applyOp directed arcs ⟨op.src, op.dst, true, 0⟩) _ = _
    rw [hop]
    exact (ih hrest _ n).1

/-- Whatever the cuts, the dynamic graph and the weighted graph end with the same vertices and the
same successors; after insertions only, so do the static graph and the bulk load. -/
theorem stores_agree {D : Type} [DoubleArith D] (directed : Bool) (cut cut' : List (List EdgeUpdate))
    (hcut : cut.flatten = cut'.flatten) :
    let g : DynamicGraph D := cut.foldl (fun g ops => g.apply ⟨ops⟩) (.create 0 directed)
    let weighted := cut'.foldl (fun g ops => (g.apply ⟨ops.map unitUpdate⟩).2)
      (WeightedDynamicGraph.create 0 directed)
    weighted.vertexCount = g.vertexCount ∧
      (∀ u v, v ∈ (weighted.forEachNeighbor u).map Prod.fst ↔ v ∈ g.neighbors u) ∧
      ((∀ op ∈ cut.flatten, op.add = true) →
        let edges := cut.flatten.map fun op => (op.src, op.dst)
        let csr := CsrGraph.create edges directed
        let bulk : DynamicGraph D := (DynamicGraph.create 0 directed).bulkLoadEdges edges
        csr.vertexCount = g.vertexCount ∧ bulk.vertexCount = g.vertexCount ∧
          (∀ u : VertexId, u.val < g.vertexCount →
            CsrGraph.RowOf (csr.neighbors u) (· ∈ g.neighbors u)) ∧
          ∀ u v, v ∈ bulk.neighbors u ↔ v ∈ g.neighbors u) := by
  obtain ⟨hcreated, hempty⟩ := @DynamicGraph.refines_create D 0 directed
  obtain ⟨hrefines, hcount⟩ := hcreated.foldl_cut cut
  obtain ⟨weights, hweighted, harcs, hcount'⟩ :=
    (WeightedDynamicGraph.refines_create 0 directed).foldl_cut cut'
  have hnone : Weights.arcs (fun _ _ => none) = ∅ := Set.ext fun a => by simp [Weights.arcs]
  change weights.arcs = cut'.foldl (applyAll directed) _ at harcs
  change DynamicGraph.Refines _ (cut.foldl (applyAll directed) ∅) at hrefines
  rw [hempty, growAll_flatten] at hcount
  rw [hnone, applyAll_flatten, ← hcut] at harcs
  rw [growAll_flatten, ← hcut] at hcount'
  rw [applyAll_flatten] at hrefines
  dsimp only
  generalize cut.foldl (fun g ops => g.apply ⟨ops⟩) (.create 0 directed : DynamicGraph D) = g
    at hrefines hcount ⊢
  generalize cut'.foldl (fun g ops => (g.apply ⟨ops.map unitUpdate⟩).2)
    (WeightedDynamicGraph.create 0 directed) = weighted at hweighted hcount' ⊢
  refine ⟨hcount'.trans hcount.symm, fun u v => ?_, fun hadd => ?_⟩
  · have hrow : v ∈ (weighted.forEachNeighbor u).map Prod.fst ↔ (u, v) ∈ weights.arcs := by
      rw [List.mem_map]
      constructor
      · rintro ⟨⟨x, w⟩, hmem, rfl⟩
        have hweight := (WeightedDynamicGraph.mem_forEachNeighbor weighted u x w).mp hmem
        rw [hweighted.weight_eq] at hweight
        exact Option.isSome_iff_exists.mpr ⟨w, hweight⟩
      · intro hmem
        obtain ⟨w, hw⟩ := Option.isSome_iff_exists.mp hmem
        refine ⟨(v, w), (WeightedDynamicGraph.mem_forEachNeighbor weighted u v w).mpr ?_, rfl⟩
        rw [hweighted.weight_eq]
        exact hw
    rw [hrow, hrefines.mem_neighbors, harcs]
  · obtain ⟨harcs', hgrow⟩ := insertions_edges hadd directed ∅ 0
    obtain ⟨hbulk, hbulkCount, -⟩ :=
      hcreated.bulkLoadEdges (cut.flatten.map fun op => (op.src, op.dst))
    have hcsr := CsrGraph.holds_create (cut.flatten.map fun op => (op.src, op.dst)) directed
    have hcsrCount := CsrGraph.vertexCount_create (cut.flatten.map fun op => (op.src, op.dst))
      directed
    change DynamicGraph.Refines _ (ofEdges directed _) at hbulk
    rw [← applyAll_insertions, harcs'] at hbulk hcsr
    rw [hempty, hgrow] at hbulkCount
    rw [hgrow] at hcsrCount
    refine ⟨hcsrCount.trans hcount.symm, hbulkCount.trans hcount.symm, fun u hu => ?_, fun u v => ?_⟩
    · obtain ⟨row, hrow, hascending, hmem⟩ :=
        hcsr.neighbors u ((hcsrCount.trans hcount.symm).symm ▸ hu)
      exact ⟨row, hrow, hascending, fun v => (hmem v).trans (hrefines.mem_neighbors u v).symm⟩
    · rw [hbulk.mem_neighbors, hrefines.mem_neighbors]

/-- The case of two insertions cut in two ways: all four stores have three vertices and the row of
vertex 1. -/
theorem stores_agree_insert :
    let g : DynamicGraph ℚ := [[⟨0, 1, true, 0⟩], [⟨1, 2, true, 0⟩]].foldl
      (fun g ops => g.apply ⟨ops⟩) (.create 0 true)
    let weighted := [[⟨0, 1, true, 0⟩, ⟨1, 2, true, 0⟩]].foldl
      (fun g ops => (g.apply ⟨ops.map unitUpdate⟩).2) (WeightedDynamicGraph.create 0 true)
    let csr := CsrGraph.create [(0, 1), (1, 2)] true
    let bulk : DynamicGraph ℚ := (DynamicGraph.create 0 true).bulkLoadEdges [(0, 1), (1, 2)]
    (g.vertexCount = 3 ∧ weighted.vertexCount = 3 ∧ csr.vertexCount = 3 ∧ bulk.vertexCount = 3) ∧
      g.neighbors 1 = [2] ∧ (∀ v, v ∈ (weighted.forEachNeighbor 1).map Prod.fst ↔ v = 2) ∧
      CsrGraph.RowOf (csr.neighbors 1) (· = 2) ∧ ∀ v, v ∈ bulk.neighbors 1 ↔ v = 2 := by
  intro g weighted csr bulk
  have hcount : g.vertexCount = 3 := by decide +kernel
  have hrow : g.neighbors 1 = [2] := by decide +kernel
  obtain ⟨hweighted, hmem, hinserted⟩ := @stores_agree ℚ _ true
    [[⟨0, 1, true, 0⟩], [⟨1, 2, true, 0⟩]] [[⟨0, 1, true, 0⟩, ⟨1, 2, true, 0⟩]] rfl
  obtain ⟨hcsr, hbulk, hrows, hmem'⟩ := hinserted (by decide)
  have hcsrRow := hrows 1 (hcount ▸ by decide)
  change CsrGraph.RowOf (csr.neighbors 1) (· ∈ g.neighbors 1) at hcsrRow
  simp only [hrow, List.mem_singleton] at hcsrRow
  refine ⟨⟨hcount, hweighted.trans hcount, hcsr.trans hcount, hbulk.trans hcount⟩, hrow,
    fun v => (hmem 1 v).trans ?_, hcsrRow, fun v => (hmem' 1 v).trans ?_⟩
  · change v ∈ g.neighbors 1 ↔ v = 2
    rw [hrow, List.mem_singleton]
  · change v ∈ g.neighbors 1 ↔ v = 2
    rw [hrow, List.mem_singleton]

end VeloGraphX
