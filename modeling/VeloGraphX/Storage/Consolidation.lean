import Mathlib
import VeloGraphX.Storage.GraphCopy

/-!
# Consolidation

The logical edges of a graph are listed, from compact rows where there are no overlay entries and
from materialised rows otherwise, and bulk-loaded into a fresh graph. The transposition of the
fresh base stays within its arrays only while every vertex has an id of its own.
-/

namespace VeloGraphX

open SortedList ArcSet

/-- `ConsolidationSnapshot`. -/
structure ConsolidationSnapshot (D : Type) where
  graph : DynamicGraph D
  directedEdges : ℕ := 0

namespace DynamicGraph

variable {D : Type}

/-- The edge list of `consolidate_to_csr_snapshot`: each edge of an undirected graph once. -/
def consolidationEdges (source : DynamicGraph D) : List (VertexId × VertexId) :=
  let compactSource := source.isCompact
  (List.range source.vertexCount).flatMap fun u =>
    let vertex := Fin.ofNat (2 ^ 32) u
    let row := if compactSource then source.compactNeighbors vertex else source.neighbors vertex
    (row.filter fun v => source.directed || decide (u < v.val)).map fun v => (vertex, v)

/-- `consolidate_to_csr_snapshot`; `none` when the transposition of the bulk load leaves the bounds
of its arrays, for which the language promises nothing. -/
def consolidateToCsrSnapshot (source : DynamicGraph D) : Option (ConsolidationSnapshot D) :=
  let consolidated := (create source.vertexCount source.directed).bulkLoadEdges
    source.consolidationEdges
  if consolidated.outgoing.base.transposeInBounds then
    some { graph := consolidated, directedEdges := source.edgeCountDirected }
  else none

variable {g : DynamicGraph D} {arcs : ArcSet}

/-- Both paths list the arcs of existing vertices, in undirected graphs from the smaller end. -/
theorem Refines.mem_consolidationEdges (h : Refines g arcs) (hcount : g.vertexCount ≤ 2 ^ 32)
    (u v : VertexId) :
    (u, v) ∈ g.consolidationEdges ↔ (u, v) ∈ arcs ∧ (g.directed = true ∨ u < v) := by
  have hrow : ∀ w, (if g.isCompact then g.compactNeighbors w else g.neighbors w) = g.neighbors w := by
    intro w
    split
    · rename_i hcompact
      exact h.compactNeighbors_eq hcompact w
    · rfl
  simp only [consolidationEdges, hrow, List.mem_flatMap, List.mem_range, List.mem_map,
    List.mem_filter, Bool.or_eq_true, decide_eq_true_eq, h.mem_neighbors, Prod.mk.injEq]
  constructor
  · rintro ⟨w, hw, x, ⟨hmem, hhalf⟩, rfl, rfl⟩
    refine ⟨hmem, hhalf.imp_right fun hlt => ?_⟩
    rw [Fin.lt_def, Fin.val_ofNat, Nat.mod_eq_of_lt (by omega)]
    exact hlt
  · rintro ⟨hmem, hhalf⟩
    have hu := (h.simple.within u v hmem).1
    have hcast : Fin.ofNat (2 ^ 32) u.val = u := Fin.ext (Nat.mod_eq_of_lt u.isLt)
    exact ⟨u.val, hu, v, ⟨hcast.symm ▸ hmem, hhalf⟩, hcast, rfl⟩

/-- The listed edges have the arcs of the graph. -/
theorem Refines.ofEdges_consolidationEdges (h : Refines g arcs) (hcount : g.vertexCount ≤ 2 ^ 32) :
    ofEdges g.directed g.consolidationEdges = arcs := by
  refine h.simple.ofEdges_eq (fun ⟨u, v⟩ he => ((h.mem_consolidationEdges hcount u v).mp he).1)
    fun u v hmem => ?_
  rw [h.mem_consolidationEdges hcount, h.mem_consolidationEdges hcount]
  cases hdirected : g.directed with
  | true => exact Or.inl ⟨hmem, Or.inl rfl⟩
  | false =>
    rcases lt_trichotomy u v with hlt | rfl | hgt
    · exact Or.inl ⟨hmem, Or.inr hlt⟩
    · exact absurd hmem (h.simple.loopless u)
    · exact Or.inr ⟨rfl, h.simple.undirected hdirected u v hmem, Or.inr hgt⟩

/-- A bulk load leaves no overlay entries. -/
theorem isCompact_bulkLoadEdges (g : DynamicGraph D) (edges : List (VertexId × VertexId)) :
    (g.bulkLoadEdges edges).isCompact = true := by
  have hempty : ∀ (side : Side) (base : SegmentedCsr) (n : ℕ),
      (loadSide side base n).delta.empty = true := fun side base n => by
    unfold loadSide PackedDeltaStore.resizeVertices
    split <;> rfl
  unfold bulkLoadEdges isCompact
  dsimp only
  rw [hempty, hempty]
  rfl

/-- The transposition of a consolidation stays within its arrays while the vertices have ids. -/
theorem transposeInBounds_consolidation (source : DynamicGraph D) :
    ((create source.vertexCount source.directed : DynamicGraph D).bulkLoadEdges
        source.consolidationEdges).outgoing.base.transposeInBounds = true ↔
      growAll source.vertexCount (insertions source.consolidationEdges) ≤ 2 ^ 32 := by
  obtain ⟨hcreated, hempty⟩ := @refines_create D source.vertexCount source.directed
  obtain ⟨-, hcount, -⟩ := hcreated.bulkLoadEdges source.consolidationEdges
  rw [hempty] at hcount
  rw [SegmentedCsr.transposeInBounds_iff, ← hcount]
  exact Iff.rfl

/-- A vertex without an id breaks the transposition. -/
theorem consolidateToCsrSnapshot_eq_none {source : DynamicGraph D}
    (hcount : 2 ^ 32 < source.vertexCount) : source.consolidateToCsrSnapshot = none := by
  refine if_neg fun hbounds => ?_
  have hgrow := (transposeInBounds_consolidation source).mp hbounds
  have hle := le_growAll source.vertexCount (insertions source.consolidationEdges)
  omega

/-- While every vertex has an id, consolidation yields a copy. -/
theorem Refines.consolidate_isCopy (h : Refines g arcs) (hcount : g.vertexCount ≤ 2 ^ 32) :
    ∃ snapshot, g.consolidateToCsrSnapshot = some snapshot ∧ IsCopy g snapshot.graph ∧
      snapshot.directedEdges = g.edgeCountDirected := by
  have hcreated := @mirrored_create D g.vertexCount g.directed
  have hempty := (@refines_create D g.vertexCount g.directed).2
  have hgrow : growAll g.vertexCount (insertions g.consolidationEdges) = g.vertexCount :=
    growAll_of_within fun ⟨u, v⟩ he =>
      h.simple.within u v ((h.mem_consolidationEdges hcount u v).mp he).1
  obtain ⟨-, hvertices, hdirected⟩ := hcreated.toRefines.bulkLoadEdges g.consolidationEdges
  rw [hempty, hgrow] at hvertices
  have hcopy := hcreated.bulkLoadEdges (hempty.le.trans hcount) g.consolidationEdges
  change Mirrored _ (ofEdges g.directed _) at hcopy
  rw [h.ofEdges_consolidationEdges hcount] at hcopy
  have hbounds := (transposeInBounds_consolidation g).mpr (hgrow.le.trans hcount)
  exact ⟨_, if_pos hbounds,
    hcopy.isCopy h (isCompact_bulkLoadEdges _ _) hdirected hvertices, rfl⟩

/-- In every reachable state, consolidation yields a copy exactly when every vertex has an id. -/
theorem consolidation_copies_iff [DoubleArith D] (vertices : ℕ) (directed : Bool)
    (calls : List (Call D)) :
    let source := Call.run (create vertices directed) calls
    (∃ snapshot, source.consolidateToCsrSnapshot = some snapshot ∧
        IsCopy source snapshot.graph ∧ snapshot.directedEdges = source.edgeCountDirected) ↔
      source.vertexCount ≤ 2 ^ 32 := by
  dsimp only
  obtain ⟨h, -⟩ := (@refines_create D vertices directed).1.run calls
  refine ⟨fun ⟨snapshot, hsome, _⟩ => ?_, h.consolidate_isCopy⟩
  by_contra hmany
  rw [consolidateToCsrSnapshot_eq_none (not_le.mp hmany)] at hsome
  exact Option.some_ne_none snapshot hsome.symm

/-- A directed graph with one vertex more than there are ids is not consolidated. -/
theorem not_consolidation_copies :
    ¬ ∀ (vertices : ℕ) (directed : Bool) (calls : List (Call ℚ)),
      let source := Call.run (create vertices directed) calls
      ∃ snapshot, source.consolidateToCsrSnapshot = some snapshot ∧
        IsCopy source snapshot.graph := by
  intro hcopies
  obtain ⟨snapshot, hsome, -⟩ := hcopies (2 ^ 32 + 1) true []
  have hvertices := (@refines_create ℚ (2 ^ 32 + 1) true).2
  change (create (2 ^ 32 + 1) true : DynamicGraph ℚ).consolidateToCsrSnapshot = _ at hsome
  rw [consolidateToCsrSnapshot_eq_none (hvertices.symm ▸ Nat.lt_succ_self _)] at hsome
  exact Option.some_ne_none snapshot hsome.symm

end DynamicGraph

end VeloGraphX
