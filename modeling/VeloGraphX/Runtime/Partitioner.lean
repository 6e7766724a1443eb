import Mathlib
import VeloGraphX.Lib.Tiling
import VeloGraphX.Types

/-!
# Vertex ranges and their NUMA nodes

The vertices are cut into consecutive ranges at the rounded multiples of `n / parts`. Range `i` gets
node `i` of the topology, counted modulo the number of nodes; without a topology, or with the mode
off, it gets no node.
-/

namespace VeloGraphX

open Tiling

/-- `NumaMode`. -/
inductive NumaMode
  | autoDetect
  | off
  | interleave
deriving DecidableEq, Repr

/-- `NumaNodeInfo`. -/
structure NumaNodeInfo where
  id : ℕ := 0
  cpus : List ℕ := []
deriving DecidableEq, Repr, Inhabited

/-- `NumaInfo`, as far as placements read it. -/
structure NumaInfo where
  topology : List NumaNodeInfo := []
deriving DecidableEq, Repr

/-- The number of ranges: at least one, and not more than there are vertices. -/
def clampedParts (n parts : ℕ) : ℕ := max 1 (min parts (max 1 n))

/-- `contiguous_partitions`. -/
def contiguousPartitions (n parts : ℕ) : List (ℕ × ℕ) :=
  let parts := clampedParts n parts
  (List.range parts).map fun p => (mulU64 n p / parts, mulU64 n (addU64 p 1) / parts)

/-- `NumaVertexPartition`. -/
structure NumaVertexPartition where
  partitionId : ℕ := 0
  vertexBegin : ℕ := 0
  vertexEnd : ℕ := 0
  nodeId : Option ℕ := none
  localCpus : List ℕ := []
deriving DecidableEq, Repr

/-- The partition that `plan_numa_vertex_partitions` makes of range `i`. -/
def placeRange (info : NumaInfo) (mode : NumaMode) (i : ℕ) (range : ℕ × ℕ) : NumaVertexPartition :=
  let placement : NumaVertexPartition :=
    { partitionId := i, vertexBegin := range.1, vertexEnd := range.2 }
  if mode ≠ .off ∧ info.topology ≠ [] then
    let node := info.topology.getD (i % info.topology.length) default
    { placement with nodeId := some node.id, localCpus := node.cpus }
  else placement

/-- `plan_numa_vertex_partitions`. -/
def planNumaVertexPartitions (vertexCount : ℕ) (info : NumaInfo) (mode : NumaMode)
    (partitions : ℕ := 0) : List NumaVertexPartition :=
  let topologyNodes := if info.topology.isEmpty then 1 else info.topology.length
  let partitions := if partitions = 0 then topologyNodes else partitions
  (contiguousPartitions vertexCount partitions).mapIdx (placeRange info mode)

/-- `numa_node_for_vertex`. -/
def numaNodeForVertex (vertex : ℕ) : List NumaVertexPartition → Option ℕ
  | [] => none
  | partition :: rest =>
    if partition.vertexBegin ≤ vertex ∧ vertex < partition.vertexEnd then partition.nodeId
    else numaNodeForVertex vertex rest

section Ranges

variable {n parts : ℕ}

/-- There is a range, and every range can have a vertex. -/
theorem clampedParts_bounds (n parts : ℕ) :
    0 < clampedParts n parts ∧ clampedParts n parts ≤ max 1 n := by
  unfold clampedParts
  omega

/-- The ends of the ranges, computed without an upper limit. -/
def cutAt (n parts p : ℕ) : ℕ := n * p / parts

/-- No product leaves the 64 bits. -/
theorem product_lt (hn : n < 2 ^ 32) {p : ℕ} (hp : p ≤ clampedParts n parts) : n * p < 2 ^ 64 := by
  have hparts := (clampedParts_bounds n parts).2
  calc n * p ≤ (2 ^ 32 - 1) * 2 ^ 32 := Nat.mul_le_mul (by omega) (by omega)
    _ < 2 ^ 64 := by norm_num

/-- So the ranges are those of unlimited arithmetic. -/
theorem contiguousPartitions_eq (hn : n < 2 ^ 32) (parts : ℕ) :
    contiguousPartitions n parts = (List.range (clampedParts n parts)).map fun p =>
      (cutAt n (clampedParts n parts) p, cutAt n (clampedParts n parts) (p + 1)) := by
  have hparts := (clampedParts_bounds n parts).2
  refine List.map_congr_left fun p hp => ?_
  have hlt : p < clampedParts n parts := List.mem_range.mp hp
  have hnext : addU64 p 1 = p + 1 := Nat.mod_eq_of_lt (by omega)
  rw [hnext, mulU64, mulU64, Nat.mod_eq_of_lt (product_lt hn hlt.le),
    Nat.mod_eq_of_lt (product_lt hn hlt)]
  rfl

/-- The cuts are in order. -/
theorem monotone_cutAt (n parts : ℕ) : Monotone (cutAt n parts) := fun _ _ hle =>
  Nat.div_le_div_right (Nat.mul_le_mul_left n hle)

/-- Neighbouring cuts are as far apart as `n / parts` says, or one farther. -/
theorem cutAt_succ (n : ℕ) (hparts : 0 < parts) (p : ℕ) :
    cutAt n parts p + n / parts ≤ cutAt n parts (p + 1) ∧
      cutAt n parts (p + 1) ≤ cutAt n parts p + n / parts + 1 := by
  have hsum : cutAt n parts (p + 1) = (n * p + n) / parts := by rw [cutAt, Nat.mul_succ]
  rw [hsum, Nat.add_div hparts, cutAt]
  split <;> omega

/-- The ranges tile the vertices. -/
theorem tiles_contiguousPartitions (hn : n < 2 ^ 32) (parts : ℕ) :
    Tiles 0 (contiguousPartitions n parts) n := by
  have hparts := (clampedParts_bounds n parts).1
  have htiles := tiles_map_range (monotone_cutAt n (clampedParts n parts)) 0 (clampedParts n parts)
  have hlast : cutAt n (clampedParts n parts) (0 + clampedParts n parts) = n := by
    rw [Nat.zero_add, cutAt, Nat.mul_div_cancel n hparts]
  have hfirst : cutAt n (clampedParts n parts) 0 = 0 := by rw [cutAt, Nat.mul_zero, Nat.zero_div]
  rw [hfirst, hlast, ← List.range_eq_range'] at htiles
  rwa [contiguousPartitions_eq hn]

/-- A range has `n / parts` vertices, or one more. -/
theorem length_contiguousPartitions (hn : n < 2 ^ 32) {range : ℕ × ℕ}
    (hrange : range ∈ contiguousPartitions n parts) :
    n / clampedParts n parts ≤ range.2 - range.1 ∧
      range.2 - range.1 ≤ n / clampedParts n parts + 1 := by
  rw [contiguousPartitions_eq hn] at hrange
  obtain ⟨p, -, rfl⟩ := List.mem_map.mp hrange
  have hcuts := cutAt_succ n (clampedParts_bounds n parts).1 p
  dsimp only
  generalize n / clampedParts n parts = quotient at hcuts ⊢
  omega

/-- There are no more ranges than vertices, so that every range has one. -/
theorem one_le_div_clampedParts (hpos : 0 < n) : 1 ≤ n / clampedParts n parts := by
  have hparts := clampedParts_bounds n parts
  exact (Nat.one_le_div_iff hparts.1).mpr (by omega)

end Ranges

section Nodes

variable {info : NumaInfo} {mode : NumaMode} {vertex : ℕ} {plan : List NumaVertexPartition}

/-- The vertices of a partition. -/
def NumaVertexPartition.range (partition : NumaVertexPartition) : ℕ × ℕ :=
  (partition.vertexBegin, partition.vertexEnd)

/-- The partitions of a plan have the ranges of `contiguous_partitions`. -/
theorem range_planNumaVertexPartitions (n : ℕ) (info : NumaInfo) (mode : NumaMode)
    (partitions : ℕ) : ∃ parts, (planNumaVertexPartitions n info mode partitions).map
      NumaVertexPartition.range = contiguousPartitions n parts := by
  have hplace : ∀ i range, (placeRange info mode i range).range = range := by
    intro i range
    unfold placeRange
    dsimp only
    split <;> rfl
  refine ⟨if partitions = 0 then if info.topology.isEmpty then 1 else info.topology.length
    else partitions, ?_⟩
  unfold planNumaVertexPartitions
  dsimp only
  refine List.ext_getElem? fun i => ?_
  rw [List.getElem?_map, List.getElem?_mapIdx, Option.map_map]
  simp only [Function.comp_def, hplace, Option.map_id_fun']
  rfl

/-- A first partition that contains the vertex gives its node. -/
theorem numaNodeForVertex_of_head {head : NumaVertexPartition} (h : Inside head.range vertex) :
    numaNodeForVertex vertex (head :: plan) = head.nodeId := if_pos h

/-- A first partition that does not contain the vertex is passed over. -/
theorem numaNodeForVertex_skip {head : NumaVertexPartition} (h : ¬ Inside head.range vertex) :
    numaNodeForVertex vertex (head :: plan) = numaNodeForVertex vertex plan := if_neg h

/-- A vertex that no partition contains has no node. -/
theorem numaNodeForVertex_of_not_inside
    (hout : ∀ partition ∈ plan, ¬ Inside partition.range vertex) :
    numaNodeForVertex vertex plan = none := by
  induction plan with
  | nil => rfl
  | cons head rest ih =>
    rw [numaNodeForVertex_skip (hout head List.mem_cons_self)]
    exact ih fun partition hmem => hout partition (List.mem_cons_of_mem _ hmem)

/-- Among consecutive partitions one contains the vertex, and its node is found. -/
theorem numaNodeForVertex_of_inside
    (hplan : (plan.map NumaVertexPartition.range).Pairwise fun earlier later =>
      earlier.2 ≤ later.1)
    {partition : NumaVertexPartition} (hmem : partition ∈ plan)
    (hinside : Inside partition.range vertex) :
    numaNodeForVertex vertex plan = partition.nodeId ∧
      ∀ other ∈ plan, Inside other.range vertex → other = partition := by
  induction plan with
  | nil => exact absurd hmem List.not_mem_nil
  | cons head rest ih =>
    rw [List.map_cons, List.pairwise_cons] at hplan
    obtain ⟨hhead, hrest⟩ := hplan
    have hafter : ∀ other ∈ rest, Inside head.range vertex → ¬ Inside other.range vertex :=
      fun other hother hin hin' =>
        absurd ((hhead _ (List.mem_map_of_mem hother)).trans hin'.1) hin.2.not_ge
    rcases List.mem_cons.mp hmem with rfl | hlater
    · refine ⟨numaNodeForVertex_of_head hinside, fun other hother hin => ?_⟩
      rcases List.mem_cons.mp hother with rfl | hother
      · rfl
      · exact absurd hin (hafter other hother hinside)
    · have hskip : ¬ Inside head.range vertex := fun hin => hafter partition hlater hin hinside
      obtain ⟨hnode, hunique⟩ := ih hrest hlater
      refine ⟨(numaNodeForVertex_skip hskip).trans hnode, fun other hother hin => ?_⟩
      rcases List.mem_cons.mp hother with rfl | hother
      · exact absurd hin hskip
      · exact hunique other hother hin

end Nodes

/-- The ranges tile the vertices, none of them is empty where there is a vertex, their lengths differ
by at most one, and no product leaves the 64 bits; a vertex has the node of the one partition that
contains it, and an id beyond the vertices none. -/
theorem partitions_tile (n : ℕ) (hn : n < 2 ^ 32) :
    (∀ parts,
      Tiles 0 (contiguousPartitions n parts) n ∧
        (0 < n → ∀ range ∈ contiguousPartitions n parts, range.1 < range.2) ∧
        (∀ range ∈ contiguousPartitions n parts, ∀ other ∈ contiguousPartitions n parts,
          range.2 - range.1 ≤ other.2 - other.1 + 1) ∧
        ∀ p < (contiguousPartitions n parts).length, n * (p + 1) < 2 ^ 64) ∧
      ∀ (info : NumaInfo) (mode : NumaMode) (partitions vertex : ℕ),
        let plan := planNumaVertexPartitions n info mode partitions
        (vertex < n → ∃ partition ∈ plan, Inside partition.range vertex ∧
          (∀ other ∈ plan, Inside other.range vertex → other = partition) ∧
          numaNodeForVertex vertex plan = partition.nodeId) ∧
        (n ≤ vertex → (∀ partition ∈ plan, ¬ Inside partition.range vertex) ∧
          numaNodeForVertex vertex plan = none) := by
  refine ⟨fun parts => ⟨tiles_contiguousPartitions hn parts, fun hpos range hrange => ?_,
    fun range hrange other hother => ?_, fun p hp => ?_⟩, fun info mode partitions vertex => ?_⟩
  · have hlength := length_contiguousPartitions hn hrange
    have hone := @one_le_div_clampedParts n parts hpos
    omega
  · have hlength := length_contiguousPartitions hn hrange
    have hlength' := length_contiguousPartitions hn hother
    omega
  · rw [contiguousPartitions_eq hn, List.length_map, List.length_range] at hp
    exact product_lt hn hp
  · obtain ⟨parts, hranges⟩ := range_planNumaVertexPartitions n info mode partitions
    have htiles := tiles_contiguousPartitions hn parts
    rw [← hranges] at htiles
    refine ⟨fun hvertex => ?_, fun hvertex => ?_⟩
    · obtain ⟨range, hrange, hinside⟩ := htiles.exists_inside (Nat.zero_le vertex) hvertex
      obtain ⟨partition, hmem, rfl⟩ := List.mem_map.mp hrange
      obtain ⟨hnode, hunique⟩ := numaNodeForVertex_of_inside htiles.pairwise hmem hinside
      exact ⟨partition, hmem, hinside, hunique, hnode⟩
    · have hout : ∀ partition ∈ planNumaVertexPartitions n info mode partitions,
          ¬ Inside partition.range vertex := fun partition hmem =>
        htiles.not_inside (Or.inr hvertex) (List.mem_map_of_mem hmem)
      exact ⟨hout, numaNodeForVertex_of_not_inside hout⟩

/-- The case of a hundred vertices in three ranges. -/
theorem partitions_tile_three :
    Tiles 0 (contiguousPartitions 100 3) 100 ∧
      numaNodeForVertex 33 (planNumaVertexPartitions 100
        { topology := [⟨4, [0, 1]⟩, ⟨7, [2, 3]⟩] } .autoDetect 3) = some 7 ∧
      numaNodeForVertex 100 (planNumaVertexPartitions 100
        { topology := [⟨4, [0, 1]⟩, ⟨7, [2, 3]⟩] } .autoDetect 3) = none := by
  have h := partitions_tile 100 (by decide)
  refine ⟨(h.1 3).1, by decide, ?_⟩
  exact ((h.2 { topology := [⟨4, [0, 1]⟩, ⟨7, [2, 3]⟩] } .autoDetect 3 100).2 le_rfl).2

end VeloGraphX
