import Mathlib
import VeloGraphX.Access.ReadableGraph
import VeloGraphX.Lib.PointUpdate
import VeloGraphX.Lib.RandomWalk

/-!
# Rank vectors in exact arithmetic

A rank vector is read as a function on the vertices, the rows of a graph as finite sets. Loops that
add over the vertices are sums, and loops that add to the cells of a vector add to each cell what is
addressed to it.
-/

namespace VeloGraphX

open FuelLoop ArcSet ReadableGraph PointUpdate

section Sums

variable {α : Type} [DecidableEq α] {list : List α}

/-- A loop that adds where a test holds. -/
theorem foldl_add_if (hnodup : list.Nodup) (p : α → Prop) [DecidablePred p] (f : α → ℚ) (start : ℚ) :
    list.foldl (fun sum a => if p a then sum + f a else sum) start =
      start + ∑ a ∈ list.toFinset with p a, f a := by
  have hlist : ∀ (rest : List α) (start : ℚ),
      rest.foldl (fun sum a => if p a then sum + f a else sum) start =
        start + (rest.map fun a => if p a then f a else 0).sum := by
    intro rest
    induction rest with
    | nil => intro start; simp
    | cons a rest ih =>
      intro start
      rw [List.foldl_cons, ih, List.map_cons, List.sum_cons]
      by_cases ha : p a
      · rw [if_pos ha, if_pos ha, add_assoc]
      · rw [if_neg ha, if_neg ha, zero_add]
  rw [hlist, Finset.sum_filter, List.sum_toFinset _ hnodup]

end Sums

section Cells

variable {cells : List ℚ}

/-- Writes that add to the cells of distinct ids add to each cell what is addressed to it. -/
theorem getD_foldl_add {ids : List VertexId} (hnodup : ids.Nodup) (amount : VertexId → ℚ)
    {w : VertexId} (hw : w.val < cells.length) :
    (ids.foldl (fun cells v => cells.set v (cells.getD v 0 + amount v)) cells).getD w 0 =
      cells.getD w 0 + if w ∈ ids then amount w else 0 := by
  have hfold := getD_foldl_set (fun v : VertexId => v.val) (fun x v => x + amount v) 0 cells ids w.val hw
  have hfilter : (ids.filter fun v => decide (v.val = w.val)) = if w ∈ ids then [w] else [] := by
    simp only [Fin.val_inj]
    split
    · rename_i hmem
      rw [List.filter_eq w, List.count_eq_one_of_mem hnodup hmem, List.replicate_one]
    · rename_i hmem
      rw [List.filter_eq w, List.count_eq_zero_of_not_mem hmem, List.replicate_zero]
  rw [hfold, hfilter]
  split
  · rfl
  · rw [add_zero]
    rfl

/-- Such writes keep the size. -/
theorem length_foldl_add (ids : List VertexId) (amount : VertexId → ℚ) (cells : List ℚ) :
    (ids.foldl (fun cells v => cells.set v (cells.getD v 0 + amount v)) cells).length =
      cells.length :=
  length_foldl_set (fun v : VertexId => v.val) (fun cells v => cells.getD v 0 + amount v) cells ids

end Cells

section Walk

variable {G : Type} [ReadableGraph G] {g : G} {arcs : ArcSet}

/-- The vertices of a graph. -/
def vertexSet (g : G) : Finset VertexId := (idsBelow (vertexCount g)).toFinset

/-- The out-neighbours of a vertex. -/
def succOf (g : G) (u : VertexId) : Finset VertexId := (forEachNeighbor g u).toFinset

/-- The in-neighbours of a vertex. -/
def predOf (g : G) (v : VertexId) : Finset VertexId := (forEachInNeighbor g v).toFinset

/-- A rank vector as a function. -/
def rankOf (rank : List ℚ) (v : VertexId) : ℚ := rank.getD v 0

/-- Being a vertex. -/
theorem mem_vertexSet {v : VertexId} : v ∈ vertexSet g ↔ v.val < vertexCount g := by
  rw [vertexSet, List.mem_toFinset, mem_idsBelow]

/-- The number of vertices, where 32 bits can hold it. -/
theorem card_vertexSet (hn : vertexCount g ≤ 2 ^ 32) : (vertexSet g).card = vertexCount g := by
  rw [vertexSet, List.toFinset_card_of_nodup (nodup_idsBelow hn), idsBelow, List.length_map,
    List.length_range]

/-- The rows of a viewed graph are transposed. -/
theorem ReadableGraph.Views.transposed (h : Views g arcs) :
    RandomWalk.Transposed (vertexSet g) (succOf g) (predOf g) := by
  refine ⟨fun v hv u hu => ?_, fun u hu v hv => ?_, fun u hu v hv => ?_⟩
  · rw [predOf, List.mem_toFinset, h.mem_inNeighbor v (mem_vertexSet.mp hv)] at hu
    exact mem_vertexSet.mpr (h.within u v hu).1
  · rw [succOf, List.mem_toFinset, h.mem_neighbor u (mem_vertexSet.mp hu)] at hv
    exact mem_vertexSet.mpr (h.within u v hv).2
  · rw [predOf, List.mem_toFinset, h.mem_inNeighbor v (mem_vertexSet.mp hv), succOf,
      List.mem_toFinset, h.mem_neighbor u (mem_vertexSet.mp hu)]

/-- `neighbor_count` is the out-degree. -/
theorem ReadableGraph.Views.neighborCount_eq_card (h : Views g arcs) {u : VertexId}
    (hu : u.val < vertexCount g) : neighborCount g u = (succOf g u).card := by
  rw [neighborCount_eq, succOf, List.toFinset_card_of_nodup (h.nodup u hu)]

/-- A vertex dangles when its row is empty. -/
theorem ReadableGraph.Views.neighborCount_eq_zero_iff (h : Views g arcs) {u : VertexId}
    (hu : u.val < vertexCount g) : neighborCount g u = 0 ↔ succOf g u = ∅ := by
  rw [h.neighborCount_eq_card hu, Finset.card_eq_zero]

/-- The sum over the cells of a vector is the sum over the vertices. -/
theorem sum_rankOf {rank : List ℚ} (hn : vertexCount g ≤ 2 ^ 32) (hlength : rank.length = vertexCount g) :
    ∑ v ∈ vertexSet g, rankOf rank v = rank.sum := by
  rw [vertexSet, List.sum_toFinset _ (nodup_idsBelow hn), idsBelow, List.map_map, ← hlength]
  congr 1
  refine List.ext_getElem (by simp) fun i hi hi' => ?_
  have hmod : i % 2 ^ 32 = i := Nat.mod_eq_of_lt (hi'.trans_le (hlength.le.trans hn))
  rw [List.getElem_map, List.getElem_range, Function.comp_apply, rankOf]
  change rank.getD (i % 2 ^ 32) 0 = _
  rw [hmod, List.getD_eq_getElem _ _ hi']

/-- A loop along the in-row of a vertex that divides by the out-degrees gathers what arrives. -/
theorem ReadableGraph.Views.foldl_gather (h : Views g arcs) (degree : VertexId → ℕ)
    (hdegree : ∀ u : VertexId, u.val < vertexCount g → degree u = neighborCount g u)
    (rank : List ℚ) {v : VertexId} (hv : v.val < vertexCount g) :
    (forEachInNeighbor g v).foldl (fun incoming u =>
        if degree u ≠ 0 then incoming + rankOf rank u / (degree u : ℚ) else incoming) 0 =
      RandomWalk.incoming (succOf g) (predOf g) (rankOf rank) v := by
  have hpred : ∀ u ∈ predOf g v, degree u = (succOf g u).card ∧ degree u ≠ 0 := by
    intro u hu
    have harc : (u, v) ∈ arcs := (h.mem_inNeighbor v hv u).mp (List.mem_toFinset.mp hu)
    have hlt := (h.within u v harc).1
    have hcard : degree u = (succOf g u).card := (hdegree u hlt).trans (h.neighborCount_eq_card hlt)
    have hmem : v ∈ succOf g u := List.mem_toFinset.mpr ((h.mem_neighbor u hlt v).mpr harc)
    exact ⟨hcard, hcard ▸ (Finset.card_pos.mpr ⟨v, hmem⟩).ne'⟩
  rw [foldl_add_if (h.nodup_in v hv) (fun u => degree u ≠ 0), zero_add, RandomWalk.incoming]
  change ∑ u ∈ predOf g v with degree u ≠ 0, rankOf rank u / (degree u : ℚ) = _
  rw [Finset.filter_true_of_mem fun u hu => (hpred u hu).2]
  exact Finset.sum_congr rfl fun u hu => by rw [(hpred u hu).1]

end Walk

section Steps

variable {G : Type} [ReadableGraph G] {g : G} {arcs : ArcSet} {damping : ℚ} {rank next : List ℚ}

/-- The step of the random walk on a graph. -/
def walkStep (g : G) (damping : ℚ) (rank : List ℚ) (v : VertexId) : ℚ :=
  RandomWalk.step (vertexSet g) (succOf g) (predOf g) damping (rankOf rank) v

/-- The vector after a step. -/
def nextRank (g : G) (damping : ℚ) (rank : List ℚ) : List ℚ :=
  (idsBelow (vertexCount g)).map (walkStep g damping rank)

/-- The uniform distribution. -/
def uniform (g : G) : List ℚ := List.replicate (vertexCount g) (1 / (vertexCount g : ℚ))

/-- A probability distribution on the vertices. -/
structure Distribution (g : G) (rank : List ℚ) : Prop where
  length_eq : rank.length = vertexCount g
  nonneg : ∀ x ∈ rank, 0 ≤ x
  sum_eq : rank.sum = 1

/-- The cells of the vector after a step. -/
theorem rankOf_nextRank {v : VertexId} (hv : v.val < vertexCount g) :
    rankOf (nextRank g damping rank) v = walkStep g damping rank v := by
  have hlt : v.val < (nextRank g damping rank).length := by
    rw [nextRank, List.length_map, idsBelow, List.length_map, List.length_range]
    exact hv
  rw [rankOf, List.getD_eq_getElem _ _ hlt]
  simp only [nextRank, idsBelow, List.getElem_map, List.getElem_range]
  congr 1
  exact Fin.ext (Nat.mod_eq_of_lt v.isLt)

/-- A vector of the right length whose cells hold the step. -/
theorem eq_nextRank (hn : vertexCount g ≤ 2 ^ 32) (hlength : next.length = vertexCount g)
    (hcells : ∀ v : VertexId, v.val < vertexCount g → rankOf next v = walkStep g damping rank v) :
    next = nextRank g damping rank := by
  refine List.ext_getElem ?_ fun i hi hi' => ?_
  · rw [nextRank, List.length_map, idsBelow, List.length_map, List.length_range, hlength]
  · have hlt : i < 2 ^ 32 := (hi.trans_le hlength.le).trans_le hn
    have hcell := hcells ⟨i, hlt⟩ (hi.trans_le hlength.le)
    rw [← rankOf_nextRank (hi.trans_le hlength.le), rankOf, rankOf,
      List.getD_eq_getElem _ _ hi, List.getD_eq_getElem _ _ hi'] at hcell
    exact hcell

/-- The walk starts from a distribution. -/
theorem distribution_uniform (hne : vertexCount g ≠ 0) : Distribution g (uniform g) := by
  refine ⟨List.length_replicate, fun x hx => ?_, ?_⟩
  · rw [List.eq_of_mem_replicate hx]
    positivity
  · rw [uniform, List.sum_replicate, nsmul_eq_mul]
    exact mul_one_div_cancel (Nat.cast_ne_zero.mpr hne)

/-- A step leads from a distribution to one. -/
theorem ReadableGraph.Views.distribution_nextRank (h : Views g arcs) (hn : vertexCount g ≤ 2 ^ 32)
    (hne : vertexCount g ≠ 0) (hlow : 0 ≤ damping) (hhigh : damping ≤ 1)
    (hrank : Distribution g rank) : Distribution g (nextRank g damping rank) := by
  have hlength : (nextRank g damping rank).length = vertexCount g := by
    rw [nextRank, List.length_map, idsBelow, List.length_map, List.length_range]
  have hcell : ∀ u ∈ vertexSet g, 0 ≤ rankOf rank u := by
    intro u hu
    have hlt : u.val < rank.length := hrank.length_eq ▸ mem_vertexSet.mp hu
    rw [rankOf, List.getD_eq_getElem _ _ hlt]
    exact hrank.nonneg _ (List.getElem_mem hlt)
  refine ⟨hlength, fun x hx => ?_, ?_⟩
  · obtain ⟨v, hv, rfl⟩ := List.mem_map.mp hx
    exact RandomWalk.step_nonneg h.transposed hlow hhigh hcell (List.mem_toFinset.mpr hv)
  · have hnonempty : (vertexSet g).Nonempty :=
      Finset.card_pos.mp ((card_vertexSet hn).symm ▸ Nat.pos_of_ne_zero hne)
    rw [← sum_rankOf hn hlength]
    calc ∑ v ∈ vertexSet g, rankOf (nextRank g damping rank) v
        = ∑ v ∈ vertexSet g, walkStep g damping rank v :=
          Finset.sum_congr rfl fun v hv => rankOf_nextRank (mem_vertexSet.mp hv)
      _ = 1 := RandomWalk.sum_step h.transposed hnonempty ((sum_rankOf hn hrank.length_eq).trans
          hrank.sum_eq)

/-- So does every number of steps. -/
theorem ReadableGraph.Views.distribution_iterate (h : Views g arcs) (hn : vertexCount g ≤ 2 ^ 32)
    (hne : vertexCount g ≠ 0) (hlow : 0 ≤ damping) (hhigh : damping ≤ 1) (k : ℕ) :
    Distribution g ((nextRank g damping)^[k] (uniform g)) := by
  induction k with
  | zero => exact distribution_uniform hne
  | succ k ih =>
    rw [Function.iterate_succ_apply']
    exact h.distribution_nextRank hn hne hlow hhigh ih

/-- Without vertices there is only the empty vector. -/
theorem iterate_of_empty (hempty : vertexCount g = 0) (damping : ℚ) (k : ℕ) :
    (nextRank g damping)^[k] (uniform g) = [] := by
  have hnext : ∀ rank, nextRank g damping rank = [] := fun rank => by
    rw [nextRank, hempty]
    rfl
  cases k with
  | zero => rw [Function.iterate_zero, id_eq, uniform, hempty, List.replicate_zero]
  | succ k => rw [Function.iterate_succ_apply', hnext]

/-- The iterates are nonnegative vectors of the right length, and sum to one where there is a
vertex. -/
theorem ReadableGraph.Views.iterate_facts (h : Views g arcs) (hn : vertexCount g ≤ 2 ^ 32)
    (hlow : 0 ≤ damping) (hhigh : damping ≤ 1) (k : ℕ) :
    ((nextRank g damping)^[k] (uniform g)).length = vertexCount g ∧
      (∀ x ∈ (nextRank g damping)^[k] (uniform g), 0 ≤ x) ∧
      (vertexCount g ≠ 0 → ((nextRank g damping)^[k] (uniform g)).sum = 1) := by
  by_cases hempty : vertexCount g = 0
  · rw [iterate_of_empty hempty, hempty]
    exact ⟨rfl, fun x hx => absurd hx List.not_mem_nil, fun hne => absurd rfl hne⟩
  · have hdistribution := h.distribution_iterate hn hempty hlow hhigh k
    exact ⟨hdistribution.length_eq, hdistribution.nonneg, fun _ => hdistribution.sum_eq⟩

end Steps

end VeloGraphX
