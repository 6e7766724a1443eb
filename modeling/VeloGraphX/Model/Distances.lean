import Mathlib
import VeloGraphX.Model.ArcSet
import VeloGraphX.Lib.PointUpdate
import VeloGraphX.Lib.ShortestPath

/-!
# Distances of a graph and distance arrays

The walks of an unweighted graph are the walks over its arcs with weight one, from the source
if it is a vertex. A distance array is read as a labelling of all ids: ids beyond its end
carry the value that stands for infinity.
-/

namespace VeloGraphX

open ArcSet PointUpdate ShortestPath

/-- The arcs of an unweighted graph, each of weight one. -/
def unitArc (arcs : ArcSet) (u : VertexId) (w : ℕ) (v : VertexId) : Prop :=
  w = 1 ∧ (u, v) ∈ arcs

/-- The source, if it is a vertex. -/
def startAt (source : VertexId) (n : ℕ) : Set VertexId := {v | v = source ∧ v.val < n}

/-- A source that is a vertex stays the source when the graph grows. -/
theorem startAt_eq {source : VertexId} {n m : ℕ} (hn : source.val < n) (hle : n ≤ m) :
    startAt source m = startAt source n := by
  refine Set.ext fun v => ⟨fun hv => ⟨hv.1, hv.1 ▸ hn⟩, fun hv => ⟨hv.1, hv.2.trans_le hle⟩⟩

/-- A distance array as a labelling. -/
def label (cap : ℕ) (dist : List ℕ) (v : VertexId) : ℕ := dist.getD v.val cap

variable {cap : ℕ} {dist : List ℕ} {v : VertexId}

/-- Ids beyond the end carry the cap. -/
theorem label_of_le (h : dist.length ≤ v.val) : label cap dist v = cap :=
  List.getD_eq_default _ _ h

/-- Inside the array every default reads the same cell. -/
theorem label_eq_getD (cap : ℕ) (h : v.val < dist.length) (a : ℕ) :
    label cap dist v = dist.getD v.val a := by
  rw [label, List.getD_eq_getElem _ _ h, List.getD_eq_getElem _ _ h]

/-- Writing a cell updates the labelling at one vertex. -/
theorem label_set (cap : ℕ) (h : v.val < dist.length) (a : ℕ) :
    label cap (dist.set v.val a) = Function.update (label cap dist) v a :=
  getD_set_update h a fun _ => cap

/-- Arrays of vertices with the same labels are the same. -/
theorem eq_of_label_eq {dist' : List ℕ} (hlength : dist.length = dist'.length)
    (hcount : dist.length ≤ 2 ^ 32) (h : label cap dist = label cap dist') : dist = dist' := by
  refine List.ext_getElem hlength fun i hi hi' => ?_
  have heq := congrFun h ⟨i, hi.trans_le hcount⟩
  rwa [label, label, List.getD_eq_getElem _ _ hi, List.getD_eq_getElem _ _ hi'] at heq

/-- An array of infinities. -/
theorem label_replicate (cap n : ℕ) : label cap (List.replicate n cap) = fun _ => cap := by
  funext x
  rw [label, List.getD_eq_getElem?_getD, List.getElem?_replicate]
  split <;> rfl

/-- Growing an array by infinities changes no label. -/
theorem label_resize {n : ℕ} (h : dist.length ≤ n) :
    label cap (resize dist n cap) = label cap dist := by
  funext x
  rw [label, getD_resize h]
  split
  · rfl
  · rw [label_of_le (by omega)]
    split <;> rfl

/-- A distance array that is grown when the graph has outgrown it. -/
theorem grown_spec {n : ℕ} (h : dist.length ≤ n) :
    (if dist.length < n then resize dist n cap else dist).length = n ∧
      label cap (if dist.length < n then resize dist n cap else dist) = label cap dist := by
  split
  · exact ⟨length_resize _ _ _, label_resize h⟩
  · exact ⟨by omega, rfl⟩

/-- Labels from walks of a graph lie inside the graph. -/
theorem walk_within {arc : VertexId → ℕ → VertexId → Prop} {source : VertexId} {n : ℕ}
    (harc : ∀ u w v, arc u w v → v.val < n) {c : ℕ}
    (h : Walk (startAt source n) arc v c) : v.val < n := by
  cases h with
  | nil hv => exact hv.2
  | snoc _ hlast => exact harc _ _ _ hlast

/-- A source that is a vertex is the only start. -/
theorem startAt_eq_singleton {source : VertexId} {n : ℕ} (h : source.val < n) :
    startAt source n = {source} :=
  Set.ext fun _ => ⟨fun hv => hv.1, fun hv => ⟨hv, hv ▸ h⟩⟩

section Unit

variable {arcs : ArcSet} {source : VertexId} {n : ℕ}

/-- Walks of a graph end at its vertices. -/
theorem ends_within (hwithin : Within n arcs) (v : VertexId) (c : ℕ)
    (hwalk : Walk (startAt source n) (unitArc arcs) v c) :
    v ∈ Finset.univ.filter fun v : VertexId => v.val < n := by
  have hlt : v.val < n := walk_within (fun u w v harc => (hwithin u v harc.2).2) hwalk
  simpa using hlt

/-- A shortest path is shorter than the number of vertices. -/
theorem lt_count_of_isLeast (hwithin : Within n arcs) {c : ℕ}
    (hc : IsLeast {c | Walk (startAt source n) (unitArc arcs) v c} c) : c < n := by
  have hlt := lt_card_of_isLeast (fun u w v harc => harc.1) (ends_within hwithin) hc
  exact hlt.trans_le (card_vertices_le n)

/-- The distance of a vertex that is reached is smaller than the number of vertices. -/
theorem lt_count_of_walk (hwithin : Within n arcs) {d : VertexId → ℕ}
    (h : Exact (startAt source n) (unitArc arcs) cap d) {c : ℕ}
    (hwalk : Walk (startAt source n) (unitArc arcs) v c) : d v < n := by
  have hlt := h.lt_card (fun u w v harc => harc.1) (ends_within hwithin) hwalk
  exact hlt.trans_le (card_vertices_le n)

/-- The walks of a graph with a single arc that starts at the source. -/
theorem walk_single_iff {target : VertexId} (hne : source ≠ target) {c : ℕ} :
    Walk {source} (unitArc {(source, target)}) v c ↔
      v = source ∧ c = 0 ∨ v = target ∧ c = 1 := by
  constructor
  · intro hwalk
    induction hwalk with
    | nil hv => exact Or.inl ⟨hv, rfl⟩
    | snoc _ harc ih =>
      obtain ⟨rfl, hmem⟩ := harc
      obtain ⟨rfl, rfl⟩ := Prod.mk.inj hmem
      -- a walk that has left the source cannot go on
      rcases ih with ⟨-, rfl⟩ | ⟨heq, -⟩
      · exact Or.inr ⟨rfl, rfl⟩
      · exact absurd heq hne
  · have harc : unitArc {(source, target)} source 1 target := ⟨rfl, rfl⟩
    rintro (⟨rfl, rfl⟩ | ⟨rfl, rfl⟩)
    · exact .nil (Set.mem_singleton v)
    · exact .snoc (.nil (Set.mem_singleton source)) harc

end Unit

end VeloGraphX
