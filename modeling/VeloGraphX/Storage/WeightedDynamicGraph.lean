import Mathlib
import VeloGraphX.Lib.PointUpdate
import VeloGraphX.Model.Weights

/-!
# The weighted dynamic graph

Every vertex keeps a sorted map from its neighbours to the weights. A batch is validated as
a whole before it changes anything; an accepted one acts as on the abstract weighted graph.
-/

namespace VeloGraphX

open PointUpdate LastWrite Weights
open ArcSet (writeOn growBy growAll)

/-- `kMaxFiniteWeightedDistance`. -/
def kMaxFiniteWeightedDistance : ℕ := (2 ^ 64 - 1) / 4 - 1

/-- The weighted graph: one map from neighbours to weights for each vertex. -/
structure WeightedDynamicGraph where
  directed : Bool := false
  adjacency : List (Std.TreeMap VertexId ℕ) := []
  version : ℕ := 0

namespace WeightedDynamicGraph

/-- The constructor. -/
def create (vertices : ℕ) (directed : Bool) : WeightedDynamicGraph :=
  { directed := directed, adjacency := List.replicate vertices ∅ }

variable (g : WeightedDynamicGraph)

/-- `vertex_count`. -/
def vertexCount : ℕ := g.adjacency.length

/-- `ensure_vertex`. -/
def ensureVertex (v : VertexId) : WeightedDynamicGraph :=
  let n := v.val + 1
  if n > g.adjacency.length then { g with adjacency := resize g.adjacency n ∅ } else g

/-- `apply_one`. -/
def applyOne (op : WeightedEdgeUpdate) : WeightedDynamicGraph :=
  let row := g.adjacency.getD op.src ∅
  if op.add then { g with adjacency := g.adjacency.set op.src (row.insert op.dst op.weight) }
  else { g with adjacency := g.adjacency.set op.src (row.erase op.dst) }

/-- One turn of the loop in `apply`. -/
def applyUpdate (op : WeightedEdgeUpdate) : WeightedDynamicGraph :=
  if op.src = op.dst then g
  else
    let g := (g.ensureVertex (max op.src op.dst)).applyOne op
    if g.directed then g
    else g.applyOne ⟨op.dst, op.src, op.weight, op.add, op.timestamp⟩

/-- The validation of one operation in `apply`. -/
def rejects (op : WeightedEdgeUpdate) : Bool :=
  op.src ≠ op.dst && op.add && kMaxFiniteWeightedDistance < op.weight

/-- `apply`: the outcome and the graph that is left behind. -/
def apply (batch : WeightedUpdateBatch) : Except Exception Unit × WeightedDynamicGraph :=
  if batch.updates.any rejects then
    (.error (.invalidArgument "edge weight exceeds the representable finite-distance domain"), g)
  else
    let g := batch.updates.foldl applyUpdate g
    (.ok (), if batch.empty then g else { g with version := addU64 g.version 1 })

/-- `weight`. -/
def weight (u v : VertexId) : Option ℕ :=
  if g.adjacency.length ≤ u then none else (g.adjacency.getD u ∅)[v]?

/-- `for_each_neighbor`: the calls of its callback. -/
def forEachNeighbor (u : VertexId) : List (VertexId × ℕ) :=
  if g.adjacency.length ≤ u then [] else (g.adjacency.getD u ∅).toList

variable {g}

/-- Rows beyond the vertices are empty, so `weight` is one lookup. -/
theorem weight_eq (g : WeightedDynamicGraph) (u v : VertexId) :
    g.weight u v = (g.adjacency.getD u ∅)[v]? := by
  unfold weight
  split
  · rename_i hout
    rw [List.getD_eq_default _ _ hout, Std.TreeMap.getElem?_emptyc]
  · rfl

/-- The enumeration of a row lists its weights. -/
theorem mem_forEachNeighbor (g : WeightedDynamicGraph) (u v : VertexId) (w : ℕ) :
    (v, w) ∈ g.forEachNeighbor u ↔ g.weight u v = some w := by
  unfold forEachNeighbor weight
  split
  · simp
  · rw [Std.TreeMap.mem_toList_iff_getElem?_eq_some]

/-- A new vertex has no arcs. -/
theorem weight_ensureVertex (g : WeightedDynamicGraph) (x u v : VertexId) :
    (g.ensureVertex x).weight u v = g.weight u v := by
  rw [weight_eq, weight_eq]
  unfold ensureVertex
  dsimp only
  split
  · rename_i hgrow
    rw [getD_resize hgrow.le]
    split
    · rfl
    · rw [List.getD_eq_default _ _ (by omega)]
      split <;> rfl
  · rfl

/-- The vertices up to the given one exist afterwards. -/
theorem vertexCount_ensureVertex (g : WeightedDynamicGraph) (x : VertexId) :
    (g.ensureVertex x).vertexCount = max g.vertexCount (x.val + 1) := by
  unfold ensureVertex vertexCount
  dsimp only
  split
  · rw [length_resize]
    omega
  · omega

/-- Making vertices leaves the kind of graph alone. -/
@[simp] theorem directed_ensureVertex (g : WeightedDynamicGraph) (x : VertexId) :
    (g.ensureVertex x).directed = g.directed := by
  unfold ensureVertex
  dsimp only
  split <;> rfl

/-- Writing one arc leaves the kind of graph alone. -/
@[simp] theorem directed_applyOne (g : WeightedDynamicGraph) (op : WeightedEdgeUpdate) :
    (g.applyOne op).directed = g.directed := by
  unfold applyOne
  split <;> rfl

/-- Writing one arc makes no vertex. -/
@[simp] theorem vertexCount_applyOne (g : WeightedDynamicGraph) (op : WeightedEdgeUpdate) :
    (g.applyOne op).vertexCount = g.vertexCount := by
  unfold applyOne vertexCount
  split <;> exact List.length_set

/-- Writing one arc changes its weight and no other. -/
theorem weight_applyOne {op : WeightedEdgeUpdate} (hsrc : op.src.val < g.vertexCount)
    (u v : VertexId) : (g.applyOne op).weight u v =
      if u = op.src ∧ v = op.dst then (if op.add then some op.weight else none)
      else g.weight u v := by
  rw [weight_eq, weight_eq]
  have hcell : ∀ row : Std.TreeMap VertexId ℕ,
      (g.adjacency.set op.src row).getD u ∅ = if u = op.src then row else g.adjacency.getD u ∅ := by
    intro row
    rw [getD_set hsrc]
    simp only [Fin.ext_iff]
  unfold applyOne
  dsimp only
  have hkey : (compare op.dst v = .eq) = (v = op.dst) :=
    propext (Std.LawfulEqCmp.compare_eq_iff_eq.trans eq_comm)
  cases op.add with
  | true =>
    simp only [if_true, hcell]
    by_cases hu : u = op.src
    · subst hu
      simp only [if_true, true_and, Std.TreeMap.getElem?_insert, hkey]
    · simp only [hu, if_false, false_and]
  | false =>
    simp only [Bool.false_eq_true, if_false, hcell]
    by_cases hu : u = op.src
    · subst hu
      simp only [if_true, true_and, Std.TreeMap.getElem?_erase, hkey]
    · simp only [hu, if_false, false_and]

/-- One operation acts as on the abstract weighted graph. -/
theorem applyUpdate_spec (g : WeightedDynamicGraph) (op : WeightedEdgeUpdate) :
    (g.applyUpdate op).weight = applyOp g.directed g.weight op ∧
      (g.applyUpdate op).vertexCount = growBy g.vertexCount op.edge ∧
      (g.applyUpdate op).directed = g.directed := by
  unfold applyUpdate
  by_cases hloop : op.src = op.dst
  · have hnone : ∀ u v, weightOn g.directed u v op = none := fun u v =>
      weightOn_of_not_addressed fun h => h.1 hloop
    rw [if_pos hloop]
    refine ⟨?_, (if_pos hloop).symm, rfl⟩
    funext u v
    rw [applyOp, hnone, Option.getD_none]
  · rw [if_neg hloop]
    dsimp only
    have hcount := vertexCount_ensureVertex g (max op.src op.dst)
    have hmax : (max op.src op.dst).val = max op.src.val op.dst.val := by
      rcases le_total op.src op.dst with hle | hle
      · rw [max_eq_right hle, max_eq_right (Fin.le_def.mp hle)]
      · rw [max_eq_left hle, max_eq_left (Fin.le_def.mp hle)]
    have hgrow : growBy g.vertexCount op.edge =
        max g.vertexCount (max op.src.val op.dst.val + 1) := if_neg hloop
    rw [hmax, ← hgrow] at hcount
    have hsrc : op.src.val < (g.ensureVertex (max op.src op.dst)).vertexCount := by omega
    have hdst : op.dst.val < (g.ensureVertex (max op.src op.dst)).vertexCount := by omega
    rw [directed_applyOne, directed_ensureVertex]
    cases hdirected : g.directed with
    | true =>
      rw [if_pos rfl]
      refine ⟨?_, by rw [vertexCount_applyOne, hcount], by simp [hdirected]⟩
      funext u v
      rw [weight_applyOne hsrc, weight_ensureVertex, applyOp]
      by_cases harc : u = op.src ∧ v = op.dst
      · rw [if_pos harc, weightOn_of_addressed hloop (Or.inl ⟨harc.1.symm, harc.2.symm⟩),
          Option.getD_some]
      · rw [if_neg harc, weightOn_of_not_addressed, Option.getD_none]
        rintro ⟨-, ⟨hu, hv⟩ | ⟨hfalse, -⟩⟩
        · exact harc ⟨hu.symm, hv.symm⟩
        · exact Bool.noConfusion hfalse
    | false =>
      rw [if_neg (by decide)]
      refine ⟨?_, by rw [vertexCount_applyOne, vertexCount_applyOne, hcount], by simp [hdirected]⟩
      funext u v
      rw [weight_applyOne (by rwa [vertexCount_applyOne]), weight_applyOne hsrc,
        weight_ensureVertex, applyOp]
      dsimp only
      by_cases hback : u = op.dst ∧ v = op.src
      · rw [if_pos hback,
          weightOn_of_addressed hloop (Or.inr ⟨rfl, hback.1.symm, hback.2.symm⟩), Option.getD_some]
      · rw [if_neg hback]
        by_cases hforth : u = op.src ∧ v = op.dst
        · rw [if_pos hforth,
            weightOn_of_addressed hloop (Or.inl ⟨hforth.1.symm, hforth.2.symm⟩), Option.getD_some]
        · rw [if_neg hforth, weightOn_of_not_addressed, Option.getD_none]
          rintro ⟨-, ⟨hu, hv⟩ | ⟨-, hu, hv⟩⟩
          · exact hforth ⟨hu.symm, hv.symm⟩
          · exact hback ⟨hu.symm, hv.symm⟩

/-- The stored weights are those of a weighted graph with representable weights. -/
structure Refines (g : WeightedDynamicGraph) (weights : Weights) : Prop where
  weight_eq : g.weight = weights
  simple : Simple g.directed g.vertexCount weights
  bounded : ∀ u w v, weights.arc u w v → w ≤ kMaxFiniteWeightedDistance

/-- The constructor makes a graph without arcs. -/
theorem refines_create (vertices : ℕ) (directed : Bool) :
    Refines (create vertices directed) fun _ _ => none := by
  refine ⟨?_, simple_none _ _, fun u w v harc => absurd harc (by simp [arc])⟩
  funext u v
  have hcell : (List.replicate vertices (∅ : Std.TreeMap VertexId ℕ)).getD u ∅ = ∅ := by
    rw [List.getD_eq_getElem?_getD, List.getElem?_replicate]
    split <;> rfl
  rw [WeightedDynamicGraph.weight_eq, create, hcell, Std.TreeMap.getElem?_emptyc]

/-- Making vertices keeps the weights. -/
theorem Refines.ensureVertex {weights : Weights} (h : Refines g weights) (x : VertexId) :
    Refines (g.ensureVertex x) weights := by
  refine ⟨?_, ?_, h.bounded⟩
  · rw [← h.weight_eq]
    exact funext fun u => funext fun v => weight_ensureVertex g x u v
  · rw [directed_ensureVertex, vertexCount_ensureVertex]
    exact h.simple.mono (le_max_left _ _)

/-- One accepted operation keeps the refinement. -/
theorem Refines.applyUpdate {weights : Weights} (h : Refines g weights)
    {op : WeightedEdgeUpdate} (haccept : rejects op = false) :
    Refines (g.applyUpdate op) (applyOp g.directed weights op) := by
  obtain ⟨hweight, hcount, hdirected⟩ := applyUpdate_spec g op
  refine ⟨hweight.trans (by rw [h.weight_eq]), ?_, fun u w v harc => ?_⟩
  · rw [hcount, hdirected]
    exact h.simple.applyOp op
  · unfold arc applyOp at harc
    cases hop : weightOn g.directed u v op with
    | none =>
      rw [hop, Option.getD_none] at harc
      exact h.bounded u w v harc
    | some x =>
      obtain ⟨hwrite, hx⟩ := weightOn_eq_some hop
      rw [hop, Option.getD_some, hx] at harc
      have hne : op.src ≠ op.dst := fun heq => by
        unfold writeOn at hwrite
        rw [if_neg fun hand => hand.1 heq] at hwrite
        exact absurd hwrite (by simp)
      split at harc
      · rename_i hadd
        rw [rejects, hadd] at haccept
        simp only [Bool.and_true, Bool.and_eq_false_iff, decide_eq_false_iff_not, not_not,
          not_lt, hne, false_or] at haccept
        exact (Option.some.inj harc) ▸ haccept
      · exact absurd harc (by simp)

/-- The loop over a batch acts on the weights and the vertices of any graph as its operations do. -/
theorem foldl_applyUpdate_spec (g : WeightedDynamicGraph) (updates : List WeightedEdgeUpdate) :
    (updates.foldl WeightedDynamicGraph.applyUpdate g).weight =
        applyAll g.directed g.weight updates ∧
      (updates.foldl WeightedDynamicGraph.applyUpdate g).vertexCount =
        growAll g.vertexCount (updates.map (·.edge)) ∧
      (updates.foldl WeightedDynamicGraph.applyUpdate g).directed = g.directed := by
  induction updates generalizing g with
  | nil => exact ⟨rfl, rfl, rfl⟩
  | cons op rest ih =>
    obtain ⟨hweight, hcount, hdirected⟩ := applyUpdate_spec g op
    obtain ⟨hweight', hcount', hdirected'⟩ := ih (g.applyUpdate op)
    rw [hdirected, hweight, ← applyAll_cons] at hweight'
    rw [hcount] at hcount'
    exact ⟨hweight', hcount', hdirected'.trans hdirected⟩

/-- What an accepted batch does to any graph. -/
theorem apply_spec (g : WeightedDynamicGraph) {batch : WeightedUpdateBatch}
    (haccept : batch.updates.any rejects = false) :
    (g.apply batch).1 = .ok () ∧
      (g.apply batch).2.weight = applyAll g.directed g.weight batch.updates ∧
      (g.apply batch).2.vertexCount = growAll g.vertexCount (batch.updates.map (·.edge)) ∧
      (g.apply batch).2.directed = g.directed := by
  unfold WeightedDynamicGraph.apply
  rw [if_neg (by rw [haccept]; decide)]
  refine ⟨rfl, ?_⟩
  dsimp only
  split <;> exact foldl_applyUpdate_spec g batch.updates

/-- An accepted batch acts as on the abstract weighted graph. -/
theorem Refines.apply {weights : Weights} (h : Refines g weights) {batch : WeightedUpdateBatch}
    (haccept : batch.updates.any rejects = false) :
    (g.apply batch).1 = .ok () ∧
      Refines (g.apply batch).2 (applyAll g.directed weights batch.updates) ∧
      (g.apply batch).2.vertexCount = growAll g.vertexCount (batch.updates.map (·.edge)) ∧
      (g.apply batch).2.directed = g.directed := by
  have hfold : ∀ (updates : List WeightedEdgeUpdate) (g : WeightedDynamicGraph) (weights : Weights),
      Refines g weights → updates.any rejects = false →
      Refines (updates.foldl WeightedDynamicGraph.applyUpdate g)
        (applyAll g.directed weights updates) := by
    intro updates
    induction updates with
    | nil => exact fun g weights h _ => h
    | cons op rest ih =>
      intro g weights h haccept
      rw [List.any_cons, Bool.or_eq_false_iff] at haccept
      obtain ⟨-, -, hdirected⟩ := applyUpdate_spec g op
      have hrest := ih _ _ (h.applyUpdate haccept.1) haccept.2
      rwa [hdirected, ← applyAll_cons] at hrest
  obtain ⟨houtcome, -, hcount, hdirected⟩ := g.apply_spec haccept
  refine ⟨houtcome, ?_, hcount, hdirected⟩
  have hrefines := hfold batch.updates g weights h haccept
  unfold WeightedDynamicGraph.apply
  rw [if_neg (by rw [haccept]; decide)]
  dsimp only
  split
  · exact hrefines
  · exact ⟨hrefines.weight_eq, hrefines.simple, hrefines.bounded⟩

/-- A rejected batch leaves the graph as it is. -/
theorem apply_of_rejects (g : WeightedDynamicGraph) {batch : WeightedUpdateBatch}
    (hreject : batch.updates.any rejects = true) :
    g.apply batch = (.error (.invalidArgument
      "edge weight exceeds the representable finite-distance domain"), g) := if_pos hreject

end WeightedDynamicGraph

end VeloGraphX
