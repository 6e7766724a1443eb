import Mathlib
import VeloGraphX.Access.GraphAccess
import VeloGraphX.Incremental.Dijkstra

/-!
# Incremental shortest paths with unit weights

A batch with a removal is answered by recomputation; a batch of insertions relaxes the
inserted arcs and propagates what they lower. Either way the distances after a batch are
the exact ones of the graph after the batch.
-/

namespace VeloGraphX

open PointUpdate ShortestPath ArcSet GraphAccess

/-- `BasicIncrementalSSSP`: the graph, the source and the distances. -/
structure IncrementalSSSP (G : Type) where
  graph : G
  source : VertexId
  dist : List ℕ

/-- The enumeration that every call of the Dijkstra routines gets: weight one for each
neighbour. -/
def unitArcs {G : Type} [GraphAccess G] (g : G) (u : VertexId) : List (VertexId × ℕ) :=
  (forEachNeighbor g u).map fun v => (v, 1)

/-- Lower the distance of `v` over an inserted arc from `u`, and queue it. -/
def relaxUnit (state : List ℕ × List Item) (arc : VertexId × VertexId) : List ℕ × List Item :=
  let (dist, queue) := state
  let (u, v) := arc
  if dist.getD u 0 ≠ kDijkstraInf ∧ addU64 (dist.getD u 0) 1 < dist.getD v 0 then
    (dist.set v (addU64 (dist.getD u 0) 1), toLex (addU64 (dist.getD u 0) 1, v) :: queue)
  else state

namespace IncrementalSSSP

variable {G : Type} [GraphAccess G] (engine : IncrementalSSSP G)

/-- `recompute`. -/
def recompute : IncrementalSSSP G :=
  { engine with
    dist := recomputeDijkstra (vertexCount engine.graph) engine.source (unitArcs engine.graph) }

/-- The constructor. -/
def create (g : G) (source : VertexId) : IncrementalSSSP G := recompute ⟨g, source, []⟩

/-- One turn of the loop over the batch in `relax_from_updates`. -/
def relaxUpdate (directed : Bool) (state : List ℕ × List Item) (op : EdgeUpdate) :
    List ℕ × List Item :=
  if !op.add || state.1.length ≤ op.src || state.1.length ≤ op.dst then state
  else
    let state := relaxUnit state (op.src, op.dst)
    if directed then state else relaxUnit state (op.dst, op.src)

/-- `relax_from_updates`. -/
def relaxFromUpdates (batch : UpdateBatch) : IncrementalSSSP G :=
  let n := vertexCount engine.graph
  let dist := if engine.dist.length < n then resize engine.dist n kDijkstraInf else engine.dist
  let state := batch.updates.foldl (relaxUpdate (isDirected engine.graph)) (dist, [])
  { engine with dist := propagateDijkstra (unitArcs engine.graph) state.1 state.2 }

/-- `apply`. -/
def apply (batch : UpdateBatch) : IncrementalSSSP G :=
  let deletion := batch.updates.any fun op => !op.add
  let engine := { engine with graph := applyUpdates engine.graph batch }
  if deletion then engine.recompute else engine.relaxFromUpdates batch

end IncrementalSSSP

/-- The unit-weight enumeration of a served graph lists its arcs. -/
theorem GraphAccess.Serves.enumerates {G : Type} [GraphAccess G] {g : G} {arcs : ArcSet}
    (h : Serves g arcs) : Enumerates (unitArcs g) (unitArc arcs) := by
  refine ⟨fun u w v => ?_, fun u w w' v hw hw' => hw.1.trans hw'.1.symm⟩
  simp only [unitArcs, List.mem_map, Prod.mk.injEq, unitArc]
  refine ⟨fun ⟨x, hx, hxv, hw⟩ => ⟨hw.symm, (h.mem_neighbor u v).mp (hxv ▸ hx)⟩, fun ⟨hw, hmem⟩ => ?_⟩
  exact ⟨v, (h.mem_neighbor u v).mpr hmem, rfl, hw.symm⟩

/-- Targets of arcs are vertices. -/
theorem unitArc_target {directed : Bool} {n : ℕ} {arcs : ArcSet} (h : Simple directed n arcs)
    (u : VertexId) (w : ℕ) (v : VertexId) (harc : unitArc arcs u w v) : v.val < n :=
  (h.within u v harc.2).2

/-- Lowering a distance over an inserted arc is relaxing the arc with weight one. -/
theorem relaxUnit_eq {n : ℕ} {u v : VertexId} {state : List ℕ × List Item} (hu : u.val < n)
    (hv : v.val < n) (h : Sized n state) : relaxUnit state (u, v) = relaxOffered state (u, 1, v) := by
  obtain ⟨dist, queue⟩ := state
  have hlen : dist.length = n := h.length_eq
  have hinf : kDijkstraInf + 1 < 2 ^ 64 := by decide
  have hsource : dist.getD u 0 = labels (dist, queue) u :=
    (label_eq_getD kDijkstraInf (hlen ▸ hu) 0).symm
  have hle := h.le_inf u
  have hsub : subU64 kDijkstraInf (labels (dist, queue) u) = kDijkstraInf - labels (dist, queue) u := by
    unfold subU64
    omega
  unfold relaxUnit relaxOffered relaxArc
  dsimp only
  rw [hsource, hsub]
  by_cases hfinite : labels (dist, queue) u = kDijkstraInf
  · rw [if_neg fun hlt => hlt.1 hfinite, if_pos (by simp [hfinite])]
  · have hskip : ¬ (decide (dist.length ≤ v.val) ||
        decide (kDijkstraInf - labels (dist, queue) u < 1)) = true := by
      simp only [Bool.or_eq_true, decide_eq_true_eq]
      omega
    rw [if_neg hskip]
    exact if_congr (and_iff_right hfinite) rfl rfl

/-- The arcs that one operation of a batch offers for relaxation. -/
def offeredArcs (directed : Bool) (n : ℕ) (op : EdgeUpdate) : List (VertexId × ℕ × VertexId) :=
  if !op.add || n ≤ op.src || n ≤ op.dst || op.src = op.dst then []
  else if directed then [(op.src, 1, op.dst)] else [(op.src, 1, op.dst), (op.dst, 1, op.src)]

/-- Offered arcs are the arcs that insertions between existing vertices write. -/
theorem mem_offeredArcs {directed : Bool} {n : ℕ} {op : EdgeUpdate} {u v : VertexId} {w : ℕ} :
    (u, w, v) ∈ offeredArcs directed n op ↔
      w = 1 ∧ u.val < n ∧ v.val < n ∧ writeOn directed u v op = some true := by
  unfold offeredArcs writeOn
  by_cases hoffer : op.add = true ∧ op.src.val < n ∧ op.dst.val < n ∧ op.src ≠ op.dst
  · obtain ⟨hadd, hsrc, hdst, hne⟩ := hoffer
    rw [if_neg (by simp [hadd, hsrc, hdst, hne])]
    cases directed <;> simp only [if_true, if_false, Bool.false_eq_true, List.mem_cons,
      List.not_mem_nil, or_false, Prod.mk.injEq, hadd] <;> grind
  · rw [if_pos (by simp only [Bool.or_eq_true, decide_eq_true_eq, Bool.not_eq_true']; grind)]
    grind

/-- Relaxing a self-loop changes nothing. -/
theorem relaxOffered_self {n : ℕ} {state : List ℕ × List Item} (h : Sized n state) {u : VertexId}
    (hu : u.val < n) : relaxOffered state (u, 1, u) = state := by
  obtain ⟨dist, queue⟩ := state
  have hlen : dist.length = n := h.length_eq
  have hsource : dist.getD u 0 = labels (dist, queue) u :=
    (label_eq_getD kDijkstraInf (hlen ▸ hu) 0).symm
  have hle := h.le_inf u
  have hinf : kDijkstraInf + 1 < 2 ^ 64 := by decide
  unfold relaxOffered relaxArc
  dsimp only
  split
  · rfl
  · rw [hsource, if_neg]
    have hadd : addU64 (labels (dist, queue) u) 1 = labels (dist, queue) u + 1 :=
      Nat.mod_eq_of_lt (by omega)
    omega

/-- Relaxing from one operation relaxes the offered arcs. -/
theorem relaxUpdate_eq {directed : Bool} {n : ℕ} {state : List ℕ × List Item}
    (h : Sized n state) (op : EdgeUpdate) :
    IncrementalSSSP.relaxUpdate directed state op =
      (offeredArcs directed n op).foldl relaxOffered state := by
  unfold IncrementalSSSP.relaxUpdate offeredArcs
  rw [h.length_eq]
  by_cases hskip : (!op.add || decide (n ≤ op.src.val) || decide (n ≤ op.dst.val)) = true
  · rw [if_pos hskip, if_pos (by rw [hskip]; rfl)]
    rfl
  · rw [if_neg hskip]
    simp only [Bool.or_eq_true, decide_eq_true_eq, not_or, not_le] at hskip
    obtain ⟨⟨hadd, hsrc⟩, hdst⟩ := hskip
    have hfirst := h.relaxOffered (a := (op.src, 1, op.dst)) hdst
    dsimp only
    rw [relaxUnit_eq hsrc hdst h, relaxUnit_eq hdst hsrc hfirst.1]
    by_cases hloop : op.src = op.dst
    · have hguard : (!op.add || decide (n ≤ op.src.val) || decide (n ≤ op.dst.val) ||
          decide (op.src = op.dst)) = true := by simp [hloop]
      rw [hguard, if_pos rfl, hloop, relaxOffered_self h hdst, relaxOffered_self h hdst]
      exact ite_self _
    · have hguard : (!op.add || decide (n ≤ op.src.val) || decide (n ≤ op.dst.val) ||
          decide (op.src = op.dst)) = false := by simpa [hsrc, hdst, hloop] using hadd
      rw [hguard]
      cases directed <;> rfl

namespace IncrementalSSSP

variable {G : Type} [GraphAccess G]

/-- Inserting arcs: if every unrelaxed arc is written by some insertion of the batch, the
distances are exact after relaxing from it. -/
theorem relaxFromUpdates_spec {engine : IncrementalSSSP G} {arcs : ArcSet}
    (hserves : Serves engine.graph arcs) {batch : UpdateBatch}
    (hlen : engine.dist.length ≤ vertexCount engine.graph) {start : Set VertexId}
    (hjust : Justified start (unitArc arcs) kDijkstraInf (label kDijkstraInf engine.dist))
    (hwritten : ∀ u v, ∀ op ∈ batch.updates,
      writeOn (isDirected engine.graph) u v op = some true → (u, v) ∈ arcs)
    (hrel : Relaxed (unitArc arcs) (fun u v => ∃ op ∈ batch.updates,
      writeOn (isDirected engine.graph) u v op = some true) (label kDijkstraInf engine.dist)) :
    (engine.relaxFromUpdates batch).dist.length = vertexCount engine.graph ∧
      Exact start (unitArc arcs) kDijkstraInf
        (label kDijkstraInf (engine.relaxFromUpdates batch).dist) := by
  obtain ⟨hgrown, hlabel⟩ := @grown_spec kDijkstraInf _ _ hlen
  rw [← hlabel] at hjust hrel
  refine propagateDijkstra_offered hserves.enumerates (unitArc_target hserves.simple)
    (fun op _ state hsized => relaxUpdate_eq hsized op) (fun op hop a ha => ?_) hgrown hjust
    fun u w v harc => (hrel u w v harc).imp_left fun ⟨op, hop, hwrite⟩ => ?_
  · obtain ⟨hw, -, -, hwrite⟩ := mem_offeredArcs.mp ha
    exact ⟨hw, hwritten a.1 a.2.2 op hop hwrite⟩
  · have hwithin := hserves.simple.within u v harc.2
    exact ⟨op, hop, 1, mem_offeredArcs.mpr ⟨rfl, hwithin.1, hwithin.2, hwrite⟩⟩

/-- The graph serves the given arcs and the distances are the exact ones. -/
structure Correct (engine : IncrementalSSSP G) (arcs : ArcSet) : Prop where
  serves : Serves engine.graph arcs
  length_eq : engine.dist.length = vertexCount engine.graph
  exact_dist : Exact (startAt engine.source (vertexCount engine.graph)) (unitArc arcs)
    kDijkstraInf (label kDijkstraInf engine.dist)

/-- Recomputation is correct, whether or not the source is a vertex. -/
theorem correct_recompute {engine : IncrementalSSSP G} {arcs : ArcSet}
    (h : Serves engine.graph arcs) : Correct engine.recompute arcs := by
  obtain ⟨hlen, hexact⟩ := recomputeDijkstra_spec h.enumerates (unitArc_target h.simple)
    engine.source
  exact ⟨h, hlen, hexact⟩

/-- A batch keeps the distances correct when the source is a vertex. -/
theorem Correct.apply {engine : IncrementalSSSP G} {arcs : ArcSet} (h : Correct engine arcs)
    (hsource : engine.source.val < vertexCount engine.graph) {batch : UpdateBatch}
    (happlies : Applies engine.graph arcs batch) :
    Correct (engine.apply batch) (applyAll (isDirected engine.graph) arcs batch.updates) := by
  unfold IncrementalSSSP.apply
  dsimp only
  split
  · exact correct_recompute happlies.serves
  · rename_i hdeletion
    have hall : ∀ op ∈ batch.updates, op.add = true := by simpa using hdeletion
    have hmem : ∀ u v, (u, v) ∈ applyAll (isDirected engine.graph) arcs batch.updates ↔
        (u, v) ∈ arcs ∨ ∃ op ∈ batch.updates,
          writeOn (isDirected engine.graph) u v op = some true :=
      fun u v => mem_applyAll_of_insertions hall
    have hstart := startAt_eq hsource happlies.vertexCount_le
    have hjust : Justified (startAt engine.source (vertexCount (applyUpdates engine.graph batch)))
        (unitArc (applyAll (isDirected engine.graph) arcs batch.updates)) kDijkstraInf
        (label kDijkstraInf engine.dist) := by
      refine ⟨h.exact_dist.le_cap, fun v hv => ?_, fun v hlt => ?_⟩
      · exact Nat.le_zero.mp (h.exact_dist.le_walk v 0 (.nil (hstart ▸ hv)))
      · rw [hstart]
        exact ⟨_, le_rfl, (h.exact_dist.walk v hlt).mono fun u w v harc =>
          ⟨harc.1, (hmem u v).mpr (Or.inl harc.2)⟩⟩
    have hrel : Relaxed (unitArc (applyAll (isDirected engine.graph) arcs batch.updates))
        (fun u v => ∃ op ∈ batch.updates,
          writeOn (isDirected (applyUpdates engine.graph batch)) u v op = some true)
        (label kDijkstraInf engine.dist) := by
      intro u w v harc
      rcases (hmem u v).mp harc.2 with hold | hnew
      · exact Or.inr (h.exact_dist.relaxed ⟨harc.1, hold⟩)
      · exact Or.inl (happlies.directed ▸ hnew)
    have hwritten : ∀ u v, ∀ op ∈ batch.updates,
        writeOn (isDirected (applyUpdates engine.graph batch)) u v op = some true →
          (u, v) ∈ applyAll (isDirected engine.graph) arcs batch.updates := fun u v op hop hwrite =>
      (hmem u v).mpr (Or.inr ⟨op, hop, happlies.directed ▸ hwrite⟩)
    obtain ⟨hlen, hexact⟩ := @relaxFromUpdates_spec G _
      { engine with graph := applyUpdates engine.graph batch } _ happlies.serves batch
      (h.length_eq.trans_le happlies.vertexCount_le) _ hjust hwritten hrel
    exact ⟨happlies.serves, hlen, hexact⟩

end IncrementalSSSP

end VeloGraphX
