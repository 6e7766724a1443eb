import Mathlib
import VeloGraphX.Access.WeightedGraphAccess
import VeloGraphX.Incremental.Dijkstra
import VeloGraphX.Incremental.EdgeKey

/-!
# Incremental shortest paths with weights

The engine reduces a batch to the last operation for each edge and compares these with the
weights before the batch. If some weight grew or vanished it recomputes, otherwise it relaxes
the final weights of the inserted arcs. A rejected batch changes neither graph nor distances.
-/

namespace VeloGraphX

open PointUpdate ShortestPath LastWrite Weights WeightedGraphAccess
open ArcSet (writeOn)

/-- `BasicIncrementalWeightedSSSP`: the graph, the source and the distances. -/
structure IncrementalWeightedSSSP (G : Type) where
  graph : G
  source : VertexId
  dist : List ℕ

/-- Lower the distance of `v` over an arc from `u`, and queue it. -/
def relaxWeight (weight : ℕ) (state : List ℕ × List Item) (arc : VertexId × VertexId) :
    List ℕ × List Item :=
  let (dist, queue) := state
  let (u, v) := arc
  if dist.getD u 0 ≠ kDijkstraInf ∧ weight ≤ subU64 kDijkstraInf (dist.getD u 0) then
    let candidate := addU64 (dist.getD u 0) weight
    if candidate < dist.getD v 0 then (dist.set v candidate, toLex (candidate, v) :: queue)
    else state
  else state

/-- The key under which `canonicalize` keeps an operation, and the form in which it does. -/
def canonicalEntry (directed : Bool) (op : WeightedEdgeUpdate) :
    Option (ℕ × WeightedEdgeUpdate) :=
  if op.src = op.dst then none
  else
    let op := if !directed && op.dst < op.src then { op with src := op.dst, dst := op.src } else op
    some (edgeKey op.src op.dst directed, op)

/-- `canonicalize`. -/
def canonicalizeWeighted (directed : Bool) (batch : WeightedUpdateBatch) : WeightedUpdateBatch :=
  ⟨keepLast (canonicalEntry directed) batch.updates⟩

namespace IncrementalWeightedSSSP

variable {G : Type} [WeightedGraphAccess G] (engine : IncrementalWeightedSSSP G)

/-- `recompute`. -/
def recompute : IncrementalWeightedSSSP G :=
  { engine with
    dist := recomputeDijkstra (vertexCount engine.graph) engine.source
      (forEachWeightedNeighbor engine.graph) }

/-- The constructor. -/
def create (g : G) (source : VertexId) : IncrementalWeightedSSSP G := recompute ⟨g, source, []⟩

/-- The validation of one operation in `apply`. -/
def rejects (op : WeightedEdgeUpdate) : Bool :=
  op.src ≠ op.dst && op.add && kDijkstraInf ≤ op.weight

/-- Whether one canonical operation removes an arc or makes it longer. -/
def requiresRecompute (g : G) (op : WeightedEdgeUpdate) : Bool :=
  let oldWeight := edgeWeight g op.src op.dst
  if !op.add then oldWeight.isSome
  else oldWeight.any fun old => op.weight > old

/-- One turn of the loop over the batch in `relax_from_updates`. -/
def relaxUpdate (g : G) (state : List ℕ × List Item) (op : WeightedEdgeUpdate) :
    List ℕ × List Item :=
  if !op.add || state.1.length ≤ op.src || state.1.length ≤ op.dst then state
  else
    match edgeWeight g op.src op.dst with
    | none => state
    | some weight =>
      let state := relaxWeight weight state (op.src, op.dst)
      if isDirected g then state else relaxWeight weight state (op.dst, op.src)

/-- `relax_from_updates`. -/
def relaxFromUpdates (batch : WeightedUpdateBatch) : IncrementalWeightedSSSP G :=
  let n := vertexCount engine.graph
  let dist := if engine.dist.length < n then resize engine.dist n kDijkstraInf else engine.dist
  let state := batch.updates.foldl (relaxUpdate engine.graph) (dist, [])
  { engine with dist := propagateDijkstra (forEachWeightedNeighbor engine.graph) state.1 state.2 }

/-- `apply`: the outcome and the engine that is left behind. -/
def apply (batch : WeightedUpdateBatch) : Except Exception Unit × IncrementalWeightedSSSP G :=
  if batch.empty then (.ok (), engine)
  else if batch.updates.any rejects then
    (.error (.invalidArgument "edge weight exceeds the representable finite-distance domain"),
      engine)
  else
    let canonical := canonicalizeWeighted (isDirected engine.graph) batch
    let mustRecompute := canonical.updates.any (requiresRecompute engine.graph)
    let (outcome, graph) := applyUpdates engine.graph batch
    let engine := { engine with graph := graph }
    match outcome with
    | .error exception => (.error exception, engine)
    | .ok _ => (.ok (), if mustRecompute then engine.recompute else engine.relaxFromUpdates canonical)

end IncrementalWeightedSSSP

/-- The weighted enumeration of a served graph lists its arcs. -/
theorem WeightedGraphAccess.Serves.enumerates {G : Type} [WeightedGraphAccess G] {g : G}
    {weights : Weights} (h : Serves g weights) :
    Enumerates (forEachWeightedNeighbor g) weights.arc :=
  ⟨fun u w v => h.mem_neighbor u v w,
    fun _ _ _ _ harc harc' => Option.some.inj (harc.symm.trans harc')⟩

/-- Lowering a distance over an arc between vertices is relaxing the arc. -/
theorem relaxWeight_eq {n : ℕ} {u v : VertexId} (weight : ℕ) {state : List ℕ × List Item}
    (hu : u.val < n) (hv : v.val < n) (h : Sized n state) :
    relaxWeight weight state (u, v) = relaxOffered state (u, weight, v) := by
  obtain ⟨dist, queue⟩ := state
  have hlen : dist.length = n := h.length_eq
  have hinf : kDijkstraInf < 2 ^ 64 := by decide
  have hsource : dist.getD u 0 = labels (dist, queue) u :=
    (label_eq_getD kDijkstraInf (hlen ▸ hu) 0).symm
  have htarget : dist.getD v 0 = labels (dist, queue) v :=
    (label_eq_getD kDijkstraInf (hlen ▸ hv) 0).symm
  have hle := h.le_inf u
  have hle' := h.le_inf v
  have hsub : subU64 kDijkstraInf (labels (dist, queue) u) = kDijkstraInf - labels (dist, queue) u := by
    unfold subU64
    omega
  unfold relaxWeight relaxOffered relaxArc
  dsimp only
  rw [hsource, htarget, hsub]
  by_cases hfit : weight ≤ kDijkstraInf - labels (dist, queue) u
  · have hskip : ¬ (decide (dist.length ≤ v.val) ||
        decide (kDijkstraInf - labels (dist, queue) u < weight)) = true := by
      simp only [Bool.or_eq_true, decide_eq_true_eq]
      omega
    rw [if_neg hskip]
    by_cases hfinite : labels (dist, queue) u = kDijkstraInf
    · -- an unreached source lowers nothing
      have hadd : addU64 (labels (dist, queue) u) weight = labels (dist, queue) u + weight :=
        Nat.mod_eq_of_lt (by omega)
      rw [if_neg fun hand => hand.1 hfinite, if_neg (by omega)]
    · rw [if_pos ⟨hfinite, hfit⟩]
  · rw [if_neg fun hand => hfit hand.2, if_pos]
    simp only [Bool.or_eq_true, decide_eq_true_eq]
    omega

/-- The key of an operation says which arcs it writes. -/
theorem locates_canonicalEntry (directed : Bool) (u v : VertexId) :
    Locates (canonicalEntry directed) (weightOn directed u v) (edgeKey u v directed) := by
  have hnone : ∀ op : WeightedEdgeUpdate, op.src = op.dst → weightOn directed u v op = none :=
    fun op hloop => weightOn_of_not_addressed fun hand => hand.1 hloop
  have hsome : ∀ op : WeightedEdgeUpdate, op.src ≠ op.dst →
      ((weightOn directed u v op).isSome ↔ edgeKey op.src op.dst directed = edgeKey u v directed) := by
    intro op hloop
    rw [edgeKey_eq_iff]
    by_cases haddressed : op.src = u ∧ op.dst = v ∨ directed = false ∧ op.dst = u ∧ op.src = v
    · rw [weightOn_of_addressed hloop haddressed]
      exact iff_of_true rfl haddressed
    · rw [weightOn_of_not_addressed fun hand => haddressed hand.2]
      exact iff_of_false (by simp) haddressed
  have hswap : ∀ op : WeightedEdgeUpdate, directed = false →
      weightOn directed u v { op with src := op.dst, dst := op.src } = weightOn directed u v op ∧
        edgeKey op.dst op.src directed = edgeKey op.src op.dst directed := by
    intro op hdirected
    refine ⟨?_, edgeKey_eq_iff.mpr (Or.inr ⟨hdirected, rfl, rfl⟩)⟩
    unfold weightOn writeOn
    refine congrArg _ (if_congr ?_ rfl rfl)
    simp only [WeightedEdgeUpdate.edge, hdirected]
    tauto
  refine ⟨fun op hop => ?_, fun op k kept hop => ?_, fun op k kept hop => ?_⟩ <;>
    unfold canonicalEntry at hop <;> split at hop <;> rename_i hloop
  · exact hnone op hloop
  · exact absurd hop (by simp)
  · exact absurd hop (by simp)
  · obtain ⟨-, rfl⟩ := Prod.mk.inj (Option.some.inj hop)
    split
    · rename_i hback
      rw [Bool.and_eq_true, Bool.not_eq_true'] at hback
      exact (hswap op hback.1).1
    · rfl
  · exact absurd hop (by simp)
  · obtain ⟨rfl, -⟩ := Prod.mk.inj (Option.some.inj hop)
    rw [hsome op hloop]
    split
    · rename_i hback
      rw [Bool.and_eq_true, Bool.not_eq_true'] at hback
      rw [(hswap op hback.1).2]
    · rfl

/-- Every canonical operation writes the arc it names, and the batch ends up with that. -/
theorem canonicalizeWeighted_spec {directed : Bool} {batch : WeightedUpdateBatch}
    {op : WeightedEdgeUpdate} (hop : op ∈ (canonicalizeWeighted directed batch).updates)
    (weights : Weights) : applyAll directed weights batch.updates op.src op.dst =
      if op.add then some op.weight else none := by
  have hloop : op.src ≠ op.dst := by
    obtain ⟨original, -, key, hentry⟩ := exists_of_mem_keepLast hop
    unfold canonicalEntry at hentry
    split at hentry
    · exact absurd hentry (by simp)
    · rename_i hne
      obtain ⟨-, rfl⟩ := Prod.mk.inj (Option.some.inj hentry)
      split
      · exact Ne.symm hne
      · exact hne
  exact (locates_canonicalEntry directed op.src op.dst).lastWrite_eq hop
    (weightOn_of_addressed hloop (Or.inl ⟨rfl, rfl⟩)) _

/-- An arc whose weight a batch changes is named by a canonical operation. -/
theorem exists_canonical {directed : Bool} {batch : WeightedUpdateBatch} {weights : Weights}
    {u v : VertexId} (hne : applyAll directed weights batch.updates u v ≠ weights u v) :
    ∃ op ∈ (canonicalizeWeighted directed batch).updates,
      op.src = u ∧ op.dst = v ∨ directed = false ∧ op.dst = u ∧ op.src = v := by
  have hwritten : ∃ op ∈ batch.updates, (weightOn directed u v op).isSome := by
    by_contra hnone
    refine hne (lastWrite_of_forall_none (fun op hop => ?_) _)
    exact Option.not_isSome_iff_eq_none.mp fun hsome => hnone ⟨op, hop, hsome⟩
  obtain ⟨kept, hkept, hsome⟩ := (locates_canonicalEntry directed u v).exists_kept hwritten
  refine ⟨kept, hkept, ?_⟩
  by_contra hnot
  rw [weightOn_of_not_addressed fun hand => hnot hand.2] at hsome
  exact absurd hsome (by simp)

/-- The arcs that one operation of a batch offers for relaxation, with their final weights. -/
def offeredWeights {G : Type} [WeightedGraphAccess G] (g : G) (n : ℕ) (op : WeightedEdgeUpdate) :
    List (VertexId × ℕ × VertexId) :=
  if !op.add || n ≤ op.src || n ≤ op.dst then []
  else
    match edgeWeight g op.src op.dst with
    | none => []
    | some weight =>
      if isDirected g then [(op.src, weight, op.dst)]
      else [(op.src, weight, op.dst), (op.dst, weight, op.src)]

namespace IncrementalWeightedSSSP

variable {G : Type} [WeightedGraphAccess G]

/-- Relaxing from one operation relaxes the offered arcs. -/
theorem relaxUpdate_eq (g : G) {n : ℕ} {state : List ℕ × List Item} (h : Sized n state)
    (op : WeightedEdgeUpdate) :
    relaxUpdate g state op = (offeredWeights g n op).foldl relaxOffered state := by
  unfold relaxUpdate offeredWeights
  rw [h.length_eq]
  split
  · rfl
  · rename_i hskip
    simp only [Bool.or_eq_true, decide_eq_true_eq, not_or, not_le] at hskip
    obtain ⟨⟨-, hsrc⟩, hdst⟩ := hskip
    cases edgeWeight g op.src op.dst with
    | none => rfl
    | some weight =>
      have hfirst := h.relaxOffered (a := (op.src, weight, op.dst)) hdst
      dsimp only
      rw [relaxWeight_eq weight hsrc hdst h, relaxWeight_eq weight hdst hsrc hfirst.1]
      cases isDirected g <;> rfl

/-- Offered arcs are arcs of the graph. -/
theorem arc_of_mem_offeredWeights {g : G} {weights : Weights} (hserves : Serves g weights) {n : ℕ}
    {op : WeightedEdgeUpdate} {a : VertexId × ℕ × VertexId} (ha : a ∈ offeredWeights g n op) :
    weights.arc a.1 a.2.1 a.2.2 := by
  unfold offeredWeights at ha
  split at ha
  · exact absurd ha List.not_mem_nil
  · split at ha
    · exact absurd ha List.not_mem_nil
    · rename_i weight hweight
      rw [hserves.edgeWeight] at hweight
      split at ha
      · rw [List.mem_singleton.mp ha]
        exact hweight
      · rename_i hdirected
        have hsymm := hserves.simple.symmetric (Bool.not_eq_true _ ▸ hdirected) op.src op.dst
        rcases List.mem_cons.mp ha with rfl | ha
        · exact hweight
        · rw [List.mem_singleton.mp ha]
          exact hsymm.symm.trans hweight

/-- An insertion between vertices offers the arcs it addresses. -/
theorem mem_offeredWeights {g : G} {weights : Weights} (hserves : Serves g weights)
    {op : WeightedEdgeUpdate} (hadd : op.add = true) {u v : VertexId} {w : ℕ}
    (harc : weights.arc u w v)
    (haddressed : op.src = u ∧ op.dst = v ∨ isDirected g = false ∧ op.dst = u ∧ op.src = v) :
    (u, w, v) ∈ offeredWeights g (vertexCount g) op := by
  have hwithin := hserves.simple.within u w v harc
  have hweight : edgeWeight g op.src op.dst = some w := by
    rw [hserves.edgeWeight]
    rcases haddressed with ⟨rfl, rfl⟩ | ⟨hdirected, rfl, rfl⟩
    · exact harc
    · exact (hserves.simple.symmetric hdirected op.src op.dst).trans harc
  have hskip : ¬ (!op.add || decide (vertexCount g ≤ op.src.val) ||
      decide (vertexCount g ≤ op.dst.val)) = true := by
    simp only [hadd, Bool.not_true, Bool.false_or, Bool.or_eq_true, decide_eq_true_eq, not_or]
    rcases haddressed with ⟨rfl, rfl⟩ | ⟨-, rfl, rfl⟩ <;> omega
  unfold offeredWeights
  rw [if_neg hskip, hweight]
  dsimp only
  rcases haddressed with ⟨rfl, rfl⟩ | ⟨hdirected, rfl, rfl⟩
  · split <;> exact List.mem_cons_self
  · rw [hdirected, if_neg (by decide)]
    exact List.mem_cons_of_mem _ List.mem_cons_self

/-- The graph serves the given weights and the distances are the exact ones. -/
structure Correct (engine : IncrementalWeightedSSSP G) (weights : Weights) : Prop where
  serves : Serves engine.graph weights
  length_eq : engine.dist.length = vertexCount engine.graph
  exact_dist : Exact (startAt engine.source (vertexCount engine.graph)) weights.arc
    kDijkstraInf (label kDijkstraInf engine.dist)

/-- Recomputation is correct, whether or not the source is a vertex. -/
theorem correct_recompute {engine : IncrementalWeightedSSSP G} {weights : Weights}
    (h : Serves engine.graph weights) : Correct engine.recompute weights := by
  obtain ⟨hlen, hexact⟩ := recomputeDijkstra_spec h.enumerates
    (fun u w v harc => (h.simple.within u w v harc).2) engine.source
  exact ⟨h, hlen, hexact⟩

/-- Unless it must recompute, a batch lets no arc vanish and makes none longer. -/
theorem exists_le_of_not_requiresRecompute {g : G} {weights : Weights} (hserves : Serves g weights)
    {batch : WeightedUpdateBatch}
    (hserves' : Serves (applyUpdates g batch).2 (applyAll (isDirected g) weights batch.updates))
    (hdirected : isDirected (applyUpdates g batch).2 = isDirected g)
    (hkeep : (canonicalizeWeighted (isDirected g) batch).updates.any (requiresRecompute g) = false)
    {u v : VertexId} {w : ℕ} (harc : weights.arc u w v) :
    ∃ w' ≤ w, (applyAll (isDirected g) weights batch.updates).arc u w' v := by
  by_cases hsame : applyAll (isDirected g) weights batch.updates u v = weights u v
  · exact ⟨w, le_rfl, hsame.trans harc⟩
  · obtain ⟨op, hop, haddressed⟩ := exists_canonical hsame
    have hnew := canonicalizeWeighted_spec hop weights
    have hold : weights op.src op.dst = some w ∧
        applyAll (isDirected g) weights batch.updates u v =
          applyAll (isDirected g) weights batch.updates op.src op.dst := by
      rcases haddressed with ⟨rfl, rfl⟩ | ⟨hundirected, rfl, rfl⟩
      · exact ⟨harc, rfl⟩
      · exact ⟨(hserves.simple.symmetric hundirected _ _).trans harc,
          hserves'.simple.symmetric (hdirected.trans hundirected) _ _⟩
    have hkept := List.any_eq_false.mp hkeep op hop
    unfold requiresRecompute at hkept
    rw [hserves.edgeWeight, hold.1] at hkept
    cases hadd : op.add with
    | false => exact absurd (by simp [hadd]) hkept
    | true =>
      refine ⟨op.weight, ?_, ?_⟩
      · simpa [hadd] using hkept
      · unfold arc
        rw [hold.2, hnew, hadd, if_pos rfl]

/-- If a batch made nothing worse, relaxing its canonical form restores the exact distances. -/
theorem Correct.relaxFromUpdates {engine : IncrementalWeightedSSSP G} {weights : Weights}
    (h : Correct engine weights) (hsource : engine.source.val < vertexCount engine.graph)
    {batch : WeightedUpdateBatch} (happlies : Applies engine.graph weights batch)
    (hkeep : (canonicalizeWeighted (isDirected engine.graph) batch).updates.any
      (requiresRecompute engine.graph) = false) :
    Correct ({ engine with graph := (applyUpdates engine.graph batch).2 }.relaxFromUpdates
        (canonicalizeWeighted (isDirected engine.graph) batch))
      (applyAll (isDirected engine.graph) weights batch.updates) := by
  have hserves := happlies.serves
  have hstart := startAt_eq hsource happlies.vertexCount_le
  obtain ⟨hgrown, hlabel⟩ :=
    @grown_spec kDijkstraInf _ _ (h.length_eq.trans_le happlies.vertexCount_le)
  have hwalk : ∀ v c, Walk (startAt engine.source (vertexCount engine.graph)) weights.arc v c →
      ∃ c' ≤ c, Walk (startAt engine.source (vertexCount engine.graph))
        (applyAll (isDirected engine.graph) weights batch.updates).arc v c' := by
    intro v c hwalk
    induction hwalk with
    | nil hv => exact ⟨0, le_rfl, .nil hv⟩
    | snoc _ harc ih =>
      obtain ⟨c', hc', hwalk'⟩ := ih
      obtain ⟨w', hw', harc'⟩ := exists_le_of_not_requiresRecompute h.serves hserves
        happlies.directed hkeep harc
      exact ⟨c' + w', Nat.add_le_add hc' hw', .snoc hwalk' harc'⟩
  have hjust : Justified (startAt engine.source (vertexCount engine.graph))
      (applyAll (isDirected engine.graph) weights batch.updates).arc kDijkstraInf
      (label kDijkstraInf engine.dist) := by
    refine ⟨h.exact_dist.le_cap, fun v hv => ?_, fun v hlt => ?_⟩
    · exact Nat.le_zero.mp (h.exact_dist.le_walk v 0 (.nil hv))
    · exact hwalk v _ (h.exact_dist.walk v hlt)
  have hrel : Relaxed (applyAll (isDirected engine.graph) weights batch.updates).arc
      (fun u v => ∃ op ∈ (canonicalizeWeighted (isDirected engine.graph) batch).updates,
        ∃ w, (u, w, v) ∈ offeredWeights (applyUpdates engine.graph batch).2
          (vertexCount (applyUpdates engine.graph batch).2) op)
      (label kDijkstraInf engine.dist) := by
    intro u w v harc
    by_cases hsame : applyAll (isDirected engine.graph) weights batch.updates u v = weights u v
    · exact Or.inr (h.exact_dist.relaxed (hsame.symm.trans harc))
    · obtain ⟨op, hop, haddressed⟩ := exists_canonical hsame
      rw [← happlies.directed] at haddressed
      have hadd : op.add = true := by
        have hnew := canonicalizeWeighted_spec hop weights
        have hweight : applyAll (isDirected engine.graph) weights batch.updates op.src op.dst =
            some w := by
          rcases haddressed with ⟨rfl, rfl⟩ | ⟨hundirected, rfl, rfl⟩
          · exact harc
          · exact (hserves.simple.symmetric hundirected _ _).trans harc
        by_contra hremove
        rw [hweight, if_neg hremove] at hnew
        exact absurd hnew (by simp)
      exact Or.inl ⟨op, hop, w, mem_offeredWeights hserves hadd harc haddressed⟩
  rw [← hlabel] at hjust hrel
  obtain ⟨hlen, hexact⟩ := propagateDijkstra_offered hserves.enumerates
    (fun u w v harc => (hserves.simple.within u w v harc).2)
    (fun op _ state hsized => relaxUpdate_eq (applyUpdates engine.graph batch).2 hsized op)
    (fun op _ a ha => arc_of_mem_offeredWeights hserves ha) hgrown hjust hrel
  exact ⟨hserves, hlen, hstart ▸ hexact⟩

/-- An accepted batch keeps the distances correct when the source is a vertex. -/
theorem Correct.apply {engine : IncrementalWeightedSSSP G} {weights : Weights}
    (h : Correct engine weights) (hsource : engine.source.val < vertexCount engine.graph)
    {batch : WeightedUpdateBatch} (haccept : batch.updates.any rejects = false)
    (happlies : Applies engine.graph weights batch) :
    (engine.apply batch).1 = .ok () ∧
      Correct (engine.apply batch).2
        (applyAll (isDirected engine.graph) weights batch.updates) := by
  unfold IncrementalWeightedSSSP.apply
  by_cases hempty : batch.updates = []
  · rw [if_pos (by rw [WeightedUpdateBatch.empty, hempty]; rfl), hempty]
    exact ⟨rfl, h⟩
  · rw [if_neg (by rwa [WeightedUpdateBatch.empty, List.isEmpty_iff]),
      if_neg (by rw [haccept]; decide)]
    dsimp only
    rw [happlies.accepted]
    refine ⟨rfl, ?_⟩
    dsimp only
    split
    · exact correct_recompute happlies.serves
    · rename_i hkeep
      exact h.relaxFromUpdates hsource happlies (Bool.not_eq_true _ ▸ hkeep)

end IncrementalWeightedSSSP

end VeloGraphX
