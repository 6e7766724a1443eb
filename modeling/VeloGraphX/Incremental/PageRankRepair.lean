import Mathlib
import VeloGraphX.Access.RankVectors
import VeloGraphX.Algorithms.StaticPageRank
import VeloGraphX.Incremental.BfsRuns
import VeloGraphX.Incremental.PageRankTurns

/-!
# The local repair of PageRank in exact arithmetic

A batch changes the equation of a vertex only through an arc into it or through the out-degree of an
in-neighbour, and the repair starts from all vertices that this can be. From there on a vertex that
is not active satisfies its equation: an iteration makes the equations of the active vertices hold
for the ranks before it, and whatever moves activates its out-neighbours. When nothing is active the
ranks are a fixed point for the whole graph.
-/

namespace VeloGraphX

open FuelLoop ArcSet ReadableGraph PageRank IncrementalPageRank
open DoubleArith (ofNat toNat lt le)

/-- A simple graph whose in-rows are the transpose of its out-rows. -/
structure GraphAccess.TwoSided {G : Type} [GraphAccess G] (g : G) : Prop where
  serves : GraphAccess.Serves g (GraphAccess.arcsOf g)
  transposes : GraphAccess.Transposes g (GraphAccess.arcsOf g)

/-- A dynamic graph with mirrored views is two-sided. -/
theorem DynamicGraph.Mirrored.twoSided {D : Type} [DoubleArith D] {g : DynamicGraph D} {arcs : ArcSet}
    (h : g.Mirrored arcs) : GraphAccess.TwoSided g := by
  have harcs := h.toRefines.serves.arcsOf_eq
  exact ⟨harcs.symm ▸ h.toRefines.serves, harcs.symm ▸ h.transposes⟩

namespace PageRank

section Seeds

variable {G : Type} [GraphAccess G] {g : G}

/-- The vertices one operation activates. -/
def seeds (g : G) (e : EdgeUpdate) : List VertexId :=
  [e.src, e.dst] ++ (if e.src.val < vertexCount g then forEachNeighbor g e.src else []) ++
    (if GraphAccess.isDirected g = false ∧ e.dst.val < vertexCount g then forEachNeighbor g e.dst else [])

/-- The first active set holds the seeds of all operations. -/
theorem seedFrontier_spec (g : G) (updates : List EdgeUpdate) :
    (IncrementalPageRank.seedFrontier g updates).Sized (vertexCount g) ∧
      ∀ w : VertexId, w.val < vertexCount g →
        ((IncrementalPageRank.seedFrontier g updates).flag w = true ↔ ∃ e ∈ updates, w ∈ seeds g e) := by
  have hfold : IncrementalPageRank.seedFrontier g updates =
      (updates.flatMap (seeds g)).foldl (ActiveSet.activate (vertexCount g))
        ⟨List.replicate (vertexCount g) false, 0⟩ := by
    rw [List.foldl_flatMap]
    unfold IncrementalPageRank.seedFrontier
    refine List.foldl_ext _ _ _ fun frontier e _ => ?_
    rw [seeds, List.foldl_append, List.foldl_append]
    have hsrc : (if e.src.val < vertexCount g then forEachNeighbor g e.src else []).foldl
        (ActiveSet.activate (vertexCount g))
        ([e.src, e.dst].foldl (ActiveSet.activate (vertexCount g)) frontier) =
        if e.src.val < vertexCount g then
          (forEachNeighbor g e.src).foldl (ActiveSet.activate (vertexCount g))
            ([e.src, e.dst].foldl (ActiveSet.activate (vertexCount g)) frontier)
        else [e.src, e.dst].foldl (ActiveSet.activate (vertexCount g)) frontier := by
      split <;> rfl
    rw [hsrc]
    by_cases hdst : GraphAccess.isDirected g = false ∧ e.dst.val < vertexCount g
    · rw [if_pos hdst]
      exact if_pos (by rw [hdst.1]; exact decide_eq_true hdst.2)
    · rw [if_neg hdst]
      refine if_neg fun hand => hdst ?_
      rw [Bool.and_eq_true, Bool.not_eq_true', decide_eq_true_eq] at hand
      exact hand
  obtain ⟨hsized, hflags⟩ := (sized_inactive (vertexCount g)).foldl_activate (updates.flatMap (seeds g))
  rw [hfold]
  refine ⟨hsized, fun w hw => ?_⟩
  have hnone : ActiveSet.flag ⟨List.replicate (vertexCount g) false, 0⟩ w = false :=
    List.getD_replicate _ hw
  rw [hflags w hw, hnone, or_iff_right Bool.false_ne_true, List.mem_flatMap]

end Seeds

section Equations

variable {G : Type} [ReadableGraph G] {g : G} {arcs : ArcSet} {damping : ℚ} {state state' : LocalState ℚ}

/-- The rank of a vertex satisfies its equation. -/
def Balanced (g : G) (damping : ℚ) (rank : List ℚ) (v : VertexId) : Prop :=
  rankOf rank v = (1 - damping) / (vertexCount g : ℚ) +
    damping * RandomWalk.incoming (succOf g) (predOf g) (rankOf rank) v

/-- Every vertex that is not active satisfies its equation. -/
def Settled (g : G) (damping : ℚ) (state : LocalState ℚ) : Prop :=
  ∀ v : VertexId, v.val < vertexCount g → state.frontier.flag v = false → Balanced g damping state.rank v

/-- The value that the repair computes is the right-hand side of the equation. -/
theorem updatedRank_eq (h : Views g arcs) (rank : List ℚ) {v : VertexId} (hv : v.val < vertexCount g) :
    updatedRank g damping rank v = (1 - damping) / (vertexCount g : ℚ) +
      damping * RandomWalk.incoming (succOf g) (predOf g) (rankOf rank) v := by
  have hgather := h.foldl_gather (neighborCount g) (fun u _ => rfl) rank hv
  rw [← hgather, updatedRank, gatherLocal]
  simp only [zero_literal, one_literal]
  rfl

/-- After an iteration the ranks are the right-hand sides for the ranks before it. -/
theorem Settled.rankOf_turn (h : Settled g damping state) (hviews : Views g arcs)
    (hturn : TurnSpec g damping 0 state state') {v : VertexId} (hv : v.val < vertexCount g) :
    rankOf state'.rank v = (1 - damping) / (vertexCount g : ℚ) +
      damping * RandomWalk.incoming (succOf g) (predOf g) (rankOf state.rank) v := by
  have hcell := hturn.rank v hv
  simp only [zero_literal] at hcell
  rw [rankOf, hcell]
  split
  · exact updatedRank_eq hviews state.rank hv
  · rename_i hflag
    exact h v hv (Bool.eq_false_iff.mpr hflag)

/-- An iteration leaves a rank alone unless it activates the out-neighbours. -/
theorem rankOf_turn_of_inactive (hviews : Views g arcs)
    (hturn : TurnSpec g damping 0 state state') {u w : VertexId} (harc : (u, w) ∈ arcs)
    (hinactive : state'.frontier.flag w = false) : rankOf state'.rank u = rankOf state.rank u := by
  obtain ⟨hu, hw⟩ := hviews.within u w harc
  by_contra hne
  have hcell := hturn.rank u hu
  simp only [zero_literal] at hcell
  rw [rankOf, rankOf, hcell] at hne
  by_cases hflag : state.frontier.flag u = true
  · rw [if_pos hflag] at hne
    have hmoves : Moves g damping 0 state u := by
      refine ⟨hflag, decide_eq_true ?_⟩
      simp only [zero_literal]
      exact abs_pos.mpr (sub_ne_zero.mpr hne)
    have hset := (hturn.flag w hw).mpr ⟨u, hu, hmoves, (hviews.mem_neighbor u hu w).mpr harc⟩
    rw [hinactive] at hset
    exact Bool.false_ne_true hset
  · rw [if_neg hflag] at hne
    exact hne rfl

/-- An iteration at tolerance zero keeps the vertices that are not active settled. -/
theorem Settled.turn (h : Settled g damping state) (hviews : Views g arcs)
    (hturn : TurnSpec g damping 0 state state') : Settled g damping state' := by
  intro w hw hinactive
  have hincoming : RandomWalk.incoming (succOf g) (predOf g) (rankOf state'.rank) w =
      RandomWalk.incoming (succOf g) (predOf g) (rankOf state.rank) w := by
    refine Finset.sum_congr rfl fun u hu => ?_
    have harc : (u, w) ∈ arcs := (hviews.mem_inNeighbor w hw u).mp (List.mem_toFinset.mp hu)
    rw [rankOf_turn_of_inactive hviews hturn harc hinactive]
  rw [Balanced, hincoming]
  exact h.rankOf_turn hviews hturn hw

end Equations

section Start

variable {G : Type} [GraphAccess G] {g : G} {batch : UpdateBatch} {damping : ℚ} {rank : List ℚ}

/-- An arc that a batch changes is named by one of its operations. -/
theorem exists_op_of_changed (hupdates : GraphAccess.Updates g batch) {u v : VertexId}
    (hne : ¬ (v ∈ forEachNeighbor (GraphAccess.applyUpdates g batch) u ↔ v ∈ forEachNeighbor g u)) :
    ∃ e ∈ batch.updates, e.src = u ∧ e.dst = v ∨
      GraphAccess.isDirected g = false ∧ e.dst = u ∧ e.src = v := by
  have hpresent : present (applyAll (GraphAccess.isDirected g) (GraphAccess.arcsOf g) batch.updates) u v ≠
      present (GraphAccess.arcsOf g) u v := by
    intro heq
    refine hne ?_
    have hiff := Bool.eq_iff_iff.mp heq
    rw [present_eq_true, present_eq_true, ← hupdates.arcs] at hiff
    exact hiff
  obtain ⟨op, hop, hwrites⟩ := exists_writeOn hpresent
  refine ⟨op, hop, ?_⟩
  unfold writeOn at hwrites
  split at hwrites
  · rename_i haddressed
    exact haddressed.2
  · exact absurd hwrites Bool.false_ne_true

/-- A vertex that no operation activates keeps its in-neighbours. -/
theorem predOf_of_not_seeded (hbefore : GraphAccess.TwoSided g)
    (hafter : GraphAccess.TwoSided (GraphAccess.applyUpdates g batch))
    (hupdates : GraphAccess.Updates g batch) {v : VertexId}
    (hnot : ∀ e ∈ batch.updates, v ∉ seeds (GraphAccess.applyUpdates g batch) e) :
    predOf (GraphAccess.applyUpdates g batch) v = predOf g v := by
  ext u
  rw [predOf, predOf, List.mem_toFinset, List.mem_toFinset]
  change u ∈ GraphAccess.forEachInNeighbor _ v ↔ u ∈ GraphAccess.forEachInNeighbor _ v
  rw [hafter.transposes.mem_inNeighbor, hbefore.transposes.mem_inNeighbor]
  by_contra hne
  obtain ⟨e, he, ⟨-, rfl⟩ | ⟨-, -, rfl⟩⟩ := exists_op_of_changed hupdates hne
  · exact hnot e he (by simp [seeds])
  · exact hnot e he (by simp [seeds])

/-- Its in-neighbours keep their out-neighbours. -/
theorem succOf_of_not_seeded (hupdates : GraphAccess.Updates g batch) {u v : VertexId}
    (hu : u.val < vertexCount (GraphAccess.applyUpdates g batch))
    (hrow : v ∈ forEachNeighbor (GraphAccess.applyUpdates g batch) u)
    (hnot : ∀ e ∈ batch.updates, v ∉ seeds (GraphAccess.applyUpdates g batch) e) :
    succOf (GraphAccess.applyUpdates g batch) u = succOf g u := by
  ext w
  rw [succOf, succOf, List.mem_toFinset, List.mem_toFinset]
  by_contra hne
  obtain ⟨e, he, ⟨rfl, -⟩ | ⟨hundirected, rfl, -⟩⟩ := exists_op_of_changed hupdates hne
  · refine hnot e he (List.mem_append_left _ (List.mem_append_right _ ?_))
    rw [if_pos hu]
    exact hrow
  · refine hnot e he (List.mem_append_right _ ?_)
    rw [if_pos ⟨hupdates.directed.trans hundirected, hu⟩]
    exact hrow

/-- Where every equation held before the batch, the vertices that are not active at first satisfy
theirs after it. -/
theorem settled_seedState (hbefore : GraphAccess.TwoSided g)
    (hafter : GraphAccess.TwoSided (GraphAccess.applyUpdates g batch))
    (hupdates : GraphAccess.Updates g batch)
    (hcount : GraphAccess.vertexCount (GraphAccess.applyUpdates g batch) = GraphAccess.vertexCount g)
    (hbalanced : ∀ v : VertexId, v.val < vertexCount g → Balanced g damping rank v) :
    Settled (GraphAccess.applyUpdates g batch) damping (IncrementalPageRank.seedState rank
      (IncrementalPageRank.seedFrontier (GraphAccess.applyUpdates g batch) batch.updates)) := by
  intro v hv hinactive
  have hviews := hafter.serves.views hafter.transposes
  have hnot : ∀ e ∈ batch.updates, v ∉ seeds (GraphAccess.applyUpdates g batch) e := by
    intro e he hmem
    have hset := ((seedFrontier_spec (GraphAccess.applyUpdates g batch) batch.updates).2 v hv).mpr
      ⟨e, he, hmem⟩
    exact Bool.false_ne_true (hinactive.symm.trans hset)
  have hpred := predOf_of_not_seeded hbefore hafter hupdates hnot
  have hsucc : ∀ u ∈ predOf g v, succOf (GraphAccess.applyUpdates g batch) u = succOf g u := by
    intro u hu
    rw [← hpred] at hu
    have harc := (hviews.mem_inNeighbor v hv u).mp (List.mem_toFinset.mp hu)
    have hlt := (hviews.within u v harc).1
    exact succOf_of_not_seeded hupdates hlt ((hviews.mem_neighbor u hlt v).mpr harc) hnot
  have hincoming : RandomWalk.incoming (succOf (GraphAccess.applyUpdates g batch))
      (predOf (GraphAccess.applyUpdates g batch)) (rankOf rank) v =
        RandomWalk.incoming (succOf g) (predOf g) (rankOf rank) v := by
    rw [RandomWalk.incoming, RandomWalk.incoming, hpred]
    exact Finset.sum_congr rfl fun u hu => by rw [hsucc u hu]
  have hold := hbalanced v (lt_of_lt_of_eq hv hcount)
  rw [Balanced] at hold
  change rankOf rank v = (1 - damping) / (vertexCount (GraphAccess.applyUpdates g batch) : ℚ) +
    damping * RandomWalk.incoming (succOf (GraphAccess.applyUpdates g batch))
      (predOf (GraphAccess.applyUpdates g batch)) (rankOf rank) v
  rw [hincoming]
  change rankOf rank v = (1 - damping) /
    ((GraphAccess.vertexCount (GraphAccess.applyUpdates g batch) : ℕ) : ℚ) + _
  rw [hcount]
  exact hold

end Start

section FixedPoint

variable {G : Type} [ReadableGraph G] {g : G} {arcs : ArcSet} {damping : ℚ} {rank : List ℚ}

/-- Every vertex satisfies its equation. -/
def FixedPoint (g : G) (damping : ℚ) (rank : List ℚ) : Prop :=
  ∀ v : VertexId, v.val < vertexCount g → Balanced g damping rank v

/-- Without dangling vertices a fixed point is one of the iteration that solves the whole graph. -/
theorem FixedPoint.nextRank_eq (h : FixedPoint g damping rank) (hn : vertexCount g ≤ 2 ^ 32)
    (hlength : rank.length = vertexCount g)
    (hdangling : ∀ v : VertexId, v.val < vertexCount g → succOf g v ≠ ∅) :
    nextRank g damping rank = rank := by
  refine (eq_nextRank hn hlength fun v hv => ?_).symm
  have hmass : RandomWalk.danglingMass (vertexSet g) (succOf g) (rankOf rank) = 0 := by
    rw [RandomWalk.danglingMass, Finset.filter_false_of_mem fun u hu => hdangling u (mem_vertexSet.mp hu),
      Finset.sum_empty]
  rw [h v hv, walkStep, RandomWalk.step, RandomWalk.baseRank, hmass, mul_zero, zero_div, add_zero,
    card_vertexSet hn]

end FixedPoint

end PageRank

namespace IncrementalPageRank

/-- At tolerance zero every iteration of the local repair leaves the vertices that are not in the
next active set with ranks that satisfy their equations on the graph after the batch. When the
active set is empty all vertices do, and the ranks are a fixed point of the full solution. -/
theorem repair_settled {G : Type} [GraphAccess G] (engine : IncrementalPageRank G ℚ)
    (batch : UpdateBatch) (hbefore : GraphAccess.TwoSided engine.graph)
    (hafter : GraphAccess.TwoSided (GraphAccess.applyUpdates engine.graph batch))
    (hupdates : GraphAccess.Updates engine.graph batch)
    (hcount : GraphAccess.vertexCount (GraphAccess.applyUpdates engine.graph batch) =
      GraphAccess.vertexCount engine.graph)
    (hdangling : ∀ v : VertexId,
      v.val < vertexCount (GraphAccess.applyUpdates engine.graph batch) →
        succOf (GraphAccess.applyUpdates engine.graph batch) v ≠ ∅)
    (hlength : engine.rank.length = vertexCount engine.graph)
    (hfixed : FixedPoint engine.graph engine.damping engine.rank) :
    let g := GraphAccess.applyUpdates engine.graph batch
    let start := seedState engine.rank (seedFrontier g batch.updates)
    (∀ fuel k state, localAfter g engine.damping 0 fuel k start = some state →
      Settled g engine.damping state ∧
        (state.frontier.activeCount = 0 → FixedPoint g engine.damping state.rank)) ∧
    (vertexCount g < 2 ^ 32 → ∀ k, Returns (fun fuel => localAfter g engine.damping 0 fuel k start)
      fun state => Settled g engine.damping state ∧
        (state.frontier.activeCount = 0 → nextRank g engine.damping state.rank = state.rank)) ∧
    ∀ fuel localIterations fraction final engine',
      engine.apply fuel batch localIterations 0 fraction = some (.localized final, engine') →
        engine'.graph = g ∧ engine'.rank = final.rank ∧
          (∃ k ≤ localIterations, localAfter g engine.damping 0 fuel k start = some final) ∧
          (final.frontier.activeCount = 0 → FixedPoint g engine.damping engine'.rank) := by
  dsimp only
  have hviews := hafter.serves.views hafter.transposes
  have hseeds := (seedFrontier_spec (GraphAccess.applyUpdates engine.graph batch) batch.updates).1
  have hsized : LocalSized (vertexCount (GraphAccess.applyUpdates engine.graph batch))
      (seedState engine.rank (seedFrontier (GraphAccess.applyUpdates engine.graph batch) batch.updates)) :=
    ⟨hlength.trans hcount.symm, hseeds⟩
  have hstart := settled_seedState hbefore hafter hupdates hcount hfixed
  have hiterations : ∀ fuel k state, localAfter (GraphAccess.applyUpdates engine.graph batch)
      engine.damping 0 fuel k (seedState engine.rank
        (seedFrontier (GraphAccess.applyUpdates engine.graph batch) batch.updates)) = some state →
      LocalSized (vertexCount (GraphAccess.applyUpdates engine.graph batch)) state ∧
        Settled (GraphAccess.applyUpdates engine.graph batch) engine.damping state ∧
        (state.frontier.activeCount = 0 →
          FixedPoint (GraphAccess.applyUpdates engine.graph batch) engine.damping state.rank) := by
    intro fuel k state hrun
    obtain ⟨hsized', hsettled⟩ := localAfter_keeps
      (Settled (GraphAccess.applyUpdates engine.graph batch) engine.damping)
      (fun _ _ _ hsettled hturn => hsettled.turn hviews hturn) hsized hstart hrun
    exact ⟨hsized', hsettled, fun hzero v hv =>
      hsettled v hv (hsized'.frontier.flag_of_count_zero hzero v)⟩
  refine ⟨fun fuel k state hrun => (hiterations fuel k state hrun).2, fun hn k => ?_, ?_⟩
  · obtain ⟨state, -, bound, hrun⟩ := @returns_localAfter G ℚ _ _
      (GraphAccess.applyUpdates engine.graph batch) engine.damping 0 _ hn k hsized
    obtain ⟨hsized', hsettled, hfixed'⟩ := hiterations bound k state (hrun bound le_rfl)
    exact ⟨state, ⟨hsettled, fun hzero =>
      (hfixed' hzero).nextRank_eq hn.le hsized'.rank_length hdangling⟩, bound, hrun⟩
  · intro fuel localIterations fraction final engine' hrun
    obtain ⟨hfacts, hrank, k, hk, hfinal⟩ := apply_isLocal hrun rfl
    rw [hfacts.graph] at hfinal
    exact ⟨hfacts.graph, hrank, ⟨k, hk, hfinal⟩, fun hzero =>
      hrank ▸ (hiterations fuel k final hfinal).2.2 hzero⟩

/-- The directed cycle through three vertices. -/
def threeCycle : DynamicGraph ℚ :=
  (DynamicGraph.create 3 true).apply ⟨[⟨0, 1, true, 0⟩, ⟨1, 2, true, 0⟩, ⟨2, 0, true, 0⟩]⟩

/-- Adding a chord to the cycle. -/
theorem threeCycle_chord : GraphAccess.TwoSided threeCycle ∧
    GraphAccess.TwoSided (threeCycle.apply ⟨[⟨0, 2, true, 0⟩]⟩) ∧
    GraphAccess.Updates threeCycle ⟨[⟨0, 2, true, 0⟩]⟩ := by
  have hcycle := (@DynamicGraph.mirrored_create ℚ 3 true).apply (@DynamicGraph.settles_create ℚ 3 true
    ⟨[⟨0, 1, true, 0⟩, ⟨1, 2, true, 0⟩, ⟨2, 0, true, 0⟩]⟩ (by decide))
  change threeCycle.Mirrored _ at hcycle
  have hsettles : threeCycle.Settles ⟨[⟨0, 2, true, 0⟩]⟩ := by
    intro u v _ hlast
    obtain ⟨op, hop, hwrite⟩ := List.mem_filterMap.mp (List.mem_of_getLast? hlast)
    obtain rfl := List.mem_singleton.mp hop
    unfold writeOn at hwrite
    split at hwrite
    · rename_i haddressed
      obtain ⟨-, ⟨rfl, rfl⟩ | ⟨hundirected, -⟩⟩ := haddressed
      · decide +kernel
      · exact absurd hundirected (by decide +kernel)
    · exact absurd hwrite nofun
  exact ⟨hcycle.twoSided, (hcycle.apply hsettles).twoSided, hcycle.toRefines.updates _⟩

/-- The repair of a chord starts from uniform ranks and keeps what is not active settled. -/
theorem repair_settled_chord :
    Returns (fun fuel => localAfter (threeCycle.apply ⟨[⟨0, 2, true, 0⟩]⟩) (1 / 2) 0 fuel 2
      (seedState [1 / 3, 1 / 3, 1 / 3] (seedFrontier (threeCycle.apply ⟨[⟨0, 2, true, 0⟩]⟩)
        [⟨0, 2, true, 0⟩]))) fun state =>
      Settled (threeCycle.apply ⟨[⟨0, 2, true, 0⟩]⟩) (1 / 2) state := by
  obtain ⟨hbefore, hafter, hupdates⟩ := threeCycle_chord
  have hcount : (threeCycle.apply ⟨[⟨0, 2, true, 0⟩]⟩).vertexCount = 3 := by decide +kernel
  have hthree : threeCycle.vertexCount = 3 := by decide +kernel
  have hcases : ∀ v : VertexId, v.val < 3 → v = 0 ∨ v = 1 ∨ v = 2 := by
    intro v hv
    rw [Fin.ext_iff, Fin.ext_iff, Fin.ext_iff]
    change v.val = 0 ∨ v.val = 1 ∨ v.val = 2
    omega
  have hrepair := repair_settled
    { graph := threeCycle, damping := 1 / 2, rank := [1 / 3, 1 / 3, 1 / 3], lastResidualL1 := 0,
      lastResidualLinf := 0 } ⟨[⟨0, 2, true, 0⟩]⟩ hbefore hafter hupdates
    (hcount.trans hthree.symm) (fun v hv => ?_) hthree.symm fun v hv => ?_
  · refine (hrepair.2.1 ?_ 2).mono fun state hstate => hstate.1
    exact lt_of_eq_of_lt hcount (by norm_num)
  · rcases hcases v (lt_of_lt_of_eq hv hcount) with rfl | rfl | rfl <;> decide +kernel
  · rw [PageRank.Balanced]
    rcases hcases v (lt_of_lt_of_eq hv hthree) with rfl | rfl | rfl <;> decide +kernel

end IncrementalPageRank

end VeloGraphX
