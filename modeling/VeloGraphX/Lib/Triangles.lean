import Mathlib

/-!
# Counting triangles

The 3-cliques that contain both ends of an edge are as many as the common neighbours of the
ends. So the number of 3-cliques changes by the common neighbours when one edge is inserted or
deleted, and the common neighbours of all edges together count every 3-clique three times.
-/

namespace Triangles

open Finset

variable {V : Type*} {G G' : SimpleGraph V} {u v : V}

/-- The number of 3-cliques. -/
noncomputable def triangleCount (G : SimpleGraph V) : ℕ := (G.cliqueSet 3).ncard

open Classical in
/-- A 3-clique with both ends of an edge has a common neighbour as its third vertex. -/
theorem cliques_on_eq_image (huv : G.Adj u v) :
    {s | s ∈ G.cliqueSet 3 ∧ u ∈ s ∧ v ∈ s} =
      (fun w => ({u, v, w} : Finset V)) '' G.commonNeighbors u v := by
  refine Set.ext fun s => ⟨fun hs => ?_, fun hs => ?_⟩
  · obtain ⟨hclique, hu, hv⟩ := hs
    rw [SimpleGraph.mem_cliqueSet_iff, SimpleGraph.isNClique_iff] at hclique
    have hpair : ({u, v} : Finset V) ⊆ s :=
      insert_subset_iff.mpr ⟨hu, singleton_subset_iff.mpr hv⟩
    have hcard : (s \ {u, v}).card = 1 := by
      rw [card_sdiff_of_subset hpair, hclique.2, card_pair huv.ne]
    obtain ⟨w, hw⟩ := card_eq_one.mp hcard
    have hmem : w ∈ s ∧ w ≠ u ∧ w ≠ v := by
      have hin : w ∈ s \ {u, v} := hw ▸ mem_singleton_self w
      simpa using hin
    refine ⟨w, ⟨hclique.1 hu hmem.1 hmem.2.1.symm, hclique.1 hv hmem.1 hmem.2.2.symm⟩, ?_⟩
    rw [← sdiff_union_of_subset hpair, hw]
    ext x
    simp only [mem_insert, mem_singleton, mem_union]
    tauto
  · obtain ⟨w, hw, rfl⟩ := hs
    refine ⟨?_, by simp, by simp⟩
    exact SimpleGraph.is3Clique_triple_iff.mpr ⟨huv, hw.1, hw.2⟩

open Classical in
/-- The third vertex is told by the clique. -/
theorem injOn_triple : Set.InjOn (fun w => ({u, v, w} : Finset V)) (G.commonNeighbors u v) := by
  intro w hw w' _ heq
  have hmem : w ∈ ({u, v, w'} : Finset V) := by
    rw [← show ({u, v, w} : Finset V) = {u, v, w'} from heq]
    simp
  have hne : w ≠ u ∧ w ≠ v := ⟨hw.1.ne', hw.2.ne'⟩
  simpa [hne.1, hne.2] using hmem

/-- The 3-cliques with both ends of an edge are as many as the common neighbours. -/
theorem ncard_cliques_on (huv : G.Adj u v) :
    {s | s ∈ G.cliqueSet 3 ∧ u ∈ s ∧ v ∈ s}.ncard = (G.commonNeighbors u v).ncard := by
  rw [cliques_on_eq_image huv, injOn_triple.ncard_image]

/-- `G'` is `G` with one more edge. -/
structure Inserts (G G' : SimpleGraph V) (u v : V) : Prop where
  ne : u ≠ v
  absent : ¬ G.Adj u v
  adj : ∀ x y, G'.Adj x y ↔ G.Adj x y ∨ x = u ∧ y = v ∨ x = v ∧ y = u

/-- The edge itself does not change the common neighbours of its ends. -/
theorem Inserts.commonNeighbors (h : Inserts G G' u v) :
    G'.commonNeighbors u v = G.commonNeighbors u v := by
  refine Set.ext fun w => ?_
  rw [SimpleGraph.mem_commonNeighbors, SimpleGraph.mem_commonNeighbors, h.adj, h.adj]
  have hvw : G.Adj v w → w ≠ v := fun hadj => hadj.ne'
  have huw : G.Adj u w → w ≠ u := fun hadj => hadj.ne'
  have hne := h.ne
  have hne' := h.ne.symm
  constructor
  · rintro ⟨hfirst, hsecond⟩
    rcases hfirst with hfirst | ⟨-, rfl⟩ | ⟨heq, -⟩
    · rcases hsecond with hsecond | ⟨heq, -⟩ | ⟨-, rfl⟩
      · exact ⟨hfirst, hsecond⟩
      · exact absurd heq hne'
      · exact absurd rfl (huw hfirst)
    · rcases hsecond with hsecond | ⟨heq, -⟩ | ⟨-, heq⟩
      · exact absurd rfl (hvw hsecond)
      · exact absurd heq hne'
      · exact absurd heq hne'
    · exact absurd heq hne
  · exact fun hboth => ⟨Or.inl hboth.1, Or.inl hboth.2⟩

/-- One more edge makes as many 3-cliques as its ends have common neighbours. -/
theorem Inserts.triangleCount [Finite V] (h : Inserts G G' u v) :
    triangleCount G' = triangleCount G + (G.commonNeighbors u v).ncard := by
  have huv : G'.Adj u v := (h.adj u v).mpr (Or.inr (Or.inl ⟨rfl, rfl⟩))
  have hsplit : G'.cliqueSet 3 = G.cliqueSet 3 ∪ {s | s ∈ G'.cliqueSet 3 ∧ u ∈ s ∧ v ∈ s} := by
    refine Set.ext fun s => ?_
    rw [Set.mem_union, Set.mem_ofPred_eq, SimpleGraph.mem_cliqueSet_iff,
      SimpleGraph.mem_cliqueSet_iff, SimpleGraph.isNClique_iff, SimpleGraph.isNClique_iff]
    constructor
    · rintro ⟨hclique, hcard⟩
      by_cases hboth : u ∈ s ∧ v ∈ s
      · exact Or.inr ⟨⟨hclique, hcard⟩, hboth⟩
      · refine Or.inl ⟨fun x hx y hy hne => ?_, hcard⟩
        rcases (h.adj x y).mp (hclique hx hy hne) with hadj | ⟨rfl, rfl⟩ | ⟨rfl, rfl⟩
        · exact hadj
        · exact absurd ⟨hx, hy⟩ hboth
        · exact absurd ⟨hy, hx⟩ hboth
    · rintro (⟨hclique, hcard⟩ | hboth)
      · exact ⟨fun x hx y hy hne => (h.adj x y).mpr (Or.inl (hclique hx hy hne)), hcard⟩
      · exact hboth.1
  have hdisjoint : Disjoint (G.cliqueSet 3) {s | s ∈ G'.cliqueSet 3 ∧ u ∈ s ∧ v ∈ s} := by
    refine Set.disjoint_left.mpr fun s hs hboth => h.absent ?_
    exact (SimpleGraph.isNClique_iff G |>.mp hs).1 hboth.2.1 hboth.2.2 h.ne
  rw [Triangles.triangleCount, hsplit, Set.ncard_union_eq hdisjoint (Set.toFinite _)
    (Set.toFinite _), ncard_cliques_on huv, h.commonNeighbors]
  rfl

/-- The pairs of a set of three, in order. -/
theorem card_pairs [LinearOrder V] {s : Finset V} (hs : s.card = 3) :
    ((s ×ˢ s).filter fun p => p.1 < p.2).card = 3 := by
  have hswap : ((s ×ˢ s).filter fun p => p.2 < p.1).card =
      ((s ×ˢ s).filter fun p => p.1 < p.2).card := by
    refine card_bij (fun p _ => p.swap) (fun p hp => ?_) (fun p _ q _ heq => ?_) fun p hp => ?_
    · simp only [mem_filter, mem_product] at hp ⊢
      exact ⟨⟨hp.1.2, hp.1.1⟩, hp.2⟩
    · exact Prod.swap_injective heq
    · refine ⟨p.swap, ?_, Prod.swap_swap p⟩
      simp only [mem_filter, mem_product] at hp ⊢
      exact ⟨⟨hp.1.2, hp.1.1⟩, hp.2⟩
  have hunion : s.offDiag = ((s ×ˢ s).filter fun p => p.1 < p.2) ∪
      (s ×ˢ s).filter fun p => p.2 < p.1 := by
    ext p
    simp only [mem_offDiag, mem_union, mem_filter, mem_product, ne_iff_lt_or_gt]
    tauto
  have hdisjoint : Disjoint ((s ×ˢ s).filter fun p => p.1 < p.2)
      ((s ×ˢ s).filter fun p => p.2 < p.1) := by
    refine disjoint_left.mpr fun p hp hq => ?_
    exact lt_asymm (mem_filter.mp hp).2 (mem_filter.mp hq).2
  have hcard := s.offDiag_card
  rw [hunion, card_union_of_disjoint hdisjoint, hswap, hs] at hcard
  omega

/-- The common neighbours of all edges count every 3-clique three times. -/
theorem sum_commonNeighbors [Fintype V] [LinearOrder V] [DecidableRel G.Adj] :
    ∑ p : V × V with p.1 < p.2 ∧ G.Adj p.1 p.2, (G.commonNeighbors p.1 p.2).ncard =
      3 * triangleCount G := by
  classical
  have hon : ∀ p : V × V, p.1 < p.2 ∧ G.Adj p.1 p.2 → (G.commonNeighbors p.1 p.2).ncard =
      ((G.cliqueFinset 3).bipartiteAbove (fun p s => p.1 ∈ s ∧ p.2 ∈ s) p).card := by
    intro p hp
    rw [← ncard_cliques_on hp.2, ← Set.ncard_coe_finset]
    refine congrArg Set.ncard (Set.ext fun s => ?_)
    rw [mem_coe, mem_bipartiteAbove, SimpleGraph.mem_cliqueFinset_iff]
    rfl
  have hpairs : ∀ s ∈ G.cliqueFinset 3, ((univ.filter fun p : V × V => p.1 < p.2 ∧
      G.Adj p.1 p.2).bipartiteBelow (fun p s => p.1 ∈ s ∧ p.2 ∈ s) s).card = 3 := by
    intro s hs
    rw [SimpleGraph.mem_cliqueFinset_iff, SimpleGraph.isNClique_iff] at hs
    rw [← card_pairs hs.2]
    refine congrArg card (Finset.ext fun p => ?_)
    simp only [mem_bipartiteBelow, mem_filter, mem_univ, true_and, mem_product]
    exact ⟨fun hp => ⟨hp.2, hp.1.1⟩, fun hp => ⟨⟨hp.2, hs.1 hp.1.1 hp.1.2 hp.2.ne⟩, hp.1⟩⟩
  have hcount : (G.cliqueFinset 3).card = triangleCount G := by
    rw [triangleCount, ← SimpleGraph.coe_cliqueFinset, Set.ncard_coe_finset]
  calc ∑ p : V × V with p.1 < p.2 ∧ G.Adj p.1 p.2, (G.commonNeighbors p.1 p.2).ncard
      = ∑ p : V × V with p.1 < p.2 ∧ G.Adj p.1 p.2,
          ((G.cliqueFinset 3).bipartiteAbove (fun p s => p.1 ∈ s ∧ p.2 ∈ s) p).card :=
        sum_congr rfl fun p hp => hon p (mem_filter.mp hp).2
    _ = ∑ s ∈ G.cliqueFinset 3, ((univ.filter fun p : V × V => p.1 < p.2 ∧
          G.Adj p.1 p.2).bipartiteBelow (fun p s => p.1 ∈ s ∧ p.2 ∈ s) s).card :=
        sum_card_bipartiteAbove_eq_sum_card_bipartiteBelow _
    _ = 3 * triangleCount G := by rw [sum_congr rfl hpairs, sum_const, smul_eq_mul, hcount, mul_comm]

/-- Two vertices of a set that come before all others of it. -/
def FirstPair [LinearOrder V] (u v : V) (s : Finset V) : Prop :=
  u ∈ s ∧ v ∈ s ∧ u < v ∧ ∀ x ∈ s, x ≠ u → x ≠ v → v < x

/-- A set of three has one first pair. -/
theorem existsUnique_firstPair [LinearOrder V] {s : Finset V} (hs : s.card = 3) :
    ∃! p : V × V, FirstPair p.1 p.2 s := by
  let e := s.orderEmbOfFin hs
  have hmem : ∀ x, x ∈ s ↔ x = e 0 ∨ x = e 1 ∨ x = e 2 := fun x => by
    rw [← mem_coe, ← range_orderEmbOfFin s hs]
    constructor
    · rintro ⟨k, rfl⟩
      match k with
      | 0 => exact Or.inl rfl
      | 1 => exact Or.inr (Or.inl rfl)
      | 2 => exact Or.inr (Or.inr rfl)
    · rintro (rfl | rfl | rfl) <;> exact Set.mem_range_self _
  have h₀₁ : e 0 < e 1 := e.lt_iff_lt.mpr (by decide)
  have h₁₂ : e 1 < e 2 := e.lt_iff_lt.mpr (by decide)
  refine ⟨(e 0, e 1), ⟨(hmem _).mpr (Or.inl rfl), (hmem _).mpr (Or.inr (Or.inl rfl)), h₀₁,
    fun x hx hne₀ hne₁ => ?_⟩, fun p hp => ?_⟩
  · rcases (hmem x).mp hx with heq | heq | heq
    · exact absurd heq hne₀
    · exact absurd heq hne₁
    · exact heq ▸ h₁₂
  · obtain ⟨hu, hv, hlt, hlater⟩ := hp
    -- a pair that leaves out one of the first two has it after both
    have hfirst : p.1 = e 0 ∨ p.2 = e 0 := by
      by_contra hnot
      rw [not_or] at hnot
      have hafter := hlater (e 0) ((hmem _).mpr (Or.inl rfl)) (Ne.symm hnot.1) (Ne.symm hnot.2)
      rcases (hmem p.2).mp hv with heq | heq | heq <;> order
    have hsecond : p.1 = e 1 ∨ p.2 = e 1 := by
      by_contra hnot
      rw [not_or] at hnot
      have hafter := hlater (e 1) ((hmem _).mpr (Or.inr (Or.inl rfl))) (Ne.symm hnot.1)
        (Ne.symm hnot.2)
      rcases hfirst with hzero | hzero
      · rcases (hmem p.2).mp hv with heq | heq | heq <;> order
      · rcases (hmem p.1).mp hu with heq | heq | heq <;> order
    refine Prod.ext ?_ ?_ <;> rcases hfirst with hzero | hzero <;>
      rcases hsecond with hone | hone <;> order

/-- The 3-cliques that an edge is the first pair of are as many as the later common neighbours. -/
theorem ncard_cliques_first [LinearOrder V] (huv : G.Adj u v) (hlt : u < v) :
    {s | s ∈ G.cliqueSet 3 ∧ FirstPair u v s}.ncard =
      {w | v < w ∧ w ∈ G.commonNeighbors u v}.ncard := by
  have himage : {s | s ∈ G.cliqueSet 3 ∧ FirstPair u v s} =
      (fun w => ({u, v, w} : Finset V)) '' {w | v < w ∧ w ∈ G.commonNeighbors u v} := by
    refine Set.ext fun s => ⟨fun hs => ?_, fun hs => ?_⟩
    · obtain ⟨hclique, hu, hv, -, hlater⟩ := hs
      have hon : s ∈ {s | s ∈ G.cliqueSet 3 ∧ u ∈ s ∧ v ∈ s} := ⟨hclique, hu, hv⟩
      rw [cliques_on_eq_image huv] at hon
      obtain ⟨w, hw, heq⟩ := hon
      refine ⟨w, ⟨hlater w ?_ hw.1.ne' hw.2.ne', hw⟩, ?_⟩
      · rw [← show _ = s from heq]
        simp
      · rw [← show _ = s from heq]
        ext x
        simp
    · obtain ⟨w, hw, rfl⟩ := hs
      refine ⟨SimpleGraph.is3Clique_triple_iff.mpr ⟨huv, hw.2.1, hw.2.2⟩, by simp, by simp, hlt,
        fun x hx hne hne' => ?_⟩
      have hxw : x = w := by simpa [hne, hne'] using hx
      exact hxw ▸ hw.1
  rw [himage]
  refine Set.InjOn.ncard_image fun w hw w' hw' heq => injOn_triple hw.2 hw'.2 ?_
  convert heq

/-- The later common neighbours of all edges count every 3-clique once. -/
theorem sum_laterCommonNeighbors [Fintype V] [LinearOrder V] [DecidableRel G.Adj] :
    ∑ p : V × V with p.1 < p.2 ∧ G.Adj p.1 p.2,
      {w | p.2 < w ∧ w ∈ G.commonNeighbors p.1 p.2}.ncard = triangleCount G := by
  classical
  have hon : ∀ p : V × V, p.1 < p.2 ∧ G.Adj p.1 p.2 →
      {w | p.2 < w ∧ w ∈ G.commonNeighbors p.1 p.2}.ncard =
        ((G.cliqueFinset 3).bipartiteAbove (fun p s => FirstPair p.1 p.2 s) p).card := by
    intro p hp
    rw [← ncard_cliques_first hp.2 hp.1, ← Set.ncard_coe_finset]
    refine congrArg Set.ncard (Set.ext fun s => ?_)
    rw [mem_coe, mem_bipartiteAbove, SimpleGraph.mem_cliqueFinset_iff]
    rfl
  have hpairs : ∀ s ∈ G.cliqueFinset 3, ((univ.filter fun p : V × V => p.1 < p.2 ∧
      G.Adj p.1 p.2).bipartiteBelow (fun p s => FirstPair p.1 p.2 s) s).card = 1 := by
    intro s hs
    rw [SimpleGraph.mem_cliqueFinset_iff, SimpleGraph.isNClique_iff] at hs
    obtain ⟨p, hp, hunique⟩ := existsUnique_firstPair hs.2
    refine card_eq_one.mpr ⟨p, Finset.ext fun q => ?_⟩
    rw [mem_bipartiteBelow, mem_singleton]
    constructor
    · exact fun hq => hunique q hq.2
    · rintro rfl
      exact ⟨mem_filter.mpr ⟨mem_univ _, hp.2.2.1, hs.1 hp.1 hp.2.1 hp.2.2.1.ne⟩, hp⟩
  have hcount : (G.cliqueFinset 3).card = triangleCount G := by
    rw [triangleCount, ← SimpleGraph.coe_cliqueFinset, Set.ncard_coe_finset]
  calc ∑ p : V × V with p.1 < p.2 ∧ G.Adj p.1 p.2,
        {w | p.2 < w ∧ w ∈ G.commonNeighbors p.1 p.2}.ncard
      = ∑ p : V × V with p.1 < p.2 ∧ G.Adj p.1 p.2,
          ((G.cliqueFinset 3).bipartiteAbove (fun p s => FirstPair p.1 p.2 s) p).card :=
        sum_congr rfl fun p hp => hon p (mem_filter.mp hp).2
    _ = ∑ s ∈ G.cliqueFinset 3, ((univ.filter fun p : V × V => p.1 < p.2 ∧
          G.Adj p.1 p.2).bipartiteBelow (fun p s => FirstPair p.1 p.2 s) s).card :=
        sum_card_bipartiteAbove_eq_sum_card_bipartiteBelow _
    _ = triangleCount G := by rw [sum_congr rfl hpairs, sum_const, smul_eq_mul, hcount, mul_one]

/-- The complete graph on a set has a 3-clique for every three of its vertices. -/
theorem choose_le_triangleCount [Finite V] {S : Finset V}
    (hadj : ∀ x ∈ S, ∀ y ∈ S, x ≠ y → G.Adj x y) : S.card.choose 3 ≤ triangleCount G := by
  rw [← card_powersetCard, ← Set.ncard_coe_finset]
  refine Set.ncard_le_ncard (fun s hs => ?_) (Set.toFinite _)
  obtain ⟨hsub, hcard⟩ := mem_powersetCard.mp (mem_coe.mp hs)
  rw [SimpleGraph.mem_cliqueSet_iff, SimpleGraph.isNClique_iff]
  exact ⟨fun x hx y hy hne => hadj x (hsub hx) y (hsub hy) hne, hcard⟩

/-- Every 3-clique is among the vertices that have an edge. -/
theorem triangleCount_le_choose {S : Finset V} (hadj : ∀ x y, G.Adj x y → x ∈ S) :
    triangleCount G ≤ S.card.choose 3 := by
  rw [← card_powersetCard, ← Set.ncard_coe_finset]
  refine Set.ncard_le_ncard (fun s hs => ?_) (finite_toSet _)
  rw [SimpleGraph.mem_cliqueSet_iff, SimpleGraph.isNClique_iff] at hs
  refine mem_coe.mpr (mem_powersetCard.mpr ⟨fun x hx => ?_, hs.2⟩)
  have hmore : 1 < s.card := by omega
  obtain ⟨y, hy, hne⟩ := exists_mem_ne hmore x
  exact hadj x y (hs.1 hx hy hne.symm)

end Triangles
