import Mathlib
import VeloGraphX.Access.ReadableGraph
import VeloGraphX.Incremental.TriangleRuns
import VeloGraphX.Lib.SortedIntersection

/-!
# Counting the triangles of a static graph

The static algorithm goes over the vertices of a triangle in ascending order, so it finds every
3-clique once. The engine sums up the common neighbours of all edges and finds it three times. Both
count in 64 bits.
-/

namespace VeloGraphX

open FuelLoop ArcSet SortedList Triangles

namespace StaticTriangles

/-- The loop over two rows: entries up to `v` are skipped, and those of both rows counted. -/
def countAbove (v : VertexId) (nu nv : List VertexId) (triangles : ℕ) : ℕ :=
  match nu, nv with
  | a :: as, b :: bs =>
    if a ≤ v then countAbove v as (b :: bs) triangles
    else if b ≤ v then countAbove v (a :: as) bs triangles
    else if a = b then countAbove v as bs (addU64 triangles 1)
    else if a < b then countAbove v as (b :: bs) triangles
    else countAbove v (a :: as) bs triangles
  | _, _ => triangles
termination_by nu.length + nv.length

/-- One turn of the loop over the vertices; no row of a vertex throws. -/
def countFrom (g : CsrGraph) (u : VertexId) (triangles : ℕ) : ℕ :=
  let nu := ReadableGraph.forEachNeighbor g u
  nu.foldl (fun triangles (v : VertexId) =>
    if v ≤ u then triangles
    else countAbove v nu (ReadableGraph.forEachNeighbor g v) triangles) triangles

/-- `triangle_count`. -/
def triangleCount (g : CsrGraph) (fuel : ℕ) : Option (Except Exception ℕ) :=
  if g.directed then
    some (.error (.invalidArgument "triangle_count currently requires an undirected graph"))
  else (vertexLoop g.vertexCount (countFrom g) fuel 0).map .ok

/-- How many entries above `v` two rows share. -/
def sharedAbove (v : VertexId) (nu nv : List VertexId) : ℕ :=
  nu.countP fun w => decide (v < w ∧ w ∈ nv)

section Shared

variable {v a b : VertexId} {nu nv as bs : List VertexId}

/-- An entry that is not shared above `v` does not count. -/
theorem sharedAbove_cons_of_not (h : v < a → a ∉ nv) :
    sharedAbove v (a :: as) nv = sharedAbove v as nv :=
  List.countP_cons_of_neg (by simpa using h)

/-- An entry that is shared above `v` counts once. -/
theorem sharedAbove_cons_of_mem (hlt : v < a) (hmem : a ∈ nv) :
    sharedAbove v (a :: as) nv = sharedAbove v as nv + 1 :=
  List.countP_cons_of_pos (by simp [hlt, hmem])

/-- An entry that equals none of the others above `v` may be dropped. -/
theorem sharedAbove_of_forall_ne (h : ∀ w ∈ nu, v < w → w ≠ b) :
    sharedAbove v nu (b :: bs) = sharedAbove v nu bs := by
  refine List.countP_congr fun w hw => ?_
  simp only [decide_eq_true_eq, List.mem_cons]
  exact and_congr_right fun hlt => or_iff_right (h w hw hlt)

/-- Nothing is shared with an empty row. -/
theorem sharedAbove_of_ends (hends : ∀ a as b bs, nu = a :: as → nv = b :: bs → False) :
    sharedAbove v nu nv = 0 := by
  unfold sharedAbove
  cases nu with
  | nil => rfl
  | cons a as =>
    cases nv with
    | nil => simp
    | cons b bs => exact absurd rfl (hends a as b bs rfl)

end Shared

/-- The loop over two ascending rows counts what they share, in 64 bits. -/
theorem countAbove_eq (v : VertexId) (nu nv : List VertexId) (triangles : ℕ)
    (hu : Ascending id nu) (hv : Ascending id nv) (hlt : triangles < 2 ^ 64) :
    countAbove v nu nv triangles = (triangles + sharedAbove v nu nv) % 2 ^ 64 := by
  fun_induction countAbove v nu nv triangles with
  | case1 triangles a as b bs hskip ih =>
    rw [ih hu.of_cons hv hlt, sharedAbove_cons_of_not fun habove => absurd hskip habove.not_ge]
  | case2 triangles a as b bs hkeep hskip ih =>
    have hne : ∀ w ∈ a :: as, v < w → w ≠ b := fun w _ habove =>
      (lt_of_le_of_lt hskip habove).ne'
    rw [ih hu hv.of_cons hlt, sharedAbove_of_forall_ne hne]
  | case3 triangles as a bs hkeep _ ih =>
    have hlater : ∀ w ∈ as, v < w → w ≠ a := fun w hw _ =>
      ((List.pairwise_cons.mp hu).1 w hw).ne'
    rw [ih hu.of_cons hv.of_cons (Nat.mod_lt _ (by norm_num)), addU64, Nat.mod_add_mod,
      sharedAbove_cons_of_mem (not_le.mp hkeep) List.mem_cons_self,
      sharedAbove_of_forall_ne hlater]
    congr 1
    omega
  | case4 triangles a as b bs hkeep hkeep' hne hless ih =>
    have hmissing : a ∉ b :: bs := fun hmem => by
      rcases List.mem_cons.mp hmem with heq | hlater
      · exact hne heq
      · exact lt_asymm hless ((List.pairwise_cons.mp hv).1 a hlater)
    rw [ih hu.of_cons hv hlt, sharedAbove_cons_of_not fun _ => hmissing]
  | case5 triangles a as b bs hkeep hkeep' hne hless ih =>
    have hbefore : b < a := lt_of_le_of_ne (not_lt.mp hless) (Ne.symm hne)
    have hlater : ∀ w ∈ a :: as, v < w → w ≠ b := by
      intro w hw _
      rcases List.mem_cons.mp hw with rfl | hlater
      · exact hbefore.ne'
      · exact (hbefore.trans ((List.pairwise_cons.mp hu).1 w hlater)).ne'
    rw [ih hu hv.of_cons hlt, sharedAbove_of_forall_ne hlater]
  | case6 nu nv triangles hends =>
    rw [sharedAbove_of_ends hends, Nat.add_zero, Nat.mod_eq_of_lt hlt]

section Count

variable {g : CsrGraph} {arcs : ArcSet}

/-- An ascending row of the static graph. -/
theorem ascending_row (h : g.Holds arcs) {u : VertexId} (hu : u.val < g.vertexCount) :
    Ascending id (ReadableGraph.forEachNeighbor g u) := by
  obtain ⟨row, hrow, hascending, -⟩ := h.neighbors u hu
  rwa [show ReadableGraph.forEachNeighbor g u = (g.neighbors u).toOption.getD [] from rfl, hrow]

/-- What two rows share above the later vertex are the later common neighbours. -/
theorem sharedAbove_eq (h : g.Holds arcs) (hundirected : Undirected arcs) {u v : VertexId}
    (hu : u.val < g.vertexCount) (hv : v.val < g.vertexCount) :
    sharedAbove v (ReadableGraph.forEachNeighbor g u) (ReadableGraph.forEachNeighbor g v) =
      {w | v < w ∧ w ∈ (graphOf arcs).commonNeighbors u v}.ncard := by
  rw [sharedAbove, List.countP_eq_length_filter,
    ← List.toFinset_card_of_nodup ((h.views.nodup u hu).filter _), ← Set.ncard_coe_finset]
  refine congrArg Set.ncard (Set.ext fun w => ?_)
  rw [List.coe_toFinset, Set.mem_ofPred_eq, List.mem_filter, decide_eq_true_eq,
    h.views.mem_neighbor u hu, h.views.mem_neighbor v hv, Set.mem_ofPred_eq,
    SimpleGraph.mem_commonNeighbors, graphOf_adj hundirected h.simple.loopless,
    graphOf_adj hundirected h.simple.loopless]
  tauto

open Classical in
/-- One turn counts the 3-cliques whose first vertex it is, in 64 bits. -/
theorem countFrom_eq (h : g.Holds arcs) (hundirected : Undirected arcs) {u : VertexId}
    {triangles : ℕ} (hu : u.val < g.vertexCount) (hlt : triangles < 2 ^ 64) :
    countFrom g u triangles = (triangles + ∑ v : VertexId with u < v ∧ (graphOf arcs).Adj u v,
      {w | v < w ∧ w ∈ (graphOf arcs).commonNeighbors u v}.ncard) % 2 ^ 64 := by
  have hrow := h.views.mem_neighbor u hu
  have hwithin : ∀ v ∈ ReadableGraph.forEachNeighbor g u, v.val < g.vertexCount :=
    fun v hv => (h.simple.within u v ((hrow v).mp hv)).2
  have hfold := IncrementalTriangleCount.foldl_sum64 (ReadableGraph.forEachNeighbor g u)
    (fun v => decide (u < v))
    (fun v => sharedAbove v (ReadableGraph.forEachNeighbor g u) (ReadableGraph.forEachNeighbor g v))
    (fun v => countAbove v (ReadableGraph.forEachNeighbor g u)
      (ReadableGraph.forEachNeighbor g v))
    (fun v hv total htotal => countAbove_eq v _ _ total (ascending_row h hu)
      (ascending_row h (hwithin v hv)) htotal) triangles hlt
  simp only [decide_eq_true_eq] at hfold
  unfold countFrom
  simp only [← not_lt, ite_not]
  rw [hfold, ← List.sum_toFinset _ ((h.views.nodup u hu).filter _)]
  refine congrArg (fun sum => (triangles + sum) % 2 ^ 64)
    (Finset.sum_congr (Finset.ext fun v => ?_) fun v hv => ?_)
  · rw [List.mem_toFinset, List.mem_filter, Finset.mem_filter, hrow,
      graphOf_adj hundirected h.simple.loopless, decide_eq_true_eq]
    simp [and_comm]
  · rw [Finset.mem_filter, graphOf_adj hundirected h.simple.loopless] at hv
    exact sharedAbove_eq h hundirected hu (h.simple.within u v hv.2.2).2

/-- The static algorithm counts every 3-clique once, in 64 bits. -/
theorem returns_triangleCount (h : g.Holds arcs) (hdirected : g.directed = false)
    (hn : g.vertexCount < 2 ^ 32) :
    Returns (fun fuel => triangleCount g fuel) fun result =>
      result = .ok (Triangles.triangleCount (graphOf arcs) % 2 ^ 64) := by
  classical
  have hundirected : Undirected arcs := h.simple.undirected hdirected
  unfold triangleCount
  simp only [hdirected, Bool.false_eq_true, if_false]
  refine Returns.map ((IncrementalTriangleCount.returns_sumLoop hn (fun u =>
    ∑ v : VertexId with u < v ∧ (graphOf arcs).Adj u v,
      {w | v < w ∧ w ∈ (graphOf arcs).commonNeighbors u v}.ncard)
    fun u total hu hlt => countFrom_eq h hundirected hu hlt).mono fun total htotal => ?_)
  rw [htotal, IncrementalTriangleCount.sum_laterEnds hundirected h.simple.loopless h.simple.within
    (fun u v => {w | v < w ∧ w ∈ (graphOf arcs).commonNeighbors u v}.ncard),
    sum_laterCommonNeighbors]

end Count

section Engine

/-- The access functions of the static graph. It is not updated: it has no `apply`, and the engine's
own `apply` does not compile on it. -/
local instance staticAccess : GraphAccess CsrGraph where
  vertexCount g := g.vertexCount
  isDirected g := g.directed
  forEachNeighbor g u := (g.neighbors u).toOption.getD []
  forEachInNeighbor g v := (g.inNeighbors v).toOption.getD []
  hasEdge g u v := g.hasEdge u v
  applyUpdates g _ := g

/-- The sum that `recompute` accumulates. -/
def accumulated (g : CsrGraph) (fuel : ℕ) : Option ℕ :=
  countLoop g.vertexCount (fun _ u triple => some (IncrementalTriangleCount.addTriples g u triple))
    fuel (0 : VertexId) 0

/-- What `recompute` stores for the static graph. -/
def recomputed (g : CsrGraph) (fuel : ℕ) : Option ℕ :=
  (IncrementalTriangleCount.recompute { graph := g } fuel).map fun engine => engine.triangles

/-- `recompute` stores a third of the sum. -/
theorem recomputed_eq (g : CsrGraph) (fuel : ℕ) :
    recomputed g fuel = (accumulated g fuel).map fun triple => triple / 3 := by
  rw [recomputed, IncrementalTriangleCount.recompute, Option.map_map]
  rfl

variable {g : CsrGraph} {arcs : ArcSet}

/-- The static graph serves its arcs. -/
theorem serves (h : g.Holds arcs) : GraphAccess.Serves g arcs := by
  have hout : ∀ {u : VertexId}, ¬ u.val < g.vertexCount → GraphAccess.forEachNeighbor g u = [] :=
    fun {u} hu => by
      change (g.neighbors u).toOption.getD [] = []
      rw [CsrGraph.neighbors, if_pos (not_lt.mp hu)]
      rfl
  refine ⟨fun u => ?_, fun u v => ?_, h.hasEdge, h.simple⟩
  · by_cases hu : u.val < g.vertexCount
    · exact h.views.nodup u hu
    · rw [hout hu]
      exact List.nodup_nil
  · by_cases hu : u.val < g.vertexCount
    · exact h.views.mem_neighbor u hu v
    · rw [hout hu]
      exact iff_of_false List.not_mem_nil fun hmem => hu (h.simple.within u v hmem).1

/-- The accumulated sum counts every 3-clique three times, in 64 bits. -/
theorem returns_accumulated (h : g.Holds arcs) (hdirected : g.directed = false)
    (hn : g.vertexCount < 2 ^ 32) :
    Returns (fun fuel => accumulated g fuel) fun triple =>
      triple = 3 * Triangles.triangleCount (graphOf arcs) % 2 ^ 64 :=
  IncrementalTriangleCount.returns_triples (serves h) (h.simple.undirected hdirected) hn

end Engine

/-- The graph of one triangle has one 3-clique. -/
theorem triangleCount_triangle :
    Triangles.triangleCount (CsrGraph.create [(0, 1), (1, 2), (2, 0)] false).edgeGraph = 1 := by
  have hholds := CsrGraph.holds_create [(0, 1), (1, 2), (2, 0)] false
  have hadj : ∀ u v : VertexId, (CsrGraph.create [(0, 1), (1, 2), (2, 0)] false).edgeGraph.Adj u v ↔
      u ≠ v ∧ u ∈ ({0, 1, 2} : Finset VertexId) ∧ v ∈ ({0, 1, 2} : Finset VertexId) := by
    intro u v
    rw [hholds.edgeGraph_eq, graphOf_adj (hholds.simple.undirected rfl) hholds.simple.loopless]
    simp only [ofEdges, Set.mem_ofPred_eq, List.mem_cons, List.not_mem_nil, or_false, Prod.mk.injEq,
      Finset.mem_insert, Finset.mem_singleton, true_and]
    refine and_congr_right fun hne => ⟨by tauto, ?_⟩
    rintro ⟨rfl | rfl | rfl, rfl | rfl | rfl⟩ <;> simp at hne ⊢
  have hsingle : (CsrGraph.create [(0, 1), (1, 2), (2, 0)] false).edgeGraph.cliqueSet 3 =
      {{0, 1, 2}} := by
    refine Set.ext fun s => ⟨fun hs => ?_, ?_⟩
    · have hclique := SimpleGraph.mem_cliqueSet_iff.mp hs
      have hsub : s ⊆ {0, 1, 2} := by
        intro v hv
        obtain ⟨w, hw, hne⟩ := Finset.exists_mem_ne (by rw [hclique.card_eq]; norm_num) v
        exact ((hadj v w).mp (hclique.isClique hv hw hne.symm)).2.1
      refine Finset.eq_of_subset_of_card_le hsub ?_
      rw [hclique.card_eq]
      decide
    · rintro rfl
      refine SimpleGraph.mem_cliqueSet_iff.mpr (SimpleGraph.is3Clique_triple_iff.mpr ?_)
      simp only [hadj]
      decide
  rw [Triangles.triangleCount, hsingle, Set.ncard_singleton]

/-- Both algorithms count the 3-cliques in 64 bits, and exactly where 64 bits hold what they sum up. -/
theorem triangles_counted (edges : List (VertexId × VertexId))
    (hn : (CsrGraph.create edges false).vertexCount < 2 ^ 32) :
    let g := CsrGraph.create edges false
    let cliques := Triangles.triangleCount g.edgeGraph
    (Returns (fun fuel => triangleCount g fuel) (fun result => result = .ok (cliques % 2 ^ 64)) ∧
        Returns (fun fuel => accumulated g fuel) fun triple => triple = 3 * cliques % 2 ^ 64) ∧
      (cliques < 2 ^ 64 →
        Returns (fun fuel => triangleCount g fuel) fun result => result = .ok cliques) ∧
      (3 * cliques < 2 ^ 64 →
        Returns (fun fuel => accumulated g fuel) (fun triple => triple = 3 * cliques) ∧
          Returns (fun fuel => recomputed g fuel) fun value => value = cliques) := by
  dsimp only
  have hholds := CsrGraph.holds_create edges false
  have hcounted := returns_triangleCount hholds rfl hn
  have haccumulated := returns_accumulated hholds rfl hn
  rw [hholds.edgeGraph_eq]
  refine ⟨⟨hcounted, haccumulated⟩, fun hfits => ?_, fun hfits => ⟨?_, ?_⟩⟩
  · rwa [Nat.mod_eq_of_lt hfits] at hcounted
  · rwa [Nat.mod_eq_of_lt hfits] at haccumulated
  · simp only [recomputed_eq]
    refine Returns.map (haccumulated.mono fun triple htriple => ?_)
    rw [htriple, Nat.mod_eq_of_lt hfits, Nat.mul_div_cancel_left _ (by norm_num)]

/-- One triangle. -/
theorem triangles_counted_one :
    let g := CsrGraph.create [(0, 1), (1, 2), (2, 0)] false
    Returns (fun fuel => triangleCount g fuel) (fun result => result = .ok 1) ∧
      Returns (fun fuel => accumulated g fuel) (fun triple => triple = 3) ∧
        Returns (fun fuel => recomputed g fuel) fun value => value = 1 := by
  intro g
  obtain ⟨-, hcount, hsum⟩ := triangles_counted [(0, 1), (1, 2), (2, 0)]
    (by rw [CsrGraph.vertexCount_create]; decide)
  rw [triangleCount_triangle] at hcount hsum
  obtain ⟨haccumulated, hrecomputed⟩ := hsum (by norm_num)
  exact ⟨hcount (by norm_num), haccumulated, hrecomputed⟩

/-- The graph of all pairs of `2 ^ 23` vertices has more 3-cliques than 64 bits hold. -/
theorem not_triangles_counted :
    ¬ ∀ edges : List (VertexId × VertexId), (CsrGraph.create edges false).vertexCount < 2 ^ 32 →
      let g := CsrGraph.create edges false
      let cliques := Triangles.triangleCount g.edgeGraph
      Returns (fun fuel => triangleCount g fuel) (fun result => result = .ok cliques) ∧
        Returns (fun fuel => recomputed g fuel) (fun value => value = cliques) ∧
        Returns (fun fuel => accumulated g fuel) fun triple => 3 ∣ triple := by
  intro h
  have hlt : ∀ n, n < 2 ^ 32 → n.choose 3 < 2 ^ 64 := fun n hn => by
    obtain ⟨edges, hedges⟩ : ∃ edges, edges = IncrementalTriangleCount.allPairs n := ⟨_, rfl⟩
    have hcount : (CsrGraph.create edges false).vertexCount < 2 ^ 32 := by
      refine ((CsrGraph.vertexCount_create_le_iff edges false).mpr fun edge hedge _ => ?_).trans_lt hn
      rw [hedges, IncrementalTriangleCount.allPairs, List.mem_flatMap] at hedge
      obtain ⟨u, hu, hmem⟩ := hedge
      obtain ⟨v, hv, rfl⟩ := List.mem_map.mp hmem
      exact ⟨of_decide_eq_true (List.mem_filter.mp hu).2, of_decide_eq_true (List.mem_filter.mp hv).2⟩
    have hholds := CsrGraph.holds_create edges false
    obtain ⟨result, ⟨hexact, hmod⟩, -⟩ :=
      (h edges hcount).1.and (returns_triangleCount hholds rfl hcount)
    rw [hexact, hholds.edgeGraph_eq] at hmod
    have hfits := Except.ok.inj hmod
    have hchoose := IncrementalTriangleCount.choose_le_allPairs hn.le
    rw [← hedges] at hchoose
    refine hchoose.trans_lt ?_
    rw [hfits]
    exact Nat.mod_lt _ (by norm_num)
  have hsmall := hlt 8388608 (by norm_num)
  have hlarge := IncrementalTriangleCount.six_mul_choose 8388608
  omega

end StaticTriangles

end VeloGraphX
