import Mathlib
import VeloGraphX.Access.RankVectors
import VeloGraphX.Incremental.PageRank

/-!
# The static PageRank algorithm

The static algorithm scatters the contributions of a vertex along its out-row, the full solution of
the engine gathers them along in-rows. In exact arithmetic both perform the step of one damped random
walk, so their iterates are equal, and each is a probability distribution.
-/

namespace VeloGraphX

open FuelLoop ArcSet ReadableGraph PointUpdate PageRank
open DoubleArith (ofNat lt le)

/-- `degree`. -/
def CsrGraph.degree (g : CsrGraph) (v : VertexId) : Except Exception ℕ := (g.neighbors v).map List.length

section Model

variable {D : Type} [RankArith D] (g : CsrGraph) (damping : D) (fuel : ℕ)

/-- Scatter the contribution of one vertex. -/
def scatter (rank : List D) (u : VertexId) (next : List D) : List D :=
  match g.neighbors u with
  | .error _ => next
  | .ok nbrs =>
    if nbrs.isEmpty then next
    else
      let contribution := damping * rank.getD u 0.0 / ofNat nbrs.length
      nbrs.foldl (fun next (v : VertexId) => next.set v (next.getD v 0.0 + contribution)) next

/-- One iteration of `pagerank`, up to `next`; no row of a vertex throws. -/
def pagerankTurn (rank : List D) : Option (List D) :=
  let n := g.vertexCount
  (vertexLoop n (fun u dangling =>
    if (g.degree u).toOption = some 0 then dangling + rank.getD u 0.0 else dangling) fuel 0.0).bind
    fun dangling =>
  let base := (1.0 - damping) / ofNat n + damping * dangling / ofNat n
  vertexLoop n (scatter g damping rank) fuel (List.replicate n base)

/-- The iterations of `pagerank`. -/
def pagerankLoop (tolerance : D) : (left : ℕ) → List D → Option (List D)
  | 0, rank => some rank
  | left + 1, rank =>
    (pagerankTurn g damping fuel rank).bind fun next =>
    let error := (List.zip next rank).foldl
      (fun error (entry : D × D) => error + RankArith.abs (entry.1 - entry.2)) 0.0
    if lt error tolerance then some next else pagerankLoop tolerance left next

/-- `pagerank`. -/
def pagerank (damping : D := 0.85) (maxIterations : ℕ := 100) (tolerance : D := 1e-10) :
    Option (Except Exception (List D)) :=
  if !IncrementalPageRank.validDamping damping then
    some (.error (.invalidArgument "PageRank damping must be in [0, 1]"))
  else
    let n := g.vertexCount
    if n = 0 then some (.ok [])
    else
      (pagerankLoop g damping fuel tolerance maxIterations (List.replicate n (1.0 / ofNat n))).map .ok

end Model

section Literals

/-- The literal `0.0` of exact arithmetic. -/
@[simp] theorem zero_literal : (0.0 : ℚ) = 0 := by norm_num

/-- The literal `1.0` of exact arithmetic. -/
@[simp] theorem one_literal : (1.0 : ℚ) = 1 := by norm_num

end Literals

section Turns

variable {G : Type} [ReadableGraph G] {g : G} {arcs : ArcSet} {damping : ℚ} {rank : List ℚ}

/-- The lookup table holds the out-degrees. -/
theorem returns_outDegrees (g : G) (hn : vertexCount g < 2 ^ 32) :
    Returns (fun fuel => outDegrees g fuel) fun outDegree =>
      ∀ u : VertexId, u.val < vertexCount g → outDegree.getD u 0 = neighborCount g u := by
  refine (returns_vertexLoop hn _ _).mono fun outDegree houtDegree u hu => ?_
  have hlt : u.val < (List.replicate (vertexCount g) 0).length := by
    rw [List.length_replicate]
    exact hu
  have hfold := getD_foldl_set (fun v : VertexId => v.val) (fun _ v => neighborCount g v) 0
    (List.replicate (vertexCount g) 0) (idsBelow (vertexCount g)) u.val hlt
  have hfilter : ((idsBelow (vertexCount g)).filter fun v => decide (v.val = u.val)) = [u] := by
    simp only [Fin.val_inj]
    rw [List.filter_eq u, List.count_eq_one_of_mem (nodup_idsBelow hn.le) (mem_idsBelow.mpr hu),
      List.replicate_one]
  rw [houtDegree, hfold, hfilter]
  rfl

/-- Summing up the rank of the dangling vertices. -/
theorem returns_danglingMass (hn : vertexCount g < 2 ^ 32) (p : VertexId → Prop) [DecidablePred p]
    (hp : ∀ u : VertexId, u.val < vertexCount g → (p u ↔ succOf g u = ∅)) :
    Returns (fun fuel => vertexLoop (vertexCount g) (fun u mass =>
        if p u then mass + rank.getD u 0.0 else mass) fuel (0.0 : ℚ)) fun mass =>
      mass = RandomWalk.danglingMass (vertexSet g) (succOf g) (rankOf rank) := by
  refine (returns_vertexLoop hn _ _).mono fun mass hmass => ?_
  rw [hmass, foldl_add_if (nodup_idsBelow hn.le) p]
  simp only [zero_literal]
  rw [zero_add, RandomWalk.danglingMass]
  refine Finset.sum_congr (Finset.filter_congr fun u hu => ?_) fun u _ => rfl
  exact hp u (mem_vertexSet.mp hu)

/-- One iteration of the full solution is a step of the walk. -/
theorem ReadableGraph.Views.returns_solveTurn (h : Views g arcs) (hn : vertexCount g < 2 ^ 32)
    {outDegree : List ℕ}
    (houtDegree : ∀ u : VertexId, u.val < vertexCount g → outDegree.getD u 0 = neighborCount g u) :
    Returns (fun fuel => solveTurn g damping fuel outDegree rank) fun next =>
      next = nextRank g damping rank := by
  refine (returns_danglingMass hn (fun u => outDegree.getD u 0 = 0) fun u hu => by
    rw [houtDegree u hu, h.neighborCount_eq_zero_iff hu]).bind fun mass hmass => ?_
  refine (returns_vertexLoop hn _ _).mono fun next hnext => ?_
  simp only [zero_literal, one_literal] at hnext
  have hlength : next.length = vertexCount g := by
    rw [hnext, length_foldl_add, List.length_replicate]
  refine eq_nextRank hn.le hlength fun v hv => ?_
  have hlt : v.val < (List.replicate (vertexCount g)
      ((1 - damping) / ofNat (vertexCount g) + damping * mass / ofNat (vertexCount g))).length := by
    rw [List.length_replicate]
    exact hv
  rw [rankOf, hnext, getD_foldl_add (nodup_idsBelow hn.le) _ hlt, if_pos (mem_idsBelow.mpr hv),
    List.getD_replicate _ hv, walkStep, RandomWalk.step, RandomWalk.baseRank,
    card_vertexSet hn.le, ← hmass]
  congr 2
  have hgather := h.foldl_gather (fun u => outDegree.getD u 0) houtDegree rank hv
  rw [← hgather, gather]
  simp only [zero_literal]
  rfl

/-- The largest difference is not negative. -/
theorem residuals_nonneg (left right : List ℚ) : 0 ≤ (residuals left right).2 := by
  have hfold : ∀ (entries : List (ℚ × ℚ)) (acc : ℚ × ℚ), 0 ≤ acc.2 →
      0 ≤ (entries.foldl (fun (acc : ℚ × ℚ) (entry : ℚ × ℚ) =>
        (acc.1 + RankArith.abs (entry.1 - entry.2),
          RankArith.max acc.2 (RankArith.abs (entry.1 - entry.2)))) acc).2 := by
    intro entries
    induction entries with
    | nil => intro acc hacc; exact hacc
    | cons entry rest ih =>
      intro acc hacc
      refine ih _ ?_
      change 0 ≤ if decide (acc.2 < |entry.1 - entry.2|) then |entry.1 - entry.2| else acc.2
      split
      · exact abs_nonneg _
      · exact hacc
  exact hfold _ _ (by simp only [zero_literal, le_refl])

/-- The full solution returns an iterate, and the last one where no residual meets the tolerance. -/
theorem ReadableGraph.Views.returns_solveLoop (h : Views g arcs) (hn : vertexCount g < 2 ^ 32)
    {outDegree : List ℕ}
    (houtDegree : ∀ u : VertexId, u.val < vertexCount g → outDegree.getD u 0 = neighborCount g u)
    (damping tol : ℚ) (left it : ℕ) (result : FullSolveResult ℚ) :
    Returns (fun fuel => solveLoop g damping fuel outDegree tol left it result) fun result' =>
      ∃ k ≤ left, result'.values = (nextRank g damping)^[k] result.values ∧ (tol < 0 → k = left) := by
  induction left generalizing it result with
  | zero => exact Returns.pure ⟨0, le_rfl, rfl, fun _ => rfl⟩
  | succ left ih =>
    refine (h.returns_solveTurn hn houtDegree).bind fun next hnext => ?_
    subst hnext
    dsimp only
    split
    · rename_i hstop
      refine Returns.pure ⟨1, by omega, rfl, fun htol => absurd (of_decide_eq_true hstop) ?_⟩
      exact not_le.mpr (htol.trans_le (residuals_nonneg _ _))
    · refine (ih (it + 1) _).mono fun result' hresult' => ?_
      obtain ⟨k, hk, hvalues, hlast⟩ := hresult'
      exact ⟨k + 1, by omega, hvalues, fun htol => by rw [hlast htol]⟩

/-- The iterates of `full_solve`. -/
theorem ReadableGraph.Views.returns_fullSolve (h : Views g arcs) (hn : vertexCount g < 2 ^ 32)
    (maxIterations : ℕ) (tol : ℚ) :
    Returns (fun fuel => fullSolve g damping fuel maxIterations tol) fun result =>
      ∃ k ≤ maxIterations, result.values = (nextRank g damping)^[k] (uniform g) ∧
        (tol < 0 → k = maxIterations) := by
  unfold fullSolve
  by_cases hne : vertexCount g = 0
  · simp only [if_pos hne]
    exact Returns.pure ⟨maxIterations, le_rfl, (iterate_of_empty hne _ _).symm, fun _ => rfl⟩
  · simp only [if_neg hne]
    refine (returns_outDegrees g hn).bind fun outDegree houtDegree => ?_
    have hloop := h.returns_solveLoop hn houtDegree damping tol maxIterations 0
      { values := List.replicate (vertexCount g) (1.0 / ofNat (vertexCount g)), residualL1 := 0.0,
        residualLinf := 0.0 }
    refine hloop.mono fun result hresult => ?_
    obtain ⟨k, hk, hvalues, hlast⟩ := hresult
    refine ⟨k, hk, ?_, hlast⟩
    simp only [one_literal] at hvalues
    exact hvalues

end Turns

section Static

variable {g : CsrGraph} {arcs : ArcSet} {damping : ℚ} {rank : List ℚ}

/-- A row of the static graph. -/
theorem CsrGraph.Holds.row (h : g.Holds arcs) {u : VertexId} (hu : u.val < g.vertexCount) :
    g.neighbors u = .ok (forEachNeighbor g u) := by
  obtain ⟨row, hrow, -, -⟩ := h.neighbors u hu
  rw [show forEachNeighbor g u = (g.neighbors u).toOption.getD [] from rfl, hrow]
  rfl

/-- What one vertex scatters. -/
theorem CsrGraph.Holds.scatter_spec (h : g.Holds arcs) (damping : ℚ) (rank : List ℚ)
    {u : VertexId} (hu : u.val < g.vertexCount) (next : List ℚ) :
    (scatter g damping rank u next).length = next.length ∧
      ∀ v : VertexId, v.val < next.length → rankOf (scatter g damping rank u next) v =
        rankOf next v +
          if v ∈ succOf g u then damping * rankOf rank u / ((succOf g u).card : ℚ) else 0 := by
  have hcard : (forEachNeighbor g u).length = (succOf g u).card :=
    (List.toFinset_card_of_nodup (h.views.nodup u hu)).symm
  unfold scatter
  rw [h.row hu]
  dsimp only
  split
  · rename_i hempty
    have hnone : succOf g u = ∅ := by rw [succOf, List.isEmpty_iff.mp hempty, List.toFinset_nil]
    refine ⟨rfl, fun v _ => ?_⟩
    rw [hnone, if_neg (Finset.notMem_empty v), add_zero]
  · simp only [zero_literal, hcard]
    refine ⟨length_foldl_add _ _ _, fun v hv => ?_⟩
    have hcell := getD_foldl_add (h.views.nodup u hu)
      (fun _ => damping * rankOf rank u / ((succOf g u).card : ℚ)) hv
    simp only [succOf, List.mem_toFinset]
    exact hcell

/-- What all vertices of a list scatter. -/
theorem CsrGraph.Holds.foldl_scatter (h : g.Holds arcs) (damping : ℚ) (rank : List ℚ)
    (ids : List VertexId) (hids : ∀ u ∈ ids, u.val < g.vertexCount) (next : List ℚ) :
    (ids.foldl (fun next u => scatter g damping rank u next) next).length = next.length ∧
      ∀ v : VertexId, v.val < next.length →
        rankOf (ids.foldl (fun next u => scatter g damping rank u next) next) v = rankOf next v +
          (ids.map fun u =>
            if v ∈ succOf g u then damping * rankOf rank u / ((succOf g u).card : ℚ) else 0).sum := by
  induction ids generalizing next with
  | nil => exact ⟨rfl, fun v _ => (add_zero _).symm⟩
  | cons u rest ih =>
    obtain ⟨hlength, hcell⟩ := h.scatter_spec damping rank (hids u List.mem_cons_self) next
    obtain ⟨hlength', hcell'⟩ := ih (fun w hw => hids w (List.mem_cons_of_mem u hw))
      (scatter g damping rank u next)
    refine ⟨hlength'.trans hlength, fun v hv => ?_⟩
    rw [List.foldl_cons, hcell' v (hlength.symm ▸ hv), hcell v hv, List.map_cons, List.sum_cons,
      add_assoc]

/-- One iteration of the static algorithm is the same step of the walk. -/
theorem CsrGraph.Holds.returns_pagerankTurn (h : g.Holds arcs) (hn : g.vertexCount < 2 ^ 32) :
    Returns (fun fuel => pagerankTurn g damping fuel rank) fun next =>
      next = nextRank g damping rank := by
  have hdegree : ∀ u : VertexId, u.val < g.vertexCount →
      ((g.degree u).toOption = some 0 ↔ succOf g u = ∅) := by
    intro u hu
    rw [← h.views.neighborCount_eq_zero_iff hu, neighborCount_eq, CsrGraph.degree, h.row hu]
    exact Option.some_inj
  refine (returns_danglingMass (g := g) hn (fun u => (g.degree u).toOption = some 0)
    hdegree).bind fun mass hmass => ?_
  refine (returns_vertexLoop hn _ _).mono fun next hnext => ?_
  simp only [one_literal] at hnext
  obtain ⟨hlength, hcell⟩ := h.foldl_scatter damping rank (idsBelow g.vertexCount)
    (fun u hu => mem_idsBelow.mp hu) (List.replicate g.vertexCount
      ((1 - damping) / ofNat g.vertexCount + damping * mass / ofNat g.vertexCount))
  rw [← hnext] at hlength hcell
  rw [List.length_replicate] at hlength hcell
  refine eq_nextRank hn.le hlength fun v hv => ?_
  change v.val < g.vertexCount at hv
  have hscatter : ∑ u ∈ vertexSet g,
      (if v ∈ succOf g u then damping * rankOf rank u / ((succOf g u).card : ℚ) else 0) =
        damping * RandomWalk.incoming (succOf g) (predOf g) (rankOf rank) v := by
    rw [RandomWalk.incoming_eq_sum h.views.transposed (mem_vertexSet.mpr hv), Finset.mul_sum]
    refine Finset.sum_congr rfl fun u _ => ?_
    rw [mul_ite, mul_zero, mul_div_assoc]
  rw [hcell v hv, ← List.sum_toFinset _ (nodup_idsBelow hn.le), walkStep, RandomWalk.step,
    RandomWalk.baseRank, card_vertexSet hn.le, ← hmass, rankOf, List.getD_replicate _ hv]
  congr 1

/-- The error is not negative. -/
theorem error_nonneg (entries : List (ℚ × ℚ)) (error : ℚ) (herror : 0 ≤ error) :
    0 ≤ entries.foldl (fun error (entry : ℚ × ℚ) => error + RankArith.abs (entry.1 - entry.2))
      error := by
  induction entries generalizing error with
  | nil => exact herror
  | cons entry rest ih =>
    refine ih _ ?_
    change 0 ≤ error + |entry.1 - entry.2|
    positivity

/-- The static algorithm returns an iterate, and the last one where no error meets the tolerance. -/
theorem CsrGraph.Holds.returns_pagerankLoop (h : g.Holds arcs) (hn : g.vertexCount < 2 ^ 32)
    (tolerance : ℚ) (left : ℕ) (rank : List ℚ) :
    Returns (fun fuel => pagerankLoop g damping fuel tolerance left rank) fun result =>
      ∃ k ≤ left, result = (nextRank g damping)^[k] rank ∧ (tolerance ≤ 0 → k = left) := by
  induction left generalizing rank with
  | zero => exact Returns.pure ⟨0, le_rfl, rfl, fun _ => rfl⟩
  | succ left ih =>
    refine (h.returns_pagerankTurn hn).bind fun next hnext => ?_
    subst hnext
    dsimp only
    split
    · rename_i hstop
      refine Returns.pure ⟨1, by omega, rfl, fun htol => absurd (of_decide_eq_true hstop) ?_⟩
      refine not_lt.mpr (htol.trans (error_nonneg _ _ ?_))
      simp only [zero_literal, le_refl]
    · refine (ih _).mono fun result hresult => ?_
      obtain ⟨k, hk, hvalues, hlast⟩ := hresult
      exact ⟨k + 1, by omega, hvalues, fun htol => by rw [hlast htol]⟩

/-- The iterates of `pagerank`. -/
theorem CsrGraph.Holds.returns_pagerank (h : g.Holds arcs) (hn : g.vertexCount < 2 ^ 32)
    (hlow : 0 ≤ damping) (hhigh : damping ≤ 1) (maxIterations : ℕ) (tolerance : ℚ) :
    Returns (fun fuel => pagerank g fuel damping maxIterations tolerance) fun result =>
      ∃ k ≤ maxIterations, result = .ok ((nextRank g damping)^[k] (uniform g)) ∧
        (tolerance ≤ 0 → k = maxIterations) := by
  have hvalid : IncrementalPageRank.validDamping damping = true := by
    unfold IncrementalPageRank.validDamping
    simp only [zero_literal, one_literal]
    exact Bool.and_eq_true_iff.mpr ⟨decide_eq_true hlow, decide_eq_true hhigh⟩
  unfold pagerank
  simp only [hvalid, Bool.not_true, Bool.false_eq_true, if_false]
  by_cases hne : g.vertexCount = 0
  · simp only [if_pos hne]
    refine Returns.pure ⟨maxIterations, le_rfl, congrArg Except.ok ?_, fun _ => rfl⟩
    exact (iterate_of_empty (g := g) hne _ _).symm
  · simp only [if_neg hne, one_literal]
    refine Returns.map ((h.returns_pagerankLoop hn tolerance maxIterations _).mono
      fun result hresult => ?_)
    obtain ⟨k, hk, hvalues, hlast⟩ := hresult
    exact ⟨k, hk, congrArg Except.ok hvalues, hlast⟩

/-- The `k`-th iterates of both algorithms are one nonnegative vector, which sums to one where there
is a vertex; at every tolerance both algorithms return one of the iterates. -/
theorem iterates_agree (edges : List (VertexId × VertexId)) (directed : Bool) (damping : ℚ)
    (hlow : 0 ≤ damping) (hhigh : damping ≤ 1)
    (hn : (CsrGraph.create edges directed).vertexCount < 2 ^ 32) :
    let g := CsrGraph.create edges directed
    ∃ iterate : ℕ → List ℚ, ∀ k,
      Returns (fun fuel => pagerank g fuel damping k 0) (fun result => result = .ok (iterate k)) ∧
      Returns (fun fuel => fullSolve g damping fuel k (-1)) (fun result => result.values = iterate k) ∧
      (iterate k).length = g.vertexCount ∧ (∀ x ∈ iterate k, 0 ≤ x) ∧
      (g.vertexCount ≠ 0 → (iterate k).sum = 1) ∧
      ∀ tolerance,
        Returns (fun fuel => pagerank g fuel damping k tolerance)
          (fun result => ∃ j ≤ k, result = .ok (iterate j)) ∧
        Returns (fun fuel => fullSolve g damping fuel k tolerance)
          fun result => ∃ j ≤ k, result.values = iterate j := by
  dsimp only
  have hholds := CsrGraph.holds_create edges directed
  generalize CsrGraph.create edges directed = g at hholds hn ⊢
  refine ⟨fun k => (nextRank g damping)^[k] (uniform g), fun k => ?_⟩
  have hfacts := hholds.views.iterate_facts hn.le hlow hhigh k
  refine ⟨?_, ?_, hfacts.1, hfacts.2.1, hfacts.2.2, fun tolerance => ⟨?_, ?_⟩⟩
  · refine (hholds.returns_pagerank hn hlow hhigh k 0).mono fun result hresult => ?_
    obtain ⟨j, -, hvalues, hlast⟩ := hresult
    rw [hvalues, hlast le_rfl]
  · refine (hholds.views.returns_fullSolve hn k (-1)).mono fun result hresult => ?_
    obtain ⟨j, -, hvalues, hlast⟩ := hresult
    rw [hvalues, hlast (by norm_num)]
  · refine (hholds.returns_pagerank hn hlow hhigh k tolerance).mono fun result hresult => ?_
    obtain ⟨j, hj, hvalues, -⟩ := hresult
    exact ⟨j, hj, hvalues⟩
  · refine (hholds.views.returns_fullSolve hn k tolerance).mono fun result hresult => ?_
    obtain ⟨j, hj, hvalues, -⟩ := hresult
    exact ⟨j, hj, hvalues⟩

/-- A graph with a dangling vertex. -/
theorem iterates_agree_dangling :
    (CsrGraph.create [(0, 1), (1, 0), (1, 2)] true).vertexCount = 3 ∧
      ∃ ranks : List ℚ,
        Returns (fun fuel => pagerank (CsrGraph.create [(0, 1), (1, 0), (1, 2)] true) fuel (17 / 20) 5 0)
          (fun result => result = .ok ranks) ∧
        Returns (fun fuel => fullSolve (CsrGraph.create [(0, 1), (1, 0), (1, 2)] true) (17 / 20) fuel 5
          (-1)) (fun result => result.values = ranks) ∧ ranks.sum = 1 := by
  have hcount : (CsrGraph.create [(0, 1), (1, 0), (1, 2)] true).vertexCount = 3 := by
    rw [CsrGraph.vertexCount_create]
    decide
  obtain ⟨iterate, hiterate⟩ := iterates_agree [(0, 1), (1, 0), (1, 2)] true (17 / 20) (by norm_num)
    (by norm_num) (hcount ▸ by norm_num)
  obtain ⟨hstatic, hfull, -, -, hsum, -⟩ := hiterate 5
  exact ⟨hcount, iterate 5, hstatic, hfull, hsum (by rw [hcount]; norm_num)⟩

/-- The empty graph has nothing to sum up. -/
theorem not_iterates_agree :
    ¬ ∀ (edges : List (VertexId × VertexId)) (directed : Bool) (damping : ℚ), 0 ≤ damping →
      damping ≤ 1 → ∀ k, ∃ ranks : List ℚ,
        Returns (fun fuel => pagerank (CsrGraph.create edges directed) fuel damping k 0)
          (fun result => result = .ok ranks) ∧
        Returns (fun fuel => fullSolve (CsrGraph.create edges directed) damping fuel k (-1))
          (fun result => result.values = ranks) ∧
        (∀ x ∈ ranks, 0 ≤ x) ∧ ranks.sum = 1 := by
  intro h
  obtain ⟨ranks, -, hfull, -, hsum⟩ := h [] true 0 le_rfl zero_le_one 0
  have hempty : Returns (fun fuel => fullSolve (CsrGraph.create [] true) (0 : ℚ) fuel 0 (-1))
      fun result => result.values = [] := Returns.pure rfl
  obtain ⟨result, ⟨hranks, hnil⟩, -⟩ := hfull.and hempty
  rw [← hranks, hnil] at hsum
  exact absurd hsum (by norm_num)

end Static

end VeloGraphX
