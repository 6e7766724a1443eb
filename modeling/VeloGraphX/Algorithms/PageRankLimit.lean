import Mathlib
import VeloGraphX.Algorithms.StaticPageRank
import VeloGraphX.Lib.RandomWalkLimit

/-!
# What PageRank approximates

Below damping one a graph has exactly one stationary rank vector, and it is a distribution. The
static algorithm and the full solution of the engine stop after a short step or run out of
iterations; in exact arithmetic both reasons bound how far their result is from the stationary one.
-/

namespace VeloGraphX

open FuelLoop ArcSet ReadableGraph PageRank
open DoubleArith (ofNat lt le)

namespace PageRank

section Errors

/-- The sum of the differences of two vectors. -/
def l1Error (left right : List ℚ) : ℚ := ((List.zip left right).map fun entry => |entry.1 - entry.2|).sum

/-- The error that the static algorithm tests is the sum of the differences. -/
theorem foldl_error (entries : List (ℚ × ℚ)) (error : ℚ) :
    entries.foldl (fun error (entry : ℚ × ℚ) => error + RankArith.abs (entry.1 - entry.2)) error =
      error + (entries.map fun entry => |entry.1 - entry.2|).sum := by
  induction entries generalizing error with
  | nil => exact (add_zero error).symm
  | cons entry rest ih =>
    rw [List.foldl_cons, ih, List.map_cons, List.sum_cons, ← add_assoc]
    rfl

/-- The residuals of the full solution: the sum of the differences, and a bound of each of them. -/
theorem residuals_spec (left right : List ℚ) :
    (residuals left right).1 = l1Error left right ∧
      l1Error left right ≤ (List.zip left right).length * (residuals left right).2 := by
  have hfold : ∀ (entries : List (ℚ × ℚ)) (acc : ℚ × ℚ),
      let last := entries.foldl (fun (acc entry : ℚ × ℚ) =>
        (acc.1 + RankArith.abs (entry.1 - entry.2),
          RankArith.max acc.2 (RankArith.abs (entry.1 - entry.2)))) acc
      last.1 = acc.1 + (entries.map fun entry => |entry.1 - entry.2|).sum ∧ acc.2 ≤ last.2 ∧
        (entries.map fun entry => |entry.1 - entry.2|).sum ≤ entries.length * last.2 := by
    intro entries
    induction entries with
    | nil => exact fun acc => ⟨(add_zero _).symm, le_rfl, by simp⟩
    | cons entry rest ih =>
      intro acc
      obtain ⟨hsum, hkept, hbound⟩ := ih (acc.1 + |entry.1 - entry.2|,
        RankArith.max acc.2 |entry.1 - entry.2|)
      have hmax : acc.2 ≤ RankArith.max acc.2 |entry.1 - entry.2| ∧
          |entry.1 - entry.2| ≤ RankArith.max acc.2 |entry.1 - entry.2| := by
        change acc.2 ≤ (if decide (acc.2 < |entry.1 - entry.2|) then |entry.1 - entry.2| else acc.2) ∧
          |entry.1 - entry.2| ≤
            if decide (acc.2 < |entry.1 - entry.2|) then |entry.1 - entry.2| else acc.2
        split
        · rename_i hless
          exact ⟨(of_decide_eq_true hless).le, le_rfl⟩
        · rename_i hless
          exact ⟨le_rfl, not_lt.mp fun h => hless (decide_eq_true h)⟩
      refine ⟨?_, hmax.1.trans hkept, ?_⟩
      · rw [List.map_cons, List.sum_cons, ← add_assoc]
        exact hsum
      · rw [List.map_cons, List.sum_cons, List.length_cons, Nat.cast_add, Nat.cast_one, add_mul,
          one_mul, add_comm]
        exact add_le_add hbound (hmax.2.trans hkept)
  obtain ⟨hsum, -, hbound⟩ := hfold (List.zip left right) (0.0, 0.0)
  refine ⟨?_, hbound⟩
  rw [residuals, l1Error, hsum, zero_literal, zero_add]

end Errors

section Limit

variable {G : Type} [ReadableGraph G] {g : G} {arcs : ArcSet} {damping : ℚ} {rank rank' limit : List ℚ}

/-- A rank vector that an iteration leaves alone. -/
structure Stationary (g : G) (damping : ℚ) (rank : List ℚ) : Prop where
  length_eq : rank.length = vertexCount g
  fixed : nextRank g damping rank = rank

/-- The cells of a vector that is written down vertex by vertex. -/
theorem rankOf_map (f : VertexId → ℚ) {v : VertexId} (hv : v.val < vertexCount g) :
    rankOf ((idsBelow (vertexCount g)).map f) v = f v := by
  have hlt : v.val < ((idsBelow (vertexCount g)).map f).length := by
    rw [List.length_map, idsBelow, List.length_map, List.length_range]
    exact hv
  rw [rankOf, List.getD_eq_getElem _ _ hlt]
  simp only [idsBelow, List.getElem_map, List.getElem_range]
  exact congrArg f (Fin.ext (Nat.mod_eq_of_lt v.isLt))

/-- The vector after a step has one entry a vertex. -/
theorem length_nextRank (g : G) (damping : ℚ) (rank : List ℚ) :
    (nextRank g damping rank).length = vertexCount g := by
  rw [nextRank, List.length_map, idsBelow, List.length_map, List.length_range]

/-- The error of two rank vectors is their distance. -/
theorem l1Error_eq_distance (hn : vertexCount g ≤ 2 ^ 32) (hrank : rank.length = vertexCount g)
    (hrank' : rank'.length = vertexCount g) :
    l1Error rank rank' = RandomWalk.distance (vertexSet g) (rankOf rank) (rankOf rank') := by
  have hlength : (List.zipWith (fun x y => |x - y|) rank rank').length = vertexCount g := by
    rw [List.length_zipWith, hrank, hrank', min_self]
  have hzip : l1Error rank rank' = (List.zipWith (fun x y => |x - y|) rank rank').sum := by
    rw [l1Error, List.zip, List.map_zipWith]
  rw [hzip, ← sum_rankOf hn hlength]
  refine Finset.sum_congr rfl fun v hv => ?_
  have hv' := mem_vertexSet.mp hv
  rw [rankOf, rankOf, rankOf, List.getD_eq_getElem _ _ (hlength ▸ hv'), List.getElem_zipWith,
    List.getD_eq_getElem _ _ (hrank ▸ hv'), List.getD_eq_getElem _ _ (hrank' ▸ hv')]

/-- Being stationary is being so for the random walk. -/
theorem stationary_iff (hn : vertexCount g ≤ 2 ^ 32) :
    Stationary g damping rank ↔ rank.length = vertexCount g ∧
      RandomWalk.Stationary (vertexSet g) (succOf g) (predOf g) damping (rankOf rank) := by
  constructor
  · refine fun h => ⟨h.length_eq, fun v hv => ?_⟩
    have hcell : rankOf (nextRank g damping rank) v = walkStep g damping rank v :=
      rankOf_nextRank (mem_vertexSet.mp hv)
    rw [h.fixed] at hcell
    exact hcell.symm
  · rintro ⟨hlength, hstationary⟩
    refine ⟨hlength, (eq_nextRank hn hlength fun v hv => ?_).symm⟩
    exact (hstationary v (mem_vertexSet.mpr hv)).symm

/-- Below damping one there is exactly one stationary vector. -/
theorem existsUnique_stationary (h : Views g arcs) (hn : vertexCount g ≤ 2 ^ 32) (hlow : 0 ≤ damping)
    (hhigh : damping < 1) : ∃ ranks, ∀ other, Stationary g damping other ↔ other = ranks := by
  obtain ⟨limit, hlimit⟩ := RandomWalk.exists_stationary h.transposed hlow hhigh
  have hcells : ∀ v ∈ vertexSet g, rankOf ((idsBelow (vertexCount g)).map limit) v = limit v :=
    fun v hv => rankOf_map limit (mem_vertexSet.mp hv)
  have hstationary : Stationary g damping ((idsBelow (vertexCount g)).map limit) := by
    refine (stationary_iff hn).mpr ⟨?_, fun v hv => ?_⟩
    · rw [List.length_map, idsBelow, List.length_map, List.length_range]
    · rw [RandomWalk.step_eq_spread, RandomWalk.spread_congr h.transposed hcells hv,
        ← RandomWalk.step_eq_spread, hlimit v hv, hcells v hv]
  refine ⟨_, fun other => ⟨fun hother => ?_, fun heq => heq ▸ hstationary⟩⟩
  have hlength := hstationary.length_eq
  refine List.ext_getElem (hother.length_eq.trans hlength.symm) fun i hi hi' => ?_
  have hlt : i < 2 ^ 32 := (hi.trans_le hother.length_eq.le).trans_le hn
  have hcell := ((stationary_iff hn).mp hstationary).2.unique ((stationary_iff hn).mp hother).2
    h.transposed hlow hhigh (v := ⟨i, hlt⟩) (mem_vertexSet.mpr (hi.trans_le hother.length_eq.le))
  rwa [rankOf, rankOf, List.getD_eq_getElem _ _ hi, List.getD_eq_getElem _ _ hi'] at hcell

/-- The stationary vector is a distribution. -/
theorem Stationary.distribution (hlimit : Stationary g damping limit) (h : Views g arcs)
    (hn : vertexCount g ≤ 2 ^ 32) (hne : vertexCount g ≠ 0) (hlow : 0 ≤ damping) (hhigh : damping < 1) :
    Distribution g limit := by
  have hwalk := ((stationary_iff hn).mp hlimit).2
  have hnonempty : (vertexSet g).Nonempty :=
    Finset.card_pos.mp ((card_vertexSet hn).symm ▸ Nat.pos_of_ne_zero hne)
  refine ⟨hlimit.length_eq, fun x hx => ?_, ?_⟩
  · obtain ⟨i, hi, rfl⟩ := List.getElem_of_mem hx
    have hlt : i < 2 ^ 32 := (hi.trans_le hlimit.length_eq.le).trans_le hn
    have hcell := hwalk.nonneg h.transposed hlow hhigh (v := ⟨i, hlt⟩)
      (mem_vertexSet.mpr (hi.trans_le hlimit.length_eq.le))
    rwa [rankOf, List.getD_eq_getElem _ _ hi] at hcell
  · rw [← sum_rankOf hn hlimit.length_eq]
    exact hwalk.sum_eq h.transposed hhigh hnonempty

/-- A step brings a vector closer to the stationary one, and how far it went tells how far the
result still is. -/
theorem Stationary.nextRank_near (hlimit : Stationary g damping limit) (h : Views g arcs)
    (hn : vertexCount g ≤ 2 ^ 32) (hlow : 0 ≤ damping) (hrank : rank.length = vertexCount g) :
    l1Error (nextRank g damping rank) limit ≤ damping * l1Error rank limit ∧
      (1 - damping) * l1Error (nextRank g damping rank) limit ≤
        damping * l1Error (nextRank g damping rank) rank := by
  have hwalk := ((stationary_iff hn).mp hlimit).2
  have hnext := length_nextRank g damping rank
  have hcells : ∀ v ∈ vertexSet g, rankOf (nextRank g damping rank) v =
      RandomWalk.step (vertexSet g) (succOf g) (predOf g) damping (rankOf rank) v :=
    fun v hv => rankOf_nextRank (mem_vertexSet.mp hv)
  rw [l1Error_eq_distance hn hnext hlimit.length_eq, l1Error_eq_distance hn hrank hlimit.length_eq,
    l1Error_eq_distance hn hnext hrank, RandomWalk.distance_congr hcells fun _ _ => rfl,
    RandomWalk.distance_congr hcells fun _ _ => rfl]
  exact ⟨hwalk.distance_step_le h.transposed hlow _, hwalk.distance_le h.transposed hlow _⟩

/-- The iterates come closer to the stationary vector with every step. -/
theorem Stationary.iterate_near (hlimit : Stationary g damping limit) (h : Views g arcs)
    (hn : vertexCount g ≤ 2 ^ 32) (hlow : 0 ≤ damping) (hhigh : damping < 1) (k : ℕ) :
    l1Error ((nextRank g damping)^[k] (uniform g)) limit ≤ 2 * damping ^ k := by
  by_cases hempty : vertexCount g = 0
  · rw [iterate_of_empty hempty, l1Error, List.zip_nil_left, List.map_nil, List.sum_nil]
    positivity
  have hiterate := h.distribution_iterate hn hempty hlow hhigh.le
  induction k with
  | zero =>
    have hfirst := distribution_uniform hempty
    have hlast := hlimit.distribution h hn hempty hlow hhigh
    have hcell : ∀ {ranks}, Distribution g ranks → ∀ v ∈ vertexSet g, 0 ≤ rankOf ranks v := by
      intro ranks hranks v hv
      have hlt : v.val < ranks.length := hranks.length_eq ▸ mem_vertexSet.mp hv
      rw [rankOf, List.getD_eq_getElem _ _ hlt]
      exact hranks.nonneg _ (List.getElem_mem hlt)
    rw [Function.iterate_zero, id_eq, pow_zero, mul_one,
      l1Error_eq_distance hn hfirst.length_eq hlast.length_eq]
    exact RandomWalk.distance_le_two (hcell hfirst) ((sum_rankOf hn hfirst.length_eq).trans hfirst.sum_eq)
      (hcell hlast) ((sum_rankOf hn hlast.length_eq).trans hlast.sum_eq)
  | succ k ih =>
    rw [Function.iterate_succ_apply']
    calc l1Error (nextRank g damping ((nextRank g damping)^[k] (uniform g))) limit
        ≤ damping * l1Error ((nextRank g damping)^[k] (uniform g)) limit :=
          (hlimit.nextRank_near h hn hlow (hiterate k).length_eq).1
      _ ≤ damping * (2 * damping ^ k) := mul_le_mul_of_nonneg_left ih hlow
      _ = 2 * damping ^ (k + 1) := by ring

end Limit

section FullSolve

variable {G : Type} [ReadableGraph G] {g : G} {arcs : ArcSet} {damping tol : ℚ} {limit : List ℚ}

/-- What the result of a full solution says about itself: it has converged after a short step, or
all iterations were made. -/
structure SolveSpec (g : G) (damping tol : ℚ) (maxIterations : ℕ) (result : FullSolveResult ℚ) : Prop where
  length_eq : result.values.length = vertexCount g
  iterate : ∃ k ≤ maxIterations, result.values = (nextRank g damping)^[k] (uniform g) ∧
    (result.converged = false → k = maxIterations)
  short : result.converged = true → vertexCount g = 0 ∨ ∃ values, values.length = vertexCount g ∧
    result.values = nextRank g damping values ∧
      l1Error result.values values ≤ vertexCount g * tol

/-- The loop of the full solution, from any number of iterations on. -/
theorem returns_solveLoop_spec (h : Views g arcs) (hn : vertexCount g < 2 ^ 32) {outDegree : List ℕ}
    (houtDegree : ∀ u : VertexId, u.val < vertexCount g → outDegree.getD u 0 = neighborCount g u)
    (damping tol : ℚ) (left it done : ℕ) {result : FullSolveResult ℚ}
    (hlength : result.values.length = vertexCount g) (hconverged : result.converged = false)
    (hvalues : result.values = (nextRank g damping)^[done] (uniform g)) :
    Returns (fun fuel => solveLoop g damping fuel outDegree tol left it result)
      (SolveSpec g damping tol (done + left)) := by
  induction left generalizing it done result with
  | zero =>
    refine Returns.pure ⟨hlength, ⟨done, le_rfl, hvalues, fun _ => rfl⟩, fun htrue => ?_⟩
    exact absurd (hconverged.symm.trans htrue) nofun
  | succ left ih =>
    refine (h.returns_solveTurn hn houtDegree).bind fun next hnext => ?_
    subst hnext
    have hnext := length_nextRank g damping result.values
    have hiterate : nextRank g damping result.values =
        (nextRank g damping)^[done + 1] (uniform g) := by
      rw [Function.iterate_succ_apply', ← hvalues]
    dsimp only
    split
    · rename_i hstop
      have hsmall : (residuals (nextRank g damping result.values) result.values).2 ≤ tol :=
        of_decide_eq_true hstop
      have hzip : (List.zip (nextRank g damping result.values) result.values).length =
          vertexCount g := by rw [List.length_zip, hnext, hlength, min_self]
      refine Returns.pure ⟨hnext, ⟨done + 1, by omega, hiterate, nofun⟩, fun _ =>
        Or.inr ⟨result.values, hlength, rfl, ?_⟩⟩
      have hbound := (residuals_spec (nextRank g damping result.values) result.values).2
      rw [hzip] at hbound
      exact hbound.trans (mul_le_mul_of_nonneg_left hsmall (Nat.cast_nonneg _))
    · rw [Nat.add_comm left 1, ← Nat.add_assoc]
      exact ih (it + 1) (done + 1) hnext hconverged hiterate

/-- What `full_solve` returns. -/
theorem returns_fullSolve_spec (h : Views g arcs) (hn : vertexCount g < 2 ^ 32) (damping tol : ℚ)
    (maxIterations : ℕ) :
    Returns (fun fuel => fullSolve g damping fuel maxIterations tol)
      (SolveSpec g damping tol maxIterations) := by
  unfold fullSolve
  by_cases hne : vertexCount g = 0
  · simp only [if_pos hne]
    exact Returns.pure ⟨hne.symm, ⟨0, Nat.zero_le _, (iterate_of_empty hne _ _).symm, nofun⟩,
      fun _ => Or.inl hne⟩
  · simp only [if_neg hne]
    refine (returns_outDegrees g hn).bind fun outDegree houtDegree => ?_
    let start : FullSolveResult ℚ :=
      { values := List.replicate (vertexCount g) (1.0 / ofNat (vertexCount g)), residualL1 := 0.0,
        residualLinf := 0.0 }
    have hlength : start.values.length = vertexCount g := List.length_replicate
    have hvalues : start.values = (nextRank g damping)^[0] (uniform g) := by
      rw [Function.iterate_zero, id_eq, uniform, ← one_literal]
      rfl
    have hloop := returns_solveLoop_spec h hn houtDegree damping tol maxIterations 0 0 hlength rfl hvalues
    rwa [Nat.zero_add] at hloop

/-- How far the result of a full solution is from the stationary vector. -/
theorem SolveSpec.near {maxIterations : ℕ} {result : FullSolveResult ℚ}
    (hresult : SolveSpec g damping tol maxIterations result) (hlimit : Stationary g damping limit)
    (h : Views g arcs) (hn : vertexCount g ≤ 2 ^ 32) (hlow : 0 ≤ damping) (hhigh : damping < 1) :
    (result.converged = true →
        (1 - damping) * l1Error result.values limit ≤ damping * (vertexCount g * tol)) ∧
      (result.converged = false → l1Error result.values limit ≤ 2 * damping ^ maxIterations) := by
  constructor
  · intro hconverged
    rcases hresult.short hconverged with hempty | ⟨values, hlength, hvalues, hshort⟩
    · have hnil : result.values = [] := List.length_eq_zero_iff.mp (hresult.length_eq.trans hempty)
      rw [hnil, l1Error, List.zip_nil_left, List.map_nil, List.sum_nil, hempty]
      simp
    · have hnear := (hlimit.nextRank_near h hn hlow hlength).2
      rw [← hvalues] at hnear
      exact hnear.trans (mul_le_mul_of_nonneg_left hshort hlow)
  · intro hconverged
    obtain ⟨k, -, hvalues, hlast⟩ := hresult.iterate
    rw [hvalues, hlast hconverged]
    exact hlimit.iterate_near h hn hlow hhigh maxIterations

end FullSolve

end PageRank

/-- A damping between zero and one passes the check. -/
theorem validDamping_of_mem {damping : ℚ} (hlow : 0 ≤ damping) (hhigh : damping ≤ 1) :
    IncrementalPageRank.validDamping damping = true := by
  unfold IncrementalPageRank.validDamping
  simp only [zero_literal, one_literal]
  exact Bool.and_eq_true_iff.mpr ⟨decide_eq_true hlow, decide_eq_true hhigh⟩

section Static

variable {g : CsrGraph} {arcs : ArcSet} {damping : ℚ} {limit : List ℚ}

/-- The loop of the static algorithm: all iterations were made, or the last one was short. -/
theorem CsrGraph.Holds.returns_pagerankLoop_spec (h : g.Holds arcs) (hn : g.vertexCount < 2 ^ 32)
    (tolerance : ℚ) (left done : ℕ) {rank : List ℚ} (hlength : rank.length = g.vertexCount)
    (hrank : rank = (nextRank g damping)^[done] (uniform g)) :
    Returns (fun fuel => pagerankLoop g damping fuel tolerance left rank) fun result =>
      result.length = g.vertexCount ∧
        (result = (nextRank g damping)^[done + left] (uniform g) ∨
          ∃ values : List ℚ, values.length = g.vertexCount ∧ result = nextRank g damping values ∧
            l1Error result values < tolerance) := by
  induction left generalizing done rank with
  | zero => exact Returns.pure ⟨hlength, Or.inl hrank⟩
  | succ left ih =>
    refine (h.returns_pagerankTurn hn).bind fun next hnext => ?_
    subst hnext
    have hnext : (nextRank g damping rank).length = g.vertexCount := length_nextRank g damping rank
    dsimp only
    split
    · rename_i hstop
      refine Returns.pure ⟨hnext, Or.inr ⟨rank, hlength, rfl, ?_⟩⟩
      rw [foldl_error, zero_literal, zero_add] at hstop
      exact of_decide_eq_true hstop
    · rw [Nat.add_comm left 1, ← Nat.add_assoc]
      exact ih (done + 1) hnext (by rw [Function.iterate_succ_apply', ← hrank])

/-- How far the result of `pagerank` is from the stationary vector. -/
theorem CsrGraph.Holds.returns_pagerank_near (h : g.Holds arcs) (hn : g.vertexCount < 2 ^ 32)
    (hlow : 0 ≤ damping) (hhigh : damping < 1) (hlimit : Stationary g damping limit)
    (maxIterations : ℕ) (tolerance : ℚ) :
    Returns (fun fuel => pagerank g fuel damping maxIterations tolerance) fun result =>
      ∃ ranks, result = .ok ranks ∧ ranks.length = g.vertexCount ∧
        (l1Error ranks limit ≤ 2 * damping ^ maxIterations ∨
          (1 - damping) * l1Error ranks limit ≤ damping * tolerance) := by
  have hvalid := validDamping_of_mem hlow hhigh.le
  have hiterate := hlimit.iterate_near h.views hn.le hlow hhigh maxIterations
  unfold pagerank
  simp only [hvalid, Bool.not_true, Bool.false_eq_true, if_false]
  by_cases hne : g.vertexCount = 0
  · simp only [if_pos hne]
    rw [iterate_of_empty (g := g) hne] at hiterate
    exact Returns.pure ⟨[], rfl, hne.symm, Or.inl hiterate⟩
  · simp only [if_neg hne, one_literal]
    refine Returns.map ((h.returns_pagerankLoop_spec hn tolerance maxIterations 0
      List.length_replicate rfl).mono fun result hresult => ?_)
    obtain ⟨hlength, hall | ⟨values, hvalues, rfl, hshort⟩⟩ := hresult
    · rw [Nat.zero_add] at hall
      exact ⟨result, rfl, hlength, Or.inl (hall ▸ hiterate)⟩
    · have hnear := (hlimit.nextRank_near h.views hn.le hlow hvalues).2
      refine ⟨_, rfl, hlength, Or.inr (hnear.trans ?_)⟩
      exact mul_le_mul_of_nonneg_left hshort.le hlow

/-- Below damping one there is exactly one stationary rank vector, and it is a distribution. What
`pagerank` and `full_solve` return is close to it: after a step that is short enough to stop by the
tolerance, and after all the iterations by the damping. -/
theorem pagerank_near (edges : List (VertexId × VertexId)) (directed : Bool) (damping : ℚ)
    (hlow : 0 ≤ damping) (hhigh : damping < 1)
    (hn : (CsrGraph.create edges directed).vertexCount < 2 ^ 32) :
    let g := CsrGraph.create edges directed
    ∃ limit, (∀ ranks, Stationary g damping ranks ↔ ranks = limit) ∧
      (g.vertexCount ≠ 0 → Distribution g limit) ∧ ∀ maxIterations tolerance,
        Returns (fun fuel => pagerank g fuel damping maxIterations tolerance) (fun result =>
          ∃ ranks, result = .ok ranks ∧ ranks.length = g.vertexCount ∧
            (l1Error ranks limit ≤ 2 * damping ^ maxIterations ∨
              (1 - damping) * l1Error ranks limit ≤ damping * tolerance)) ∧
        Returns (fun fuel => fullSolve g damping fuel maxIterations tolerance) fun result =>
          result.values.length = g.vertexCount ∧
            (result.converged = true →
              (1 - damping) * l1Error result.values limit ≤ damping * (g.vertexCount * tolerance)) ∧
            (result.converged = false →
              l1Error result.values limit ≤ 2 * damping ^ maxIterations) := by
  dsimp only
  have hholds := CsrGraph.holds_create edges directed
  generalize CsrGraph.create edges directed = g at hholds hn ⊢
  obtain ⟨limit, hunique⟩ := existsUnique_stationary hholds.views hn.le hlow hhigh
  have hlimit := (hunique limit).mpr rfl
  refine ⟨limit, hunique, fun hne => hlimit.distribution hholds.views hn.le hne hlow hhigh,
    fun maxIterations tolerance => ⟨?_, ?_⟩⟩
  · exact hholds.returns_pagerank_near hn hlow hhigh hlimit maxIterations tolerance
  · refine (returns_fullSolve_spec hholds.views hn damping tolerance maxIterations).mono
      fun result hresult => ?_
    exact ⟨hresult.length_eq, hresult.near hlimit hholds.views hn.le hlow hhigh⟩

/-- A graph with a dangling vertex, whose ranks two iterations at damping one half miss by at most
one half. -/
theorem pagerank_near_dangling :
    ∃ limit : List ℚ, limit.sum = 1 ∧
      Returns (fun fuel => pagerank (CsrGraph.create [(0, 1), (1, 0), (1, 2)] true) fuel (1 / 2) 2 0)
        fun result => ∃ ranks, result = .ok ranks ∧ l1Error ranks limit ≤ 1 / 2 := by
  have hcount : (CsrGraph.create [(0, 1), (1, 0), (1, 2)] true).vertexCount = 3 := by
    rw [CsrGraph.vertexCount_create]
    decide
  obtain ⟨limit, -, hdistribution, hnear⟩ := pagerank_near [(0, 1), (1, 0), (1, 2)] true (1 / 2)
    (by norm_num) (by norm_num) (hcount ▸ by norm_num)
  refine ⟨limit, (hdistribution (hcount ▸ by norm_num)).sum_eq, (hnear 2 0).1.mono ?_⟩
  rintro result ⟨ranks, hranks, -, hall | hshort⟩
  · exact ⟨ranks, hranks, hall.trans (by norm_num)⟩
  · exact ⟨ranks, hranks, by linarith only [hshort]⟩

end Static

end VeloGraphX
