import Mathlib
import VeloGraphX.Algorithms.PageRankLimit
import VeloGraphX.Incremental.PageRankRuns

/-!
# The accuracy of validated ranks

A local repair promises nothing about its distance from the stationary ranks of the new graph.
Validation compares it with a full solution, and that is enough: in every run, the ranks after a
validated call are as close as the tolerances say, or as the iterations of the reference allow.
-/

namespace VeloGraphX

open FuelLoop ReadableGraph PageRank IncrementalPageRank
open DoubleArith (ofNat toNat lt le)

namespace PageRank

/-- The sum of the differences obeys the triangle inequality. -/
theorem l1Error_triangle {left between right : List ℚ} (hbetween : left.length = between.length)
    (hright : between.length = right.length) :
    l1Error left right ≤ l1Error left between + l1Error between right := by
  induction left generalizing between right with
  | nil =>
    rw [List.length_nil] at hbetween
    obtain rfl := List.length_eq_zero_iff.mp hbetween.symm
    obtain rfl := List.length_eq_zero_iff.mp hright.symm
    exact (add_zero _).ge
  | cons x left ih =>
    obtain ⟨y, between, rfl⟩ := List.exists_cons_of_length_eq_add_one hbetween.symm
    obtain ⟨z, right, rfl⟩ := List.exists_cons_of_length_eq_add_one hright.symm
    have hrest := ih (Nat.succ_inj.mp hbetween) (Nat.succ_inj.mp hright)
    have hfirst := abs_sub_le x y z
    simp only [l1Error, List.zip_cons_cons, List.map_cons, List.sum_cons] at hrest ⊢
    linarith only [hrest, hfirst]

end PageRank

/-- The last graph of a lawful run. -/
theorem RankStep.Lawful.last {G D : Type} [GraphAccess G] {g : G} {steps : List (RankStep D)}
    (h : RankStep.Lawful g steps) : GraphAccess.TwoSided (steps.foldl RankStep.graphAfter g) := by
  induction steps generalizing g with
  | nil => exact h
  | cons step rest ih => exact ih h.2.2

namespace IncrementalPageRank

variable {G : Type} [GraphAccess G] {engine : IncrementalPageRank G ℚ} {batch : UpdateBatch}

section Damping

variable {D : Type} [RankArith D] {engine engine' : IncrementalPageRank G D}

/-- A recomputation keeps the damping. -/
theorem recompute_damping {fuel maxIterations : ℕ} {tol : D}
    (hrun : engine.recompute fuel maxIterations tol = some engine') :
    engine'.damping = engine.damping := by
  obtain ⟨result, -, hcount⟩ := Option.bind_eq_some_iff.mp hrun
  obtain ⟨count, -, rfl⟩ := Option.map_eq_some_iff.mp hcount
  rfl

/-- A batch keeps the damping. -/
theorem apply_damping {fuel localIterations : ℕ} {tol fraction : D} {exit : ApplyExit D}
    (hrun : engine.apply fuel batch localIterations tol fraction = some (exit, engine')) :
    engine'.damping = engine.damping := by
  have hrecompute : ∀ {other : IncrementalPageRank G D},
      ((other.recompute fuel).map fun engine => (ApplyExit.recomputed, engine)) =
        some (exit, engine') → other.damping = engine.damping → engine'.damping = engine.damping := by
    intro other hmap hother
    obtain ⟨last, hlast, heq⟩ := Option.map_eq_some_iff.mp hmap
    rw [← (Prod.mk.inj heq).2]
    exact (recompute_damping hlast).trans hother
  have hreturn : ∀ {exit' : ApplyExit D} {other : IncrementalPageRank G D},
      some (exit', other) = some (exit, engine') → other.damping = engine.damping →
        engine'.damping = engine.damping := by
    intro exit' other hsome hother
    rw [← (Prod.mk.inj (Option.some.inj hsome)).2]
    exact hother
  unfold IncrementalPageRank.apply at hrun
  dsimp only at hrun
  split at hrun
  · exact hreturn hrun rfl
  split at hrun
  · exact hreturn hrun rfl
  split at hrun
  · exact hrecompute hrun rfl
  split at hrun
  · exact hrecompute hrun rfl
  split at hrun
  · exact hreturn hrun rfl
  split at hrun
  · exact hrecompute hrun rfl
  obtain ⟨⟨state, reachedLimit⟩, -, hrest⟩ := Option.bind_eq_some_iff.mp hrun
  dsimp only at hrest
  split at hrest
  · exact hrecompute hrest rfl
  · exact hreturn hrest rfl

/-- The constructor takes the damping it is given. -/
theorem create_damping {fuel : ℕ} {g : G} {damping : D}
    (hrun : create fuel g damping = some (.ok engine)) : engine.damping = damping := by
  unfold create at hrun
  split at hrun
  · exact absurd (Option.some.inj hrun) nofun
  · obtain ⟨last, hlast, heq⟩ := Option.map_eq_some_iff.mp hrun
    rw [← Except.ok.inj heq]
    exact recompute_damping hlast

variable [HasInfinity D]

/-- Every call keeps the damping. -/
theorem exec_damping {fuel : ℕ} {step : RankStep D} (hrun : step.exec fuel engine = some engine') :
    engine'.damping = engine.damping := by
  cases step with
  | apply =>
    obtain ⟨applied, happlied, rfl⟩ := Option.map_eq_some_iff.mp hrun
    exact apply_damping happlied
  | recompute => exact recompute_damping hrun
  | applyValidated =>
    obtain ⟨result, hresult, rfl⟩ := Option.map_eq_some_iff.mp hrun
    obtain ⟨applied, happlied, hvalidated⟩ := Option.bind_eq_some_iff.mp hresult
    obtain ⟨validation, -, hlast⟩ := Option.bind_eq_some_iff.mp hvalidated
    split at hlast
    · rw [← Option.some.inj hlast]
      exact apply_damping happlied
    · obtain ⟨last, hrecompute, rfl⟩ := Option.map_eq_some_iff.mp hlast
      exact (recompute_damping hrecompute).trans (apply_damping happlied)

end Damping

section Validated

variable {damping : ℚ} {limit : List ℚ}

/-- Close to the stationary ranks: so close as the tolerances ask for, or as close as all iterations
of the reference bring it. -/
def Near (damping : ℚ) (count maxIterations : ℕ) (referenceTol l1Tolerance : ℚ) (ranks limit : List ℚ) :
    Prop :=
  (1 - damping) * l1Error ranks limit ≤
      (1 - damping) * max l1Tolerance 0 + damping * (count * referenceTol) ∨
    l1Error ranks limit ≤ 2 * damping ^ maxIterations

/-- The result of a full solution is close, whatever the tolerance for other ranks. -/
theorem near_of_solveSpec {g : G} (htwoSided : GraphAccess.TwoSided g) (hn : vertexCount g < 2 ^ 32)
    (hlow : 0 ≤ damping) (hhigh : damping < 1) (hlimit : Stationary g damping limit)
    {maxIterations : ℕ} {tol : ℚ} {result : FullSolveResult ℚ}
    (hresult : SolveSpec g damping tol maxIterations result) (l1Tolerance : ℚ) :
    Near damping (vertexCount g) maxIterations tol l1Tolerance result.values limit := by
  have hviews := htwoSided.serves.views htwoSided.transposes
  obtain ⟨hshort, hall⟩ := hresult.near hlimit hviews hn.le hlow hhigh
  have hslack : 0 ≤ (1 - damping) * max l1Tolerance 0 :=
    mul_nonneg (sub_pos.mpr hhigh).le (le_max_right _ _)
  cases hconverged : result.converged with
  | true => exact Or.inl ((hshort hconverged).trans (le_add_of_nonneg_left hslack))
  | false => exact Or.inr (hall hconverged)

/-- Ranks that pass the validation are close. -/
theorem near_of_validated (h : Sound engine) (hlow : 0 ≤ engine.damping) (hhigh : engine.damping < 1)
    (hlimit : Stationary engine.graph engine.damping limit) {maxIterations : ℕ} {tol l1 linf : ℚ}
    {result : FullSolveResult ℚ} (hresult : SolveSpec engine.graph engine.damping tol maxIterations result)
    (hwithin : (result.converged && le (rankErrors engine.rank result.values).1 l1 &&
      le (rankErrors engine.rank result.values).2 linf) = true) :
    Near engine.damping (vertexCount engine.graph) maxIterations tol l1 engine.rank limit := by
  have hviews := h.twoSided.serves.views h.twoSided.transposes
  rw [Bool.and_eq_true, Bool.and_eq_true] at hwithin
  obtain ⟨⟨hconverged, hl1⟩, -⟩ := hwithin
  have hlength : engine.rank.length = result.values.length := h.rank_length.trans hresult.length_eq.symm
  have hclose : l1Error engine.rank result.values ≤ l1 := by
    rw [rankErrors, if_neg (not_not.mpr hlength), (residuals_spec _ _).1] at hl1
    exact of_decide_eq_true hl1
  have hshort := (hresult.near hlimit hviews h.count_lt.le hlow hhigh).1 hconverged
  have htriangle := l1Error_triangle hlength (hresult.length_eq.trans hlimit.length_eq.symm)
  refine Or.inl ?_
  calc (1 - engine.damping) * l1Error engine.rank limit
      ≤ (1 - engine.damping) * (max l1 0 + l1Error result.values limit) := by
        refine mul_le_mul_of_nonneg_left ?_ (sub_pos.mpr hhigh).le
        exact htriangle.trans (add_le_add_left (hclose.trans (le_max_left _ _)) _)
    _ ≤ (1 - engine.damping) * max l1 0 + engine.damping * (vertexCount engine.graph * tol) := by
        rw [mul_add]
        exact add_le_add_right hshort _

/-- A recomputation gives close ranks. -/
theorem recompute_near (htwoSided : GraphAccess.TwoSided engine.graph)
    (hn : vertexCount engine.graph < 2 ^ 32) (hlow : 0 ≤ engine.damping) (hhigh : engine.damping < 1)
    (hlimit : Stationary engine.graph engine.damping limit) (maxIterations : ℕ) (tol l1 : ℚ) :
    Returns (fun fuel => engine.recompute fuel maxIterations tol) fun engine' =>
      engine'.graph = engine.graph ∧
        Near engine.damping (vertexCount engine.graph) maxIterations tol l1 engine'.rank limit := by
  refine (returns_fullSolve_spec (htwoSided.serves.views htwoSided.transposes) hn engine.damping tol
    maxIterations).bind fun result hresult => ?_
  refine Returns.map ((returns_countDanglingVertices hn).mono fun count _ => ⟨rfl, ?_⟩)
  exact near_of_solveSpec htwoSided hn hlow hhigh hlimit hresult l1

/-- Validating an engine that is right about its graph, and solving the whole graph where the
validation fails, gives close ranks. -/
theorem validate_near (h : Sound engine) (hlow : 0 ≤ engine.damping) (hhigh : engine.damping < 1)
    (hlimit : Stationary engine.graph engine.damping limit) (maxIterations : ℕ) (tol l1 linf : ℚ) :
    Returns (fun fuel =>
      (engine.validateAgainstFull fuel maxIterations tol l1 linf).bind fun validation =>
        if validation.withinTolerance then some (validation, engine)
        else (engine.recompute fuel maxIterations tol).map fun engine =>
          ({ validation with fallbackApplied := true }, engine)) fun result =>
      result.2.graph = engine.graph ∧
        Near engine.damping (vertexCount engine.graph) maxIterations tol l1 result.2.rank limit := by
  have hvalidate : Returns (fun fuel => engine.validateAgainstFull fuel maxIterations tol l1 linf)
      fun validation => validation.withinTolerance = true →
        Near engine.damping (vertexCount engine.graph) maxIterations tol l1 engine.rank limit :=
    Returns.map ((returns_fullSolve_spec (h.twoSided.serves.views h.twoSided.transposes) h.count_lt
      engine.damping tol maxIterations).mono fun result hresult hwithin =>
        near_of_validated h hlow hhigh hlimit hresult hwithin)
  refine hvalidate.bind fun validation hvalidation => ?_
  split
  · rename_i hwithin
    exact Returns.pure ⟨rfl, hvalidation hwithin⟩
  · exact Returns.map ((recompute_near h.twoSided h.count_lt hlow hhigh hlimit maxIterations tol
      l1).mono fun last hlast => hlast)

/-- A validated call gives close ranks. -/
theorem Sound.exec_validated_near (h : Sound engine) (hlow : 0 ≤ engine.damping)
    (hhigh : engine.damping < 1) (hupdates : batch.empty = false → GraphAccess.Updates engine.graph batch)
    (hafter : GraphAccess.TwoSided (batchAfter engine.graph batch))
    (hn : vertexCount (batchAfter engine.graph batch) < 2 ^ 32) (localIterations : ℕ)
    (localTol fraction : ℚ) (maxIterations : ℕ) (tol l1 linf : ℚ)
    (hlimit : Stationary (batchAfter engine.graph batch) engine.damping limit) :
    Returns (fun fuel => RankStep.exec fuel engine
        (.applyValidated batch localIterations localTol fraction maxIterations tol l1 linf)) fun engine' =>
      engine'.graph = batchAfter engine.graph batch ∧ Near engine.damping
        (vertexCount (batchAfter engine.graph batch)) maxIterations tol l1 engine'.rank limit := by
  have happly := (h.apply hupdates hafter hn localIterations localTol fraction).and_of_some
    fun fuel result hrun => apply_damping hrun
  refine Returns.map (happly.bind fun applied happlied => ?_)
  obtain ⟨⟨hsound, hgraph⟩, hdamping⟩ := happlied
  rw [← hgraph, ← hdamping] at hlimit ⊢
  exact validate_near hsound (hdamping ▸ hlow) (hdamping ▸ hhigh) hlimit maxIterations tol l1 linf

/-- The rest of a run that ends with a validated call. -/
theorem Sound.run_validated_near (h : Sound engine) (hlow : 0 ≤ engine.damping)
    (hhigh : engine.damping < 1) (steps : List (RankStep ℚ)) (localIterations : ℕ)
    (localTol fraction : ℚ) (maxIterations : ℕ) (tol l1 linf : ℚ)
    (hlawful : RankStep.Lawful engine.graph
      (steps ++ [.applyValidated batch localIterations localTol fraction maxIterations tol l1 linf]))
    (hcount : ∀ k, vertexCount ((steps.take k).foldl RankStep.graphAfter engine.graph) < 2 ^ 32)
    (hlast : vertexCount (batchAfter (steps.foldl RankStep.graphAfter engine.graph) batch) < 2 ^ 32)
    (hlimit : Stationary (batchAfter (steps.foldl RankStep.graphAfter engine.graph) batch)
      engine.damping limit) :
    Returns (fun fuel => foldRun (RankStep.exec fuel)
        (steps ++ [.applyValidated batch localIterations localTol fraction maxIterations tol l1 linf])
        engine) fun engine' =>
      engine'.graph = batchAfter (steps.foldl RankStep.graphAfter engine.graph) batch ∧
        Near engine.damping (vertexCount (batchAfter (steps.foldl RankStep.graphAfter engine.graph)
          batch)) maxIterations tol l1 engine'.rank limit := by
  induction steps generalizing engine with
  | nil =>
    obtain ⟨-, hupdates, hafter⟩ := hlawful
    refine (h.exec_validated_near hlow hhigh hupdates hafter hlast localIterations localTol fraction
      maxIterations tol l1 linf hlimit).bind fun last hnear => ?_
    exact Returns.pure hnear
  | cons step rest ih =>
    obtain ⟨-, hupdates, hrest⟩ := hlawful
    have hexec := (h.exec step hupdates hrest.twoSided (hcount 1)).and_of_some
      fun fuel result hrun => exec_damping hrun
    refine hexec.bind fun next hnext => ?_
    obtain ⟨⟨hsound, hgraph⟩, hdamping⟩ := hnext
    rw [List.foldl_cons, ← hgraph] at hlast hlimit
    rw [← hgraph] at hrest
    rw [List.foldl_cons, ← hgraph, ← hdamping]
    refine ih hsound (hdamping ▸ hlow) (hdamping ▸ hhigh) hrest (fun k => ?_) hlast (hdamping ▸ hlimit)
    rw [hgraph]
    exact hcount (k + 1)

/-- After every validated call of every run the ranks are close to the stationary ones of the graph
that the calls have led to, however far the local repairs before it went astray. -/
theorem validated_near (g : G) (damping : ℚ) (hlow : 0 ≤ damping) (hhigh : damping < 1)
    (steps : List (RankStep ℚ)) (batch : UpdateBatch) (localIterations : ℕ) (localTol fraction : ℚ)
    (maxIterations : ℕ) (tol l1 linf : ℚ)
    (hlawful : RankStep.Lawful g
      (steps ++ [.applyValidated batch localIterations localTol fraction maxIterations tol l1 linf]))
    (hcount : ∀ k, vertexCount ((steps.take k).foldl RankStep.graphAfter g) < 2 ^ 32)
    (hlast : vertexCount (batchAfter (steps.foldl RankStep.graphAfter g) batch) < 2 ^ 32) :
    ∃ limit, (∀ ranks, Stationary (batchAfter (steps.foldl RankStep.graphAfter g) batch) damping ranks ↔
        ranks = limit) ∧
      Returns (fun fuel => run fuel g damping
          (steps ++ [.applyValidated batch localIterations localTol fraction maxIterations tol l1 linf]))
        fun result => ∃ engine, result = .ok engine ∧
          engine.graph = batchAfter (steps.foldl RankStep.graphAfter g) batch ∧
          Near damping (vertexCount (batchAfter (steps.foldl RankStep.graphAfter g) batch))
            maxIterations tol l1 engine.rank limit := by
  have htwoSided := hlawful.last
  rw [List.foldl_append, List.foldl_cons, List.foldl_nil] at htwoSided
  obtain ⟨limit, hunique⟩ := existsUnique_stationary
    (htwoSided.serves.views htwoSided.transposes) hlast.le hlow hhigh
  have hlimit := (hunique limit).mpr rfl
  have hcreate := (returns_create (validDamping_of_mem hlow hhigh.le) hlawful.twoSided (hcount 0)).and_of_some
    fun fuel result hrun engine (hengine : result = .ok engine) => create_damping (hengine ▸ hrun)
  refine ⟨limit, hunique, hcreate.bind fun result hresult => ?_⟩
  obtain ⟨⟨engine, rfl, hsound, rfl⟩, hdamping⟩ := hresult
  obtain rfl := hdamping engine rfl
  refine Returns.map ((hsound.run_validated_near hlow hhigh steps localIterations localTol fraction
    maxIterations tol l1 linf hlawful hcount hlast hlimit).mono fun last hnear => ?_)
  exact ⟨last, rfl, hnear⟩

/-- A run that adds a chord to a cycle, and whose validated ranks miss the stationary ones of the
cycle with the chord by no more than the tolerance asks for, or no more than one half. -/
theorem validated_near_chord :
    ∃ limit : List ℚ, Returns (fun fuel => run fuel threeCycle (1 / 2 : ℚ)
        [.applyValidated ⟨[⟨0, 2, true, 0⟩]⟩ 24 0 1000 2 0 (1 / 100) 1]) fun result =>
      ∃ engine, result = .ok engine ∧
        (l1Error engine.rank limit ≤ 1 / 100 ∨ l1Error engine.rank limit ≤ 1 / 2) := by
  obtain ⟨hbefore, hafter, hupdates⟩ := threeCycle_chord
  have hlawful : RankStep.Lawful threeCycle
      ([] ++ [(.applyValidated ⟨[⟨0, 2, true, 0⟩]⟩ 24 0 1000 2 0 (1 / 100) 1 : RankStep ℚ)]) :=
    ⟨hbefore, fun _ => hupdates, hafter⟩
  have hcount : ∀ k, vertexCount ((([] : List (RankStep ℚ)).take k).foldl RankStep.graphAfter
      threeCycle) < 2 ^ 32 := by
    intro k
    rw [List.take_nil]
    exact lt_of_eq_of_lt (show threeCycle.vertexCount = 3 by decide +kernel) (by norm_num)
  have hlast : vertexCount (batchAfter threeCycle ⟨[⟨0, 2, true, 0⟩]⟩) < 2 ^ 32 :=
    lt_of_eq_of_lt
      (show (threeCycle.apply ⟨[⟨0, 2, true, 0⟩]⟩).vertexCount = 3 by decide +kernel) (by norm_num)
  obtain ⟨limit, -, hnear⟩ := validated_near threeCycle (1 / 2) (by norm_num) (by norm_num) []
    ⟨[⟨0, 2, true, 0⟩]⟩ 24 0 1000 2 0 (1 / 100) 1 hlawful hcount hlast
  refine ⟨limit, hnear.mono ?_⟩
  rintro result ⟨engine, hengine, -, hclose⟩
  refine ⟨engine, hengine, hclose.imp (fun h => ?_) fun h => h.trans (by norm_num)⟩
  rw [max_eq_left (by norm_num)] at h
  linarith only [h]

end Validated

end IncrementalPageRank

end VeloGraphX
