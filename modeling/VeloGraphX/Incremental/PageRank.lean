import Mathlib
import VeloGraphX.Access.ReadableGraph

/-!
# The incremental PageRank engine

The engine keeps the ranks of a graph and the number of its dangling vertices. A batch is repaired
locally, from the vertices whose equation it changes outwards, unless dangling vertices, a new
vertex or the size of the repaired region call for a full solution.
-/

namespace VeloGraphX

open FuelLoop ReadableGraph
open DoubleArith (ofNat toNat lt le)

/-- `std::numeric_limits<double>::infinity()`. -/
class HasInfinity (D : Type) where
  infinity : D

/-- The engine, `BasicIncrementalPageRank`. -/
structure IncrementalPageRank (G D : Type) where
  graph : G
  damping : D
  rank : List D
  danglingVertices : ℕ := 0
  lastRepairedVertices : ℕ := 0
  lastRepairIterations : ℕ := 0
  lastResidualL1 : D
  lastResidualLinf : D
  lastFullRecomputeConverged : Bool := false

/-- `PageRankValidation`. -/
structure PageRankValidation (D : Type) where
  l1Error : D
  linfError : D
  localResidualL1 : D
  localResidualLinf : D
  referenceResidualL1 : D
  referenceResidualLinf : D
  referenceIterations : ℕ := 0
  referenceConverged : Bool := false
  withinTolerance : Bool := false
  fallbackApplied : Bool := false

/-- `FullSolveResult`. -/
structure FullSolveResult (D : Type) where
  values : List D
  iterations : ℕ := 0
  residualL1 : D
  residualLinf : D
  converged : Bool := false

/-- The vertices the repair is to visit, and how many they are. -/
structure ActiveSet where
  active : List Bool
  activeCount : ℕ

/-- Mark one vertex. -/
def ActiveSet.activate (n : ℕ) (frontier : ActiveSet) (v : VertexId) : ActiveSet :=
  if v.val < n && !frontier.active.getD v false then
    ⟨frontier.active.set v true, frontier.activeCount + 1⟩
  else frontier

/-- The state between the iterations of a local repair. -/
structure LocalState (D : Type) where
  rank : List D
  frontier : ActiveSet
  everActive : List Bool
  iterations : ℕ := 0
  residualL1 : D
  residualLinf : D

/-- The state within an iteration. -/
structure LocalTurn (D : Type) where
  nextRank : List D
  nextFrontier : ActiveSet
  everActive : List Bool
  iterL1 : D
  iterLinf : D

/-- Where `apply` returned. -/
inductive ApplyExit (D : Type)
  | emptyBatch
  | noVertices
  | recomputed
  | inactive
  | localized (final : LocalState D)

namespace PageRank

section Solve

variable {G D : Type} [ReadableGraph G] [RankArith D] (g : G) (damping : D) (fuel : ℕ)

/-- The loop that sums and maximizes the differences of two rank vectors. -/
def residuals (left right : List D) : D × D :=
  (List.zip left right).foldl (fun (acc entry : D × D) =>
    let delta := RankArith.abs (entry.1 - entry.2)
    (acc.1 + delta, RankArith.max acc.2 delta)) (0.0, 0.0)

/-- The out-degrees that `full_solve` looks up. -/
def outDegrees : Option (List ℕ) :=
  vertexLoop (vertexCount g) (fun u outDegree => outDegree.set u (neighborCount g u)) fuel
    (List.replicate (vertexCount g) 0)

/-- The callback of `full_solve`. -/
def gather (outDegree : List ℕ) (values : List D) (v : VertexId) : D :=
  (forEachInNeighbor g v).foldl (fun incoming (u : VertexId) =>
    if outDegree.getD u 0 ≠ 0 then incoming + values.getD u 0.0 / ofNat (outDegree.getD u 0)
    else incoming) 0.0

/-- One iteration of `full_solve`, up to `next`. -/
def solveTurn (outDegree : List ℕ) (values : List D) : Option (List D) :=
  let n := vertexCount g
  let teleport := (1.0 - damping) / ofNat n
  (vertexLoop n (fun u danglingMass =>
    if outDegree.getD u 0 = 0 then danglingMass + values.getD u 0.0 else danglingMass) fuel 0.0).bind
    fun danglingMass =>
  let danglingShare := damping * danglingMass / ofNat n
  vertexLoop n (fun v next => next.set v (next.getD v 0.0 + damping * gather g outDegree values v)) fuel
    (List.replicate n (teleport + danglingShare))

/-- The iterations of `full_solve`. -/
def solveLoop (outDegree : List ℕ) (tol : D) :
    (left it : ℕ) → FullSolveResult D → Option (FullSolveResult D)
  | 0, _, result => some result
  | left + 1, it, result =>
    (solveTurn g damping fuel outDegree result.values).bind fun next =>
    let residual := residuals next result.values
    let result := { result with
      values := next, iterations := it + 1, residualL1 := residual.1, residualLinf := residual.2 }
    if le result.residualLinf tol then some { result with converged := true }
    else solveLoop outDegree tol left (it + 1) result

/-- `full_solve`. -/
def fullSolve (maxIterations : ℕ) (tol : D) : Option (FullSolveResult D) :=
  let n := vertexCount g
  if n = 0 then some { values := [], residualL1 := 0.0, residualLinf := 0.0, converged := true }
  else
    (outDegrees g fuel).bind fun outDegree =>
    solveLoop g damping fuel outDegree tol maxIterations 0
      { values := List.replicate n (1.0 / ofNat n), residualL1 := 0.0, residualLinf := 0.0 }

/-- `count_dangling_vertices`. -/
def countDanglingVertices : Option ℕ :=
  vertexLoop (vertexCount g) (fun u count => count + if neighborCount g u = 0 then 1 else 0) fuel 0

/-- What the local repair gathers along the in-row of a vertex. -/
def gatherLocal (rank : List D) (v : VertexId) : D :=
  (forEachInNeighbor g v).foldl (fun incoming (u : VertexId) =>
    let outDegree := neighborCount g u
    if outDegree ≠ 0 then incoming + rank.getD u 0.0 / ofNat outDegree else incoming) 0.0

/-- `activate_next`. -/
def activateNext (n : ℕ) (turn : LocalTurn D) (v : VertexId) : LocalTurn D :=
  if v.val < n && !turn.nextFrontier.active.getD v false then
    { turn with
      nextFrontier := turn.nextFrontier.activate n v
      everActive := turn.everActive.set v true }
  else turn

/-- One vertex of an iteration. -/
def repairVertex (base tol : D) (state : LocalState D) (v : VertexId) (turn : LocalTurn D) :
    LocalTurn D :=
  if state.frontier.active.getD v false = false then turn
  else
    let updated := base + damping * gatherLocal g state.rank v
    let delta := RankArith.abs (updated - state.rank.getD v 0.0)
    let turn := { turn with
      nextRank := turn.nextRank.set v updated
      iterL1 := turn.iterL1 + delta
      iterLinf := RankArith.max turn.iterLinf delta }
    if lt tol delta then (forEachNeighbor g v).foldl (activateNext (vertexCount g)) turn else turn

/-- One iteration of the local repair, up to the test for a fallback. -/
def localTurn (tol : D) (state : LocalState D) : Option (LocalState D) :=
  let n := vertexCount g
  let base := (1.0 - damping) / ofNat n
  (vertexLoop n (repairVertex g damping base tol state) fuel
    { nextRank := state.rank, nextFrontier := ⟨List.replicate n false, 0⟩,
      everActive := state.everActive, iterL1 := 0.0, iterLinf := 0.0 }).map fun turn =>
  { rank := turn.nextRank, frontier := turn.nextFrontier, everActive := turn.everActive,
    iterations := state.iterations + 1, residualL1 := turn.iterL1, residualLinf := turn.iterLinf }

/-- How many flags are set. -/
def countFlags (flags : List Bool) : ℕ := flags.countP id

/-- The iterations of the local repair; the flag tells that the repaired region reached the limit. -/
def localLoop (tol : D) (fallbackLimit : ℕ) : (left : ℕ) → LocalState D → Option (LocalState D × Bool)
  | 0, state => some (state, false)
  | left + 1, state =>
    if state.frontier.activeCount = 0 then some (state, false)
    else
      (localTurn g damping fuel tol state).bind fun state =>
      if fallbackLimit ≤ countFlags state.everActive then some (state, true)
      else localLoop tol fallbackLimit left state

end Solve

end PageRank

namespace IncrementalPageRank

open PageRank

section Reading

variable {G D : Type} [ReadableGraph G] [RankArith D]

/-- `recompute`. -/
def recompute (engine : IncrementalPageRank G D) (fuel : ℕ) (maxIterations : ℕ := 200)
    (tol : D := 1e-12) : Option (IncrementalPageRank G D) :=
  (fullSolve engine.graph engine.damping fuel maxIterations tol).bind fun result =>
  (countDanglingVertices engine.graph fuel).map fun dangling =>
  { engine with
    rank := result.values
    danglingVertices := dangling
    lastRepairedVertices := vertexCount engine.graph
    lastRepairIterations := result.iterations
    lastResidualL1 := result.residualL1
    lastResidualLinf := result.residualLinf
    lastFullRecomputeConverged := result.converged }

/-- The constructor's check. -/
def validDamping (damping : D) : Bool := le 0.0 damping && le damping 1.0

/-- The constructor. -/
def create (fuel : ℕ) (g : G) (damping : D := 0.85) :
    Option (Except Exception (IncrementalPageRank G D)) :=
  if !validDamping damping then
    some (.error (.invalidArgument "PageRank damping must be in [0, 1]"))
  else
    let engine : IncrementalPageRank G D :=
      { graph := g, damping := damping, rank := [], lastResidualL1 := 0.0, lastResidualLinf := 0.0 }
    (engine.recompute fuel).map .ok

/-- The larger of the two errors is infinite where the lengths differ. -/
def rankErrors [HasInfinity D] (rank reference : List D) : D × D :=
  if rank.length ≠ reference.length then (HasInfinity.infinity, HasInfinity.infinity)
  else residuals rank reference

/-- `validate_against_full`. -/
def validateAgainstFull [HasInfinity D] (engine : IncrementalPageRank G D) (fuel : ℕ)
    (referenceMaxIterations : ℕ := 500) (referenceTol : D := 1e-12) (l1Tolerance : D := 1e-6)
    (linfTolerance : D := 1e-7) : Option (PageRankValidation D) :=
  (fullSolve engine.graph engine.damping fuel referenceMaxIterations referenceTol).map
    fun reference =>
  let errors := rankErrors engine.rank reference.values
  { l1Error := errors.1
    linfError := errors.2
    localResidualL1 := engine.lastResidualL1
    localResidualLinf := engine.lastResidualLinf
    referenceResidualL1 := reference.residualL1
    referenceResidualLinf := reference.residualLinf
    referenceIterations := reference.iterations
    referenceConverged := reference.converged
    withinTolerance :=
      reference.converged && le errors.1 l1Tolerance && le errors.2 linfTolerance }

end Reading

section Updates

variable {G D : Type} [GraphAccess G] [RankArith D]

/-- `dangling_candidates`: the vertices whose out-degree the batch can change. -/
def danglingCandidates (directed : Bool) (updates : List EdgeUpdate) : List VertexId :=
  unique ((updates.flatMap fun e =>
    if !directed && e.dst ≠ e.src then [e.src, e.dst] else [e.src]).insertionSort (· ≤ ·))

/-- The vertices that `apply` activates first. -/
def seedFrontier (g : G) (updates : List EdgeUpdate) : ActiveSet :=
  let n := GraphAccess.vertexCount g
  updates.foldl (fun frontier e =>
    let frontier := (frontier.activate n e.src).activate n e.dst
    let frontier :=
      if e.src.val < n then (forEachNeighbor g e.src).foldl (ActiveSet.activate n) frontier
      else frontier
    if !GraphAccess.isDirected g && e.dst.val < n then
      (forEachNeighbor g e.dst).foldl (ActiveSet.activate n) frontier
    else frontier) ⟨List.replicate n false, 0⟩

/-- The state the local repair starts from. -/
def seedState (rank : List D) (frontier : ActiveSet) : LocalState D :=
  { rank := rank, frontier := frontier, everActive := frontier.active, residualL1 := 0.0,
    residualLinf := 0.0 }

/-- `apply`, and where it returned. -/
def apply (engine : IncrementalPageRank G D) (fuel : ℕ) (batch : UpdateBatch)
    (localIterations : ℕ := 24) (tol : D := 1e-9) (fullFallbackFraction : D := 0.60) :
    Option (ApplyExit D × IncrementalPageRank G D) :=
  if batch.empty then
    some (.emptyBatch, { engine with
      lastRepairedVertices := 0, lastRepairIterations := 0, lastResidualL1 := 0.0,
      lastResidualLinf := 0.0 })
  else
    let previousN := engine.rank.length
    let hadDanglingBefore := engine.danglingVertices ≠ 0
    let candidates := danglingCandidates (GraphAccess.isDirected engine.graph) batch.updates
    let g := GraphAccess.applyUpdates engine.graph batch
    let n := vertexCount g
    let engine := { engine with graph := g }
    if n = 0 then
      some (.noVertices, { engine with
        rank := [], danglingVertices := 0, lastRepairedVertices := 0, lastRepairIterations := 0,
        lastResidualL1 := 0.0, lastResidualLinf := 0.0, lastFullRecomputeConverged := true })
    else if n ≠ previousN ∨ hadDanglingBefore then
      (engine.recompute fuel).map fun engine => (.recomputed, engine)
    else if candidates.any fun v => decide (v.val < n) && decide (neighborCount g v = 0) then
      (engine.recompute fuel).map fun engine => (.recomputed, engine)
    else
      let engine := { engine with danglingVertices := 0 }
      let frontier := seedFrontier g batch.updates
      if frontier.activeCount = 0 then
        some (.inactive, { engine with
          lastRepairedVertices := 0, lastRepairIterations := 0, lastResidualL1 := 0.0,
          lastResidualLinf := 0.0 })
      else
        let fallbackLimit := toNat (RankArith.max 1.0 (fullFallbackFraction * ofNat n))
        if fallbackLimit ≤ frontier.activeCount then
          (engine.recompute fuel).map fun engine => (.recomputed, engine)
        else
          (localLoop g engine.damping fuel tol fallbackLimit localIterations
            (seedState engine.rank frontier)).bind fun (state, reachedLimit) =>
          let engine := { engine with
            rank := state.rank, lastRepairIterations := state.iterations,
            lastResidualL1 := state.residualL1, lastResidualLinf := state.residualLinf,
            lastFullRecomputeConverged := false }
          if reachedLimit then (engine.recompute fuel).map fun engine => (.recomputed, engine)
          else
            some (.localized state,
              { engine with lastRepairedVertices := countFlags state.everActive })

/-- `apply_validated`. -/
def applyValidated [HasInfinity D] (engine : IncrementalPageRank G D) (fuel : ℕ)
    (batch : UpdateBatch) (localIterations : ℕ := 64) (localTol : D := 1e-10)
    (fullFallbackFraction : D := 0.95) (referenceMaxIterations : ℕ := 500)
    (referenceTol : D := 1e-12) (l1Tolerance : D := 1e-6) (linfTolerance : D := 1e-7) :
    Option (PageRankValidation D × IncrementalPageRank G D) :=
  (engine.apply fuel batch localIterations localTol fullFallbackFraction).bind fun applied =>
  let engine := applied.2
  (engine.validateAgainstFull fuel referenceMaxIterations referenceTol l1Tolerance linfTolerance).bind
    fun validation =>
  if validation.withinTolerance then some (validation, engine)
  else
    (engine.recompute fuel referenceMaxIterations referenceTol).map fun engine =>
      ({ validation with fallbackApplied := true }, engine)

end Updates

end IncrementalPageRank

end VeloGraphX
