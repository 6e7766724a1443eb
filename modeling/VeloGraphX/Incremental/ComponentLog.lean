import Mathlib
import VeloGraphX.Incremental.ComponentRuns
import VeloGraphX.Incremental.UnionFindRanks

/-!
# The component engine with a log

The engine as it is in the source, run together with a log of its calls of `find` and of the ranks it
counts up. The log does not change what the engine does.
-/

namespace VeloGraphX

open FuelLoop PointUpdate DisjointSets ArcSet GraphAccess UnionFind

namespace IncrementalComponents

variable {G : Type} [GraphAccess G]

/-- `uniteNeighbors`, logged. -/
def uniteNeighborsLogged (fuel : ℕ) (g : G) (keep : VertexId → Bool) (u : VertexId)
    (sets : UnionFind) : Logged SetEvent UnionFind :=
  .fold (fun sets v =>
      if keep v then sets.uniteLogged fuel (vertexCount g) u v else .silent (some sets))
    (forEachNeighbor g u) sets

/-- `rebuild`, logged. -/
def rebuildLogged (engine : IncrementalComponents G) (fuel : ℕ) :
    Logged SetEvent (IncrementalComponents G) :=
  let g := engine.graph
  let n := vertexCount g
  (Logged.silent (iota n)).bind fun parent =>
  (Logged.count n (fun fuel u sets => uniteNeighborsLogged fuel g (fun _ => true) u sets) fuel 0
    { parent := parent, rank := List.replicate n 0 }).map
    fun sets => { engine with sets := sets, lastRepairedVertices := n }

/-- The constructor, logged. -/
def createLogged (fuel : ℕ) (g : G) :
    Logged SetEvent (Except Exception (IncrementalComponents G)) :=
  if isDirected g then .silent (create fuel g)
  else (rebuildLogged ⟨g, ⟨[], []⟩, 0⟩ fuel).map .ok

/-- `component`, logged. -/
def componentLogged (engine : IncrementalComponents G) (fuel : ℕ) (v : VertexId) :
    Logged SetEvent (Except Exception VertexId × IncrementalComponents G) :=
  if engine.sets.parent.length ≤ v then .silent (engine.component fuel v)
  else
    (engine.sets.findLogged fuel v).map fun (root, sets) => (.ok root, { engine with sets := sets })

/-- `collectRoots`, logged. -/
def collectRootsLogged (g : G) (fuel : ℕ) (state : List VertexId × UnionFind) (op : EdgeUpdate) :
    Logged SetEvent (List VertexId × UnionFind) :=
  let (roots, sets) := state
  if !op.add && op.src < sets.parent.length && op.dst < sets.parent.length &&
      hasEdge g op.src op.dst then
    (sets.findLogged fuel op.src).bind fun (a, sets) =>
    (sets.findLogged fuel op.dst).map fun (b, sets) => ((roots.insert a).insert b, sets)
  else .silent (some state)

/-- `markAffected`, logged. -/
def markAffectedLogged (roots : List VertexId) (fuel : ℕ) (v : VertexId) (state : Marking) :
    Logged SetEvent Marking :=
  (state.sets.findLogged fuel v).map fun (root, sets) =>
    if root ∈ roots then
      { affected := state.affected.set v 1
        sets := sets
        lastRepairedVertices := state.lastRepairedVertices + 1 }
    else { state with sets := sets }

/-- `rebuildVertex`, logged. -/
def rebuildVertexLogged (g : G) (affected : List ℕ) (fuel : ℕ) (u : VertexId) (sets : UnionFind) :
    Logged SetEvent UnionFind :=
  if affected.getD u 0 = 0 then .silent (some sets)
  else uniteNeighborsLogged fuel g (fun v => v < affected.length && affected.getD v 0 ≠ 0) u sets

/-- `uniteAddition`, logged. -/
def uniteAdditionLogged (g : G) (fuel : ℕ) (sets : UnionFind) (op : EdgeUpdate) :
    Logged SetEvent UnionFind :=
  if op.add && op.src < sets.parent.length && op.dst < sets.parent.length &&
      hasEdge g op.src op.dst then
    sets.uniteLogged fuel (vertexCount g) op.src op.dst
  else .silent (some sets)

/-- The part of `apply` after the graph has changed, logged. -/
def finishLogged (g : G) (canonical : UpdateBatch) (roots : List VertexId) (fuel : ℕ)
    (state : Marking) : Logged SetEvent (IncrementalComponents G) :=
  (Logged.silent (state.sets.ensureCapacity fuel (vertexCount g))).bind fun sets =>
  let affected := resize state.affected sets.parent.length 0
  (if roots.isEmpty then .silent (some sets)
    else
      (Logged.silent (countLoop affected.length
        (fun _ v sets => some (resetVertex affected v sets)) fuel 0 sets)).bind fun sets =>
      Logged.count affected.length (rebuildVertexLogged g affected) fuel 0 sets).bind fun sets =>
  (Logged.fold (uniteAdditionLogged g fuel) canonical.updates sets).map fun sets =>
    ⟨g, sets, state.lastRepairedVertices⟩

/-- `apply`, logged. -/
def applyLogged (engine : IncrementalComponents G) (fuel : ℕ) (batch : UpdateBatch) :
    Logged SetEvent (IncrementalComponents G) :=
  if batch.empty then .silent (some { engine with lastRepairedVertices := 0 })
  else
    let g := engine.graph
    let canonical := canonicalizeUndirected batch
    (Logged.fold (collectRootsLogged g fuel) canonical.updates ([], engine.sets)).bind
      fun (roots, sets) =>
    let marking : Marking :=
      { affected := List.replicate sets.parent.length 0, sets := sets }
    (if roots.isEmpty then .silent (some marking)
      else Logged.count sets.parent.length (markAffectedLogged roots) fuel 0 marking).bind
      fun marking => finishLogged (applyUpdates g batch) canonical roots fuel marking

end IncrementalComponents

/-- Execute a step, logged. -/
def ComponentStep.execLogged {D : Type} [DoubleArith D] (fuel : ℕ)
    (engine : IncrementalComponents (DynamicGraph D)) :
    ComponentStep D → Logged SetEvent (IncrementalComponents (DynamicGraph D))
  | .engine (.apply batch) => engine.applyLogged fuel batch
  | .engine (.maybeCompact threshold) =>
    .silent (some { engine with graph := (engine.graph.maybeCompact threshold).2 })
  | .engine .compact => .silent (some { engine with graph := engine.graph.compact })
  | .component v => (engine.componentLogged fuel v).map Prod.snd

namespace IncrementalComponents

/-- Construct an engine and execute a run, logged. -/
def runLogged {D : Type} [DoubleArith D] (fuel : ℕ) (g : DynamicGraph D)
    (steps : List (ComponentStep D)) :
    Logged SetEvent (Except Exception (IncrementalComponents (DynamicGraph D))) :=
  (createLogged fuel g).bind fun result =>
    match result with
    | .error e => .silent (some (.error e))
    | .ok engine => (Logged.fold (ComponentStep.execLogged fuel) steps engine).map .ok

section Erasure

variable {G : Type}

theorem componentLogged_result (engine : IncrementalComponents G) (fuel : ℕ) (v : VertexId) :
    (engine.componentLogged fuel v).result = engine.component fuel v := by
  unfold componentLogged
  split
  · rfl
  · rename_i hinside
    rw [component, if_neg hinside]
    rfl

variable [GraphAccess G]

theorem uniteNeighborsLogged_result (fuel : ℕ) (g : G) (keep : VertexId → Bool) (u : VertexId)
    (sets : UnionFind) :
    (uniteNeighborsLogged fuel g keep u sets).result = uniteNeighbors fuel g keep u sets := by
  refine Logged.fold_result (fun sets v => ?_) _ sets
  split
  · exact uniteLogged_result fuel _ sets u v
  · rfl

theorem rebuildLogged_result (engine : IncrementalComponents G) (fuel : ℕ) :
    (engine.rebuildLogged fuel).result = engine.rebuild fuel := by
  unfold rebuildLogged rebuild
  rw [Logged.bind_result, Logged.silent_result]
  refine congrArg _ (funext fun parent => ?_)
  rw [Logged.map_result, Logged.count_result fun fuel u sets =>
    uniteNeighborsLogged_result fuel engine.graph (fun _ => true) u sets]

theorem createLogged_result (fuel : ℕ) (g : G) :
    (createLogged fuel g).result = create fuel g := by
  unfold createLogged
  split
  · rfl
  · rename_i hundirected
    rw [Logged.map_result, rebuildLogged_result, create, if_neg hundirected]

theorem collectRootsLogged_result (g : G) (fuel : ℕ) (state : List VertexId × UnionFind)
    (op : EdgeUpdate) :
    (collectRootsLogged g fuel state op).result = collectRoots g fuel state op := by
  unfold collectRootsLogged collectRoots
  dsimp only
  split
  · rw [Logged.bind_result]
    rfl
  · rfl

theorem markAffectedLogged_result (roots : List VertexId) (fuel : ℕ) (v : VertexId)
    (state : Marking) :
    (markAffectedLogged roots fuel v state).result = markAffected roots fuel v state := rfl

theorem markLoop_result (n : ℕ) (marking : Marking) (roots : List VertexId) (fuel : ℕ) :
    (if roots.isEmpty then Logged.silent (some marking)
      else Logged.count n (markAffectedLogged roots) fuel (0 : VertexId) marking).result =
        if roots.isEmpty then some marking
        else countLoop n (markAffected roots) fuel (0 : VertexId) marking := by
  split
  · rfl
  · exact Logged.count_result (markAffectedLogged_result roots) fuel 0 marking

theorem rebuildVertexLogged_result (g : G) (affected : List ℕ) (fuel : ℕ) (u : VertexId)
    (sets : UnionFind) :
    (rebuildVertexLogged g affected fuel u sets).result = rebuildVertex g affected fuel u sets := by
  unfold rebuildVertexLogged rebuildVertex
  split
  · rfl
  · exact uniteNeighborsLogged_result _ _ _ _ _

theorem uniteAdditionLogged_result (g : G) (fuel : ℕ) (sets : UnionFind) (op : EdgeUpdate) :
    (uniteAdditionLogged g fuel sets op).result = uniteAddition g fuel sets op := by
  unfold uniteAdditionLogged uniteAddition
  split
  · exact uniteLogged_result fuel _ sets op.src op.dst
  · rfl

theorem finishLogged_result (g : G) (canonical : UpdateBatch) (roots : List VertexId) (fuel : ℕ)
    (state : Marking) :
    (finishLogged g canonical roots fuel state).result = finish g canonical roots fuel state := by
  unfold finishLogged finish
  rw [Logged.bind_result, Logged.silent_result]
  refine congrArg _ (funext fun sets => ?_)
  rw [Logged.bind_result]
  dsimp only
  simp only [Logged.map_result, Logged.fold_result (uniteAdditionLogged_result g fuel)]
  refine congrArg (Option.bind · _) ?_
  split
  · rfl
  · rw [Logged.bind_result, Logged.silent_result]
    refine congrArg _ (funext fun sets => ?_)
    exact Logged.count_result (rebuildVertexLogged_result g _) _ _ _

theorem applyLogged_result (engine : IncrementalComponents G) (fuel : ℕ) (batch : UpdateBatch) :
    (engine.applyLogged fuel batch).result = engine.apply fuel batch := by
  unfold applyLogged apply
  split
  · rfl
  · dsimp only
    rw [Logged.bind_result, Logged.fold_result (collectRootsLogged_result engine.graph fuel)]
    refine congrArg _ (funext fun state => ?_)
    obtain ⟨roots, sets⟩ := state
    dsimp only
    rw [Logged.bind_result, markLoop_result]
    simp only [finishLogged_result]

end Erasure

variable {D : Type} [DoubleArith D]

theorem execLogged_result (fuel : ℕ) (engine : IncrementalComponents (DynamicGraph D))
    (step : ComponentStep D) : (step.execLogged fuel engine).result = step.exec fuel engine := by
  cases step with
  | engine step =>
    cases step with
    | apply batch => exact applyLogged_result engine fuel batch
    | maybeCompact threshold => rfl
    | compact => rfl
  | component v => exact congrArg (Option.map Prod.snd) (componentLogged_result engine fuel v)

/-- The log does not change what a run does. -/
theorem runLogged_result (fuel : ℕ) (g : DynamicGraph D) (steps : List (ComponentStep D)) :
    (runLogged fuel g steps).result = run fuel g steps := by
  unfold runLogged run engineRun
  rw [Logged.bind_result, createLogged_result]
  refine congrArg _ (funext fun result => ?_)
  cases result with
  | error e => rfl
  | ok engine => exact congrArg (Option.map Except.ok) (Logged.fold_result
    (execLogged_result fuel) steps engine)

end IncrementalComponents

end VeloGraphX
