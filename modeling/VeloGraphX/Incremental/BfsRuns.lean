import Mathlib
import VeloGraphX.Incremental.BfsApply

/-!
# Runs of the breadth-first engine

An engine is constructed on a graph with a source that is a vertex; each step is a batch given
to the engine, or a batch given to the graph and a recomputation. As long as the graph keeps
answering from simple arcs with transposed in-rows, every run ends, and ends with the exact
distances and their count.
-/

namespace VeloGraphX

open FuelLoop ShortestPath ArcSet GraphAccess

/-- The arcs a graph enumerates. -/
def GraphAccess.arcsOf {G : Type} [GraphAccess G] (g : G) : ArcSet :=
  {a | a.2 ∈ forEachNeighbor g a.1}

/-- The arcs a graph serves are those it enumerates. -/
theorem GraphAccess.Serves.arcsOf_eq {G : Type} [GraphAccess G] {g : G} {arcs : ArcSet}
    (h : Serves g arcs) : arcsOf g = arcs := Set.ext fun a => h.mem_neighbor a.1 a.2

/-- One step of a run. -/
inductive BfsStep
  | apply (batch : UpdateBatch)
  | rebuild (batch : UpdateBatch)

namespace BfsStep

variable {G D : Type} [GraphAccess G]

/-- The batch of a step. -/
def batch : BfsStep → UpdateBatch
  | apply batch | rebuild batch => batch

/-- Whether a step calls the graph: the engine returns early on an empty batch. -/
def reaches : BfsStep → Bool
  | apply batch => !batch.empty
  | rebuild _ => true

/-- The graph after a step. -/
def graphAfter (g : G) (step : BfsStep) : G :=
  if step.reaches then applyUpdates g step.batch else g

/-- Execute one step. -/
def exec [DoubleArith D] (fuel : ℕ) (engine : IncrementalBFS G D) :
    BfsStep → Option (IncrementalBFS G D)
  | apply batch => engine.apply fuel batch
  | rebuild batch =>
    IncrementalBFS.recompute { engine with graph := applyUpdates engine.graph batch } fuel

end BfsStep

namespace GraphAccess

variable {G : Type} [GraphAccess G]

/-- A simple graph with fewer than `2 ^ 32 - 1` vertices whose in-rows are the transpose of its
out-rows. -/
structure Transposed (g : G) : Prop where
  serves : Serves g (arcsOf g)
  transposes : Transposes g (arcsOf g)
  count_lt : vertexCount g < unreachable

/-- What a batch does to the graph. -/
structure Updates (g : G) (batch : UpdateBatch) : Prop where
  arcs : arcsOf (applyUpdates g batch) = applyAll (isDirected g) (arcsOf g) batch.updates
  directed : isDirected (applyUpdates g batch) = isDirected g
  vertexCount_le : vertexCount g ≤ vertexCount (applyUpdates g batch)

/-- In every state of the run the graph is one, and batches do what they ask for. -/
def Lawful (g : G) : List BfsStep → Prop
  | [] => Transposed g
  | step :: rest =>
    Transposed g ∧ (step.reaches = true → Updates g step.batch) ∧ Lawful (step.graphAfter g) rest

/-- The first graph of a lawful run. -/
theorem Lawful.transposed {g : G} {steps : List BfsStep} (h : Lawful g steps) : Transposed g := by
  cases steps with
  | nil => exact h
  | cons step rest => exact h.1

end GraphAccess

namespace IncrementalBFS

variable {G D : Type} [GraphAccess G]

/-- Execute a run on a new engine. -/
def run [DoubleArith D] (fuel : ℕ) (g : G) (source : VertexId) (fraction : D)
    (steps : List BfsStep) : Option (IncrementalBFS G D) :=
  (create fuel g source fraction).bind (foldRun (BfsStep.exec fuel) steps)

variable {engine : IncrementalBFS G D}

/-- One step keeps the engine right about its graph. -/
theorem Correct.exec [DoubleArith D] (h : Correct engine (arcsOf engine.graph))
    (hsource : engine.source.val < vertexCount engine.graph) {step : BfsStep}
    (hupdates : step.reaches = true → Updates engine.graph step.batch)
    (hafter : Transposed (step.graphAfter engine.graph)) :
    Returns (fun fuel => step.exec fuel engine) fun engine' =>
      Correct engine' (arcsOf engine'.graph) ∧ engine'.source = engine.source ∧
        engine'.graph = step.graphAfter engine.graph ∧
        engine'.source.val < vertexCount engine'.graph := by
  cases step with
  | apply batch =>
    have hbatch : batch.updates ≠ [] → Applies engine.graph (arcsOf engine.graph) batch ∧
        Transposes (applyUpdates engine.graph batch)
          (applyAll (isDirected engine.graph) (arcsOf engine.graph) batch.updates) ∧
        vertexCount (applyUpdates engine.graph batch) < unreachable := fun hne => by
      have hreaches : (BfsStep.apply batch).reaches = true := by
        simpa [BfsStep.reaches, UpdateBatch.empty] using hne
      have hsame : (BfsStep.apply batch).graphAfter engine.graph = applyUpdates engine.graph batch :=
        if_pos hreaches
      obtain ⟨harcs, hdirected, hle⟩ := hupdates hreaches
      rw [hsame] at hafter
      change arcsOf (applyUpdates engine.graph batch) = applyAll _ _ batch.updates at harcs
      exact ⟨⟨harcs ▸ hafter.serves, hdirected, hle, fun hnil => absurd hnil hne⟩,
        harcs ▸ hafter.transposes, hafter.count_lt⟩
    refine (h.apply hsource hbatch).mono fun engine' hengine => ?_
    obtain ⟨hcorrect, hkept, hgraph⟩ := hengine
    have hgraph' : engine'.graph = (BfsStep.apply batch).graphAfter engine.graph := by
      rw [hgraph]
      unfold BfsStep.graphAfter BfsStep.reaches UpdateBatch.empty
      by_cases hnil : batch.updates = [] <;> simp [hnil, BfsStep.batch]
    refine ⟨?_, hkept, hgraph', ?_⟩
    · rwa [hcorrect.serves.arcsOf_eq]
    · rw [hkept, hgraph]
      split
      · exact hsource
      · rename_i hne
        exact hsource.trans_le (hbatch hne).1.vertexCount_le
  | rebuild batch =>
    obtain ⟨harcs, hdirected, hle⟩ := hupdates rfl
    have hrecompute := @recompute_spec G D _
      { engine with graph := applyUpdates engine.graph batch } _ hafter.serves hafter.transposes
      hafter.count_lt _ h.clean hle h.seen h.deletionKeys
    refine hrecompute.mono fun engine' hengine => ?_
    obtain ⟨hcorrect, hgraph, hkept⟩ := hengine
    refine ⟨?_, hkept, hgraph, ?_⟩
    · rwa [hcorrect.serves.arcsOf_eq]
    · rw [hkept, hgraph]
      exact hsource.trans_le hle

/-- A lawful run keeps the engine right about its graph. -/
theorem Correct.run [DoubleArith D] (h : Correct engine (arcsOf engine.graph))
    (hsource : engine.source.val < vertexCount engine.graph) {steps : List BfsStep}
    (hlawful : Lawful engine.graph steps) :
    Returns (fun fuel => foldRun (BfsStep.exec fuel) steps engine) fun engine' =>
      Correct engine' (arcsOf engine'.graph) ∧ engine'.source = engine.source ∧
        engine'.graph = steps.foldl BfsStep.graphAfter engine.graph ∧
        engine'.source.val < vertexCount engine'.graph := by
  induction steps generalizing engine with
  | nil => exact Returns.pure ⟨h, rfl, rfl, hsource⟩
  | cons step rest ih =>
    obtain ⟨-, hupdates, hrest⟩ := hlawful
    refine (h.exec hsource hupdates hrest.transposed).bind fun next hnext => ?_
    obtain ⟨hcorrect, hkept, hgraph, hlt⟩ := hnext
    refine (ih hcorrect hlt (hgraph ▸ hrest)).mono fun last hlast => ?_
    obtain ⟨hcorrect', hkept', hgraph', hlt'⟩ := hlast
    exact ⟨hcorrect', hkept'.trans hkept, by rw [hgraph', hgraph]; rfl, hlt'⟩

/-- What the levels of a correct engine are. -/
theorem Correct.dist_spec {arcs : ArcSet} (h : Correct engine arcs)
    (hsource : engine.source.val < vertexCount engine.graph) :
    engine.levels.dist.length = vertexCount engine.graph ∧
      (∀ v : VertexId, v.val < vertexCount engine.graph →
        (∀ c, IsLeast {c | Walk {engine.source} (unitArc arcs) v c} c →
          engine.levels.dist.getD v 0 = c) ∧
        ((∀ c, ¬ Walk {engine.source} (unitArc arcs) v c) →
          engine.levels.dist.getD v 0 = unreachable)) ∧
      engine.levels.reachableCount =
        {v : VertexId | ∃ c, Walk {engine.source} (unitArc arcs) v c}.ncard := by
  have hexact := h.exact_dist
  have hwithin := h.serves.simple.within
  have hcap := h.count_lt
  rw [← startAt_eq_singleton hsource]
  refine ⟨h.leveled.length_eq, fun v hv => ?_, ?_⟩
  · rw [h.leveled.getD_eq hv]
    refine ⟨fun c hc => ?_, hexact.eq_cap⟩
    have hlt := lt_count_of_isLeast hwithin hc
    rw [hexact.eq_min hc]
    exact min_eq_left (by omega)
  · rw [h.leveled.counted]
    refine congrArg Set.ncard (Set.ext fun v => ⟨fun hv => ?_, fun ⟨c, hc⟩ => ?_⟩)
    · exact ⟨_, hexact.walk v (lt_of_le_of_ne (hexact.le_cap v) hv)⟩
    · have hlt := lt_count_of_walk hwithin hexact hc
      exact (by omega : engine.levels.labels v < unreachable).ne

/-- Every lawful run ends with an engine that is right about the current graph. -/
theorem run_spec [DoubleArith D] {g : G} {source : VertexId}
    (hsource : source.val < vertexCount g) (fraction : D) {steps : List BfsStep}
    (hlawful : Lawful g steps) :
    Returns (fun fuel => run fuel g source fraction steps) fun engine =>
      Correct engine (arcsOf engine.graph) ∧ engine.source = source ∧
        engine.graph = steps.foldl BfsStep.graphAfter g ∧
        engine.source.val < vertexCount engine.graph := by
  obtain ⟨hserves, htransposes, hcount⟩ := hlawful.transposed
  refine (create_spec hserves htransposes hcount source fraction).bind fun engine hengine => ?_
  obtain ⟨hcorrect, rfl, rfl⟩ := hengine
  exact hcorrect.run hsource hlawful

/-- Every run ends, and ends with the exact unweighted distances of the current graph and the
number of reachable vertices. -/
theorem levels_exact [DoubleArith D] (g : G) (source : VertexId)
    (hsource : source.val < vertexCount g) (fraction : D) (steps : List BfsStep)
    (hlawful : Lawful g steps) :
    Returns (fun fuel => run fuel g source fraction steps) fun engine =>
      let current := steps.foldl BfsStep.graphAfter g
      engine.graph = current ∧ engine.levels.dist.length = vertexCount current ∧
        (∀ v : VertexId, v.val < vertexCount current →
          (∀ c, IsLeast {c | Walk {source} (unitArc (arcsOf current)) v c} c →
            engine.levels.dist.getD v 0 = c) ∧
          ((∀ c, ¬ Walk {source} (unitArc (arcsOf current)) v c) →
            engine.levels.dist.getD v 0 = unreachable)) ∧
        engine.levels.reachableCount =
          {v : VertexId | ∃ c, Walk {source} (unitArc (arcsOf current)) v c}.ncard := by
  refine (run_spec hsource fraction hlawful).mono fun last hlast => ?_
  obtain ⟨hcorrect, hkept, hgraph, hlt⟩ := hlast
  have hspec := hcorrect.dist_spec hlt
  rw [hkept, hgraph] at hspec
  exact ⟨hgraph, hspec⟩

end IncrementalBFS

/-- A dynamic graph with mirrored views is a simple graph with transposed in-rows. -/
theorem DynamicGraph.Mirrored.transposed {D : Type} [DoubleArith D] {g : DynamicGraph D}
    {arcs : ArcSet} (h : DynamicGraph.Mirrored g arcs) (hcount : g.vertexCount < unreachable) :
    Transposed g := by
  have harcs := h.toRefines.serves.arcsOf_eq
  exact ⟨harcs.symm ▸ h.toRefines.serves, harcs.symm ▸ h.transposes, hcount⟩

/-- A batch does to a reachable dynamic graph what it asks for. -/
theorem DynamicGraph.Refines.updates {D : Type} [DoubleArith D] {g : DynamicGraph D}
    {arcs : ArcSet} (h : DynamicGraph.Refines g arcs) (batch : UpdateBatch) : Updates g batch := by
  have happlies := h.applies batch
  have harcs := h.serves.arcsOf_eq
  refine ⟨?_, happlies.directed, happlies.vertexCount_le⟩
  rw [harcs]
  exact happlies.serves.arcsOf_eq

/-- A graph after the insertion of its first arc, from vertex 0 to vertex 1. -/
theorem DynamicGraph.mirrored_first (D : Type) [DoubleArith D] :
    DynamicGraph.Mirrored
        ((DynamicGraph.create 3 true : DynamicGraph D).apply ⟨[⟨0, 1, true, 0⟩]⟩) {(0, 1)} ∧
      ((DynamicGraph.create 3 true : DynamicGraph D).apply ⟨[⟨0, 1, true, 0⟩]⟩).vertexCount = 3 := by
  have hstart := @DynamicGraph.mirrored_create D 3 true
  have hcount := (@DynamicGraph.refines_create D 3 true).2
  have hadd : ∀ op ∈ (⟨[⟨0, 1, true, 0⟩]⟩ : UpdateBatch).updates, op.add = true :=
    fun op hop => (List.mem_singleton.mp hop) ▸ rfl
  have harcs : ArcSet.applyAll true ∅ [⟨0, 1, true, 0⟩] = {(0, 1)} := by
    refine Set.ext fun arc => ?_
    simp [ArcSet.applyAll, ArcSet.applyOp, ArcSet.setArc]
  refine ⟨harcs ▸ hstart.apply (DynamicGraph.settles_create 3 true hadd), ?_⟩
  rw [(hstart.toRefines.apply ⟨[⟨0, 1, true, 0⟩]⟩).2.1, hcount]
  rfl

/-- The run of one insertion into a dynamic graph with three vertices. -/
theorem IncrementalBFS.levels_exact_insert :
    Returns (fun fuel => IncrementalBFS.run fuel (DynamicGraph.create 3 true : DynamicGraph ℚ) 0
      (0.35 : ℚ) [.apply ⟨[⟨0, 1, true, 0⟩]⟩]) fun engine =>
      engine.levels.dist = [0, 1, unreachable] ∧ engine.levels.reachableCount = 2 := by
  have hstart := @DynamicGraph.mirrored_create ℚ 3 true
  have hcount := (@DynamicGraph.refines_create ℚ 3 true).2
  obtain ⟨hafter, hgrown⟩ := DynamicGraph.mirrored_first ℚ
  have hlawful : Lawful (DynamicGraph.create 3 true : DynamicGraph ℚ)
      [.apply ⟨[⟨0, 1, true, 0⟩]⟩] := by
    refine ⟨hstart.transposed ?_, fun _ => hstart.toRefines.updates _, hafter.transposed ?_⟩
    · rw [hcount]
      decide
    · rw [hgrown]
      decide
  refine (levels_exact (DynamicGraph.create 3 true : DynamicGraph ℚ) 0 ?_ (0.35 : ℚ)
    [.apply ⟨[⟨0, 1, true, 0⟩]⟩] hlawful).mono fun engine hengine => ?_
  · change (0 : VertexId).val < (DynamicGraph.create 3 true : DynamicGraph ℚ).vertexCount
    rw [hcount]
    decide
  · obtain ⟨-, hlength, hdist, hreached⟩ := hengine
    have harcs : arcsOf ([BfsStep.apply ⟨[⟨0, 1, true, 0⟩]⟩].foldl BfsStep.graphAfter
        (DynamicGraph.create 3 true : DynamicGraph ℚ)) = {(0, 1)} :=
      hafter.toRefines.serves.arcsOf_eq
    have hvertices : vertexCount ([BfsStep.apply ⟨[⟨0, 1, true, 0⟩]⟩].foldl BfsStep.graphAfter
        (DynamicGraph.create 3 true : DynamicGraph ℚ)) = 3 := hgrown
    rw [hvertices] at hlength hdist
    rw [harcs] at hdist hreached
    simp only [walk_single_iff (zero_ne_one' VertexId)] at hdist hreached
    obtain ⟨a, b, c, habc⟩ := List.length_eq_three.mp hlength
    rw [habc] at hdist ⊢
    have ha : a = 0 := (hdist 0 (by decide)).1 0 ⟨Or.inl ⟨rfl, rfl⟩, fun _ _ => Nat.zero_le _⟩
    have hb : b = 1 := (hdist 1 (by decide)).1 1
      ⟨Or.inr ⟨rfl, rfl⟩, fun n hn => hn.elim (fun h => absurd h.1 (by decide)) fun h => h.2.ge⟩
    have hc : c = unreachable := (hdist 2 (by decide)).2 fun n hn =>
      hn.elim (fun h => absurd h.1 (by decide)) fun h => absurd h.1 (by decide)
    refine ⟨by rw [ha, hb, hc], hreached.trans ?_⟩
    have hset : {v : VertexId | ∃ c, v = 0 ∧ c = 0 ∨ v = 1 ∧ c = 1} = {0, 1} := by
      refine Set.ext fun v => ?_
      simp [exists_or]
    rw [hset]
    exact Set.ncard_pair (zero_ne_one' VertexId)

end VeloGraphX
