import Mathlib
import VeloGraphX.Incremental.EngineSteps
import VeloGraphX.Incremental.PageRankRepair

/-!
# Runs of the PageRank engine

The engine trusts a counter of dangling vertices and the endpoints of a batch instead of looking at
all vertices. The counter is right after every call, whatever arithmetic the ranks are in: a local
repair is only made where no vertex dangles before or after the batch. With `2 ^ 32` vertices the
loops over all of them never end.
-/

namespace VeloGraphX

open FuelLoop ArcSet ReadableGraph PageRank IncrementalPageRank
open DoubleArith (ofNat toNat lt le)

/-- The graph after a batch: an empty one is not handed on. -/
def batchAfter {G : Type} [GraphAccess G] (g : G) (batch : UpdateBatch) : G :=
  if batch.empty then g else GraphAccess.applyUpdates g batch

/-- A call of the engine with all its parameters. -/
inductive RankStep (D : Type)
  | apply (batch : UpdateBatch) (localIterations : ℕ) (tol fullFallbackFraction : D)
  | recompute (maxIterations : ℕ) (tol : D)
  | applyValidated (batch : UpdateBatch) (localIterations : ℕ) (localTol fullFallbackFraction : D)
      (referenceMaxIterations : ℕ) (referenceTol l1Tolerance linfTolerance : D)

namespace RankStep

variable {G D : Type} [GraphAccess G]

/-- The batch of a call. -/
def batch : RankStep D → UpdateBatch
  | apply batch .. | applyValidated batch .. => batch
  | recompute .. => {}

/-- The graph after a call. -/
def graphAfter (g : G) (step : RankStep D) : G := batchAfter g step.batch

/-- Execute a call. -/
def exec [RankArith D] [HasInfinity D] (fuel : ℕ) (engine : IncrementalPageRank G D) :
    RankStep D → Option (IncrementalPageRank G D)
  | apply batch localIterations tol fraction =>
    (engine.apply fuel batch localIterations tol fraction).map Prod.snd
  | recompute maxIterations tol => engine.recompute fuel maxIterations tol
  | applyValidated batch localIterations localTol fraction maxIterations tol l1 linf =>
    (engine.applyValidated fuel batch localIterations localTol fraction maxIterations tol l1
      linf).map Prod.snd

/-- In every state of the run the graph is a two-sided one, and batches do what they ask for. -/
def Lawful (g : G) : List (RankStep D) → Prop
  | [] => GraphAccess.TwoSided g
  | step :: rest =>
    GraphAccess.TwoSided g ∧ (step.batch.empty = false → GraphAccess.Updates g step.batch) ∧
      Lawful (step.graphAfter g) rest

/-- The first graph of a lawful run. -/
theorem Lawful.twoSided {g : G} {steps : List (RankStep D)} (h : Lawful g steps) :
    GraphAccess.TwoSided g := by
  cases steps with
  | nil => exact h
  | cons step rest => exact h.1

/-- The start of a lawful run. -/
theorem Lawful.take {g : G} {steps : List (RankStep D)} (h : Lawful g steps) (k : ℕ) :
    Lawful g (steps.take k) := by
  induction steps generalizing g k with
  | nil =>
    rw [List.take_nil]
    exact h
  | cons step rest ih =>
    cases k with
    | zero => exact h.1
    | succ k => exact ⟨h.1, h.2.1, ih h.2.2 k⟩

end RankStep

namespace PageRank

section Counting

variable {G : Type} [ReadableGraph G] {g : G}

/-- The number of vertices without an out-neighbour. -/
noncomputable def danglingCount (g : G) : ℕ :=
  {u : VertexId | u.val < vertexCount g ∧ forEachNeighbor g u = []}.ncard

/-- No vertex dangles where the count is zero. -/
theorem danglingCount_eq_zero_iff :
    danglingCount g = 0 ↔ ∀ u : VertexId, u.val < vertexCount g → forEachNeighbor g u ≠ [] := by
  rw [danglingCount, Set.ncard_eq_zero (Set.toFinite _), Set.eq_empty_iff_forall_notMem]
  exact forall_congr' fun u => not_and

/-- `count_dangling_vertices` counts the vertices without an out-neighbour. -/
theorem returns_countDanglingVertices (hn : vertexCount g < 2 ^ 32) :
    Returns (fun fuel => countDanglingVertices g fuel) fun count => count = danglingCount g := by
  refine (returns_vertexLoop hn _ _).mono fun count hcount => ?_
  have hfold : ∀ (ids : List VertexId) (count : ℕ),
      ids.foldl (fun count u => count + if neighborCount g u = 0 then 1 else 0) count =
        count + (ids.filter fun u => decide (neighborCount g u = 0)).length := by
    intro ids
    induction ids with
    | nil => intro count; rfl
    | cons u rest ih =>
      intro count
      rw [List.foldl_cons, ih, List.filter_cons]
      by_cases hzero : neighborCount g u = 0
      · rw [if_pos hzero, if_pos (decide_eq_true hzero), List.length_cons]
        omega
      · rw [if_neg hzero, if_neg (by simpa using hzero), Nat.add_zero]
  have hset : {u : VertexId | u.val < vertexCount g ∧ forEachNeighbor g u = []} =
      ↑((idsBelow (vertexCount g)).filter fun u => decide (neighborCount g u = 0)).toFinset := by
    ext u
    rw [List.coe_toFinset, Set.mem_ofPred_eq, Set.mem_ofPred_eq, List.mem_filter, mem_idsBelow,
      decide_eq_true_eq, neighborCount_eq, List.length_eq_zero_iff]
  rw [hcount, hfold, Nat.zero_add, danglingCount, hset, Set.ncard_coe_finset,
    List.toFinset_card_of_nodup ((nodup_idsBelow hn.le).filter _)]

end Counting

section Lengths

variable {G D : Type} [ReadableGraph G] [RankArith D] {g : G} {damping tol : D}

/-- An iteration of the full solution keeps one rank a vertex. -/
theorem returns_solveTurn_length (hn : vertexCount g < 2 ^ 32) (outDegree : List ℕ) (values : List D) :
    Returns (fun fuel => solveTurn g damping fuel outDegree values) fun next =>
      next.length = vertexCount g := by
  refine (returns_vertexLoop hn _ _).bind fun mass _ => ?_
  refine (returns_vertexLoop hn _ _).mono fun next hnext => ?_
  rw [hnext]
  exact (PointUpdate.length_foldl_set (fun v : VertexId => v.val)
    (fun next v => next.getD v 0.0 + damping * gather g outDegree values v) _ _).trans
    List.length_replicate

/-- So do its iterations. -/
theorem returns_solveLoop_length (hn : vertexCount g < 2 ^ 32) (outDegree : List ℕ) (left it : ℕ)
    {result : FullSolveResult D} (hlength : result.values.length = vertexCount g) :
    Returns (fun fuel => solveLoop g damping fuel outDegree tol left it result) fun result' =>
      result'.values.length = vertexCount g := by
  induction left generalizing it result with
  | zero => exact Returns.pure hlength
  | succ left ih =>
    refine (returns_solveTurn_length hn outDegree result.values).bind fun next hnext => ?_
    dsimp only
    split
    · exact Returns.pure hnext
    · exact ih (it + 1) hnext

/-- The full solution has one rank a vertex. -/
theorem returns_fullSolve_length (hn : vertexCount g < 2 ^ 32) (maxIterations : ℕ) :
    Returns (fun fuel => fullSolve g damping fuel maxIterations tol) fun result =>
      result.values.length = vertexCount g := by
  unfold fullSolve
  by_cases hempty : vertexCount g = 0
  · simp only [if_pos hempty]
    exact Returns.pure hempty.symm
  · simp only [if_neg hempty]
    exact (returns_vertexLoop hn _ _).bind fun outDegree _ =>
      returns_solveLoop_length hn outDegree maxIterations 0 List.length_replicate

/-- With `2 ^ 32` vertices it does not end. -/
theorem diverges_fullSolve (hn : 2 ^ 32 ≤ vertexCount g) (maxIterations : ℕ) :
    Diverges fun fuel => fullSolve g damping fuel maxIterations tol := by
  unfold fullSolve
  have hne : vertexCount g ≠ 0 := by
    intro hzero
    rw [hzero] at hn
    exact absurd hn (by norm_num)
  simp only [if_neg hne]
  exact (diverges_vertexLoop hn _ _).bind

/-- The iterations of the local repair keep one rank a vertex. -/
theorem returns_localLoop (hn : vertexCount g < 2 ^ 32) (limit left : ℕ) {state : LocalState D}
    (hsized : LocalSized (vertexCount g) state) :
    Returns (fun fuel => localLoop g damping fuel tol limit left state) fun result =>
      LocalSized (vertexCount g) result.1 := by
  induction left generalizing state with
  | zero => exact Returns.pure hsized
  | succ left ih =>
    simp only [localLoop]
    split
    · exact Returns.pure hsized
    · refine (returns_localTurn hn hsized).bind fun next hnext => ?_
      split
      · exact Returns.pure hnext.sized
      · exact ih hnext.sized

end Lengths

end PageRank

namespace IncrementalPageRank

variable {G D : Type} [GraphAccess G] [RankArith D] {engine : IncrementalPageRank G D}
  {batch : UpdateBatch}

/-- A state of a run: one rank a vertex, and the right number of dangling vertices. -/
structure Sound (engine : IncrementalPageRank G D) : Prop where
  twoSided : GraphAccess.TwoSided engine.graph
  rank_length : engine.rank.length = vertexCount engine.graph
  dangling : engine.danglingVertices = danglingCount engine.graph
  count_lt : vertexCount engine.graph < 2 ^ 32

/-- A recomputation makes the engine right about its graph. -/
theorem returns_recompute (htwoSided : GraphAccess.TwoSided engine.graph)
    (hn : vertexCount engine.graph < 2 ^ 32) (maxIterations : ℕ) (tol : D) :
    Returns (fun fuel => engine.recompute fuel maxIterations tol) fun engine' =>
      Sound engine' ∧ engine'.graph = engine.graph := by
  refine (returns_fullSolve_length hn maxIterations).bind fun result hresult => ?_
  refine Returns.map ((returns_countDanglingVertices hn).mono fun count hcount => ?_)
  exact ⟨⟨htwoSided, hresult, hcount, hn⟩, rfl⟩

/-- With `2 ^ 32` vertices it does not end. -/
theorem recompute_diverges (hn : 2 ^ 32 ≤ vertexCount engine.graph) (maxIterations : ℕ) (tol : D) :
    Diverges fun fuel => engine.recompute fuel maxIterations tol :=
  (diverges_fullSolve hn maxIterations).bind

/-- The vertices whose out-degree a batch can change are its candidates. -/
theorem mem_danglingCandidates {directed : Bool} {updates : List EdgeUpdate} {e : EdgeUpdate}
    {w : VertexId} (he : e ∈ updates) (hw : e.src = w ∨ directed = false ∧ e.dst = w) :
    w ∈ danglingCandidates directed updates := by
  rw [danglingCandidates, mem_unique, List.mem_insertionSort, List.mem_flatMap]
  refine ⟨e, he, ?_⟩
  rcases hw with rfl | ⟨rfl, rfl⟩
  · split <;> simp
  · by_cases hloop : e.dst = e.src
    · rw [if_neg (by simp [hloop]), hloop]
      exact List.mem_singleton_self _
    · rw [if_pos (by simp [hloop])]
      simp

omit [RankArith D] in
/-- Where no vertex dangled before a batch and none of the candidates dangles after it, none does. -/
theorem Sound.no_dangling (h : Sound engine) (hupdates : GraphAccess.Updates engine.graph batch)
    (hcount : vertexCount (GraphAccess.applyUpdates engine.graph batch) = engine.rank.length)
    (hbefore : engine.danglingVertices = 0)
    (hcandidates : ∀ v ∈ danglingCandidates (GraphAccess.isDirected engine.graph) batch.updates,
      v.val < vertexCount (GraphAccess.applyUpdates engine.graph batch) →
        neighborCount (GraphAccess.applyUpdates engine.graph batch) v ≠ 0) :
    danglingCount (GraphAccess.applyUpdates engine.graph batch) = 0 := by
  refine danglingCount_eq_zero_iff.mpr fun w hw hempty => ?_
  have hlt : w.val < vertexCount engine.graph := by
    rw [← h.rank_length, ← hcount]
    exact hw
  obtain ⟨v, hv⟩ := List.exists_mem_of_ne_nil _
    (danglingCount_eq_zero_iff.mp (h.dangling.symm.trans hbefore) w hlt)
  have hchanged : ¬ (v ∈ forEachNeighbor (GraphAccess.applyUpdates engine.graph batch) w ↔
      v ∈ forEachNeighbor engine.graph w) := by
    rw [hempty]
    exact fun hiff => List.not_mem_nil (hiff.mpr hv)
  obtain ⟨e, he, hends⟩ := exists_op_of_changed hupdates hchanged
  have hcandidate : w ∈ danglingCandidates (GraphAccess.isDirected engine.graph) batch.updates := by
    refine mem_danglingCandidates he ?_
    rcases hends with ⟨hsrc, -⟩ | ⟨hundirected, hdst, -⟩
    · exact Or.inl hsrc
    · exact Or.inr ⟨hundirected, hdst⟩
  refine hcandidates w hcandidate hw ?_
  rw [neighborCount_eq, hempty]
  rfl

/-- A batch keeps the engine right about its graph, as long as the vertices can be counted. -/
theorem Sound.apply (h : Sound engine)
    (hupdates : batch.empty = false → GraphAccess.Updates engine.graph batch)
    (hafter : GraphAccess.TwoSided (batchAfter engine.graph batch))
    (hn : vertexCount (batchAfter engine.graph batch) < 2 ^ 32) (localIterations : ℕ)
    (tol fraction : D) :
    Returns (fun fuel => engine.apply fuel batch localIterations tol fraction) fun result =>
      Sound result.2 ∧ result.2.graph = batchAfter engine.graph batch := by
  unfold IncrementalPageRank.apply
  by_cases hempty : batch.empty = true
  · simp only [if_pos hempty]
    exact Returns.pure ⟨⟨h.twoSided, h.rank_length, h.dangling, h.count_lt⟩, (if_pos hempty).symm⟩
  have hgraph : batchAfter engine.graph batch = GraphAccess.applyUpdates engine.graph batch :=
    if_neg hempty
  have hbatch := hupdates (Bool.eq_false_iff.mpr hempty)
  rw [hgraph] at hafter hn ⊢
  have hrecompute : ∀ other : IncrementalPageRank G D,
      other.graph = GraphAccess.applyUpdates engine.graph batch →
      Returns (fun fuel => (other.recompute fuel).map fun engine => (ApplyExit.recomputed, engine))
        fun result : ApplyExit D × IncrementalPageRank G D => Sound result.2 ∧
          result.2.graph = GraphAccess.applyUpdates engine.graph batch := by
    intro other hother
    refine Returns.map ((returns_recompute (hother ▸ hafter) (hother ▸ hn) 200 1e-12).mono
      fun last hlast => ?_)
    exact ⟨hlast.1, hlast.2.trans hother⟩
  simp only [if_neg hempty]
  by_cases hzero : vertexCount (GraphAccess.applyUpdates engine.graph batch) = 0
  · simp only [if_pos hzero]
    refine Returns.pure ⟨⟨hafter, hzero.symm, ?_, hn⟩, rfl⟩
    refine (danglingCount_eq_zero_iff.mpr fun u hu => ?_).symm
    exact absurd (lt_of_lt_of_eq hu hzero) (Nat.not_lt_zero _)
  simp only [if_neg hzero]
  by_cases hguard : vertexCount (GraphAccess.applyUpdates engine.graph batch) ≠ engine.rank.length ∨
      engine.danglingVertices ≠ 0
  · simp only [if_pos hguard]
    exact hrecompute _ rfl
  simp only [if_neg hguard]
  split
  · exact hrecompute _ rfl
  rename_i hcandidates
  rw [not_or, not_ne_iff, not_ne_iff] at hguard
  have hnone : danglingCount (GraphAccess.applyUpdates engine.graph batch) = 0 :=
    h.no_dangling hbatch hguard.1 hguard.2 (no_dangling_candidate hcandidates)
  split
  · exact Returns.pure ⟨⟨hafter, hguard.1.symm, hnone.symm, hn⟩, rfl⟩
  split
  · exact hrecompute _ rfl
  have hsized : LocalSized (vertexCount (GraphAccess.applyUpdates engine.graph batch))
      (seedState engine.rank (seedFrontier (GraphAccess.applyUpdates engine.graph batch)
        batch.updates)) := ⟨hguard.1.symm, (seedFrontier_spec _ batch.updates).1⟩
  refine (returns_localLoop hn _ localIterations hsized).bind fun result hresult => ?_
  obtain ⟨final, reachedLimit⟩ := result
  cases reachedLimit with
  | true => exact hrecompute _ rfl
  | false => exact Returns.pure ⟨⟨hafter, hresult.rank_length, hnone.symm, hn⟩, rfl⟩

/-- A batch after which the vertices cannot be counted does not end. -/
theorem Sound.apply_diverges (h : Sound engine)
    (hn : 2 ^ 32 ≤ vertexCount (batchAfter engine.graph batch)) (localIterations : ℕ)
    (tol fraction : D) :
    Diverges fun fuel => engine.apply fuel batch localIterations tol fraction := by
  have hempty : ¬ batch.empty = true := by
    intro hempty
    rw [batchAfter, if_pos hempty] at hn
    exact absurd h.count_lt (not_lt.mpr hn)
  rw [batchAfter, if_neg hempty] at hn
  have hzero : vertexCount (GraphAccess.applyUpdates engine.graph batch) ≠ 0 := by
    intro hzero
    rw [hzero] at hn
    exact absurd hn (by norm_num)
  have hgrown : vertexCount (GraphAccess.applyUpdates engine.graph batch) ≠ engine.rank.length ∨
      engine.danglingVertices ≠ 0 := by
    refine Or.inl (ne_of_gt ?_)
    rw [h.rank_length]
    exact h.count_lt.trans_le hn
  unfold IncrementalPageRank.apply
  simp only [if_neg hempty, if_neg hzero, if_pos hgrown]
  exact Diverges.map (@recompute_diverges G D _ _
    { engine with graph := GraphAccess.applyUpdates engine.graph batch } hn 200 1e-12)

variable [HasInfinity D]

/-- Validation ends. -/
theorem Sound.validateAgainstFull (h : Sound engine) (maxIterations : ℕ) (tol l1 linf : D) :
    Returns (fun fuel => engine.validateAgainstFull fuel maxIterations tol l1 linf) fun _ => True :=
  Returns.map ((returns_fullSolve_length h.count_lt maxIterations).mono fun _ _ => trivial)

/-- A call keeps the engine right about its graph, as long as the vertices can be counted. -/
theorem Sound.exec (h : Sound engine) (step : RankStep D)
    (hupdates : step.batch.empty = false → GraphAccess.Updates engine.graph step.batch)
    (hafter : GraphAccess.TwoSided (step.graphAfter engine.graph))
    (hn : vertexCount (step.graphAfter engine.graph) < 2 ^ 32) :
    Returns (fun fuel => step.exec fuel engine) fun engine' =>
      Sound engine' ∧ engine'.graph = step.graphAfter engine.graph := by
  cases step with
  | apply batch localIterations tol fraction =>
    exact Returns.map (h.apply hupdates hafter hn localIterations tol fraction)
  | recompute maxIterations tol => exact returns_recompute h.twoSided h.count_lt maxIterations tol
  | applyValidated batch localIterations localTol fraction maxIterations tol l1 linf =>
    refine Returns.map ((h.apply hupdates hafter hn localIterations localTol fraction).bind
      fun applied happlied => ?_)
    obtain ⟨hsound, hgraph⟩ := happlied
    refine (hsound.validateAgainstFull maxIterations tol l1 linf).bind fun validation _ => ?_
    split
    · exact Returns.pure ⟨hsound, hgraph⟩
    · refine Returns.map ((returns_recompute hsound.twoSided hsound.count_lt maxIterations tol).mono
        fun last hlast => ?_)
      exact ⟨hlast.1, hlast.2.trans hgraph⟩

/-- A call after which the vertices cannot be counted does not end. -/
theorem Sound.exec_diverges (h : Sound engine) (step : RankStep D)
    (hn : 2 ^ 32 ≤ vertexCount (step.graphAfter engine.graph)) :
    Diverges fun fuel => step.exec fuel engine := by
  cases step with
  | apply batch localIterations tol fraction =>
    exact Diverges.map (h.apply_diverges hn localIterations tol fraction)
  | recompute maxIterations tol => exact absurd h.count_lt (not_lt.mpr hn)
  | applyValidated batch localIterations localTol fraction maxIterations tol l1 linf =>
    exact Diverges.map (Diverges.bind (h.apply_diverges hn localIterations localTol fraction))

/-- A lawful run whose vertices can be counted ends with the engine right about the last graph. -/
theorem Sound.run {steps : List (RankStep D)} (h : Sound engine)
    (hlawful : RankStep.Lawful engine.graph steps)
    (hn : ∀ k, vertexCount ((steps.take k).foldl RankStep.graphAfter engine.graph) < 2 ^ 32) :
    Returns (fun fuel => foldRun (RankStep.exec fuel) steps engine) fun engine' =>
      Sound engine' ∧ engine'.graph = steps.foldl RankStep.graphAfter engine.graph := by
  induction steps generalizing engine with
  | nil => exact Returns.pure ⟨h, rfl⟩
  | cons step rest ih =>
    obtain ⟨-, hupdates, hrest⟩ := hlawful
    refine (h.exec step hupdates hrest.twoSided (hn 1)).bind fun next hnext => ?_
    obtain ⟨hsound, hgraph⟩ := hnext
    rw [← hgraph] at hrest
    refine (ih hsound hrest fun k => ?_).mono fun last hlast => ⟨hlast.1, ?_⟩
    · rw [hgraph]
      exact hn (k + 1)
    · rw [hlast.2, hgraph]
      rfl

/-- A lawful run after which the vertices cannot be counted does not end. -/
theorem Sound.run_starves {steps : List (RankStep D)} (h : Sound engine)
    (hlawful : RankStep.Lawful engine.graph steps)
    (hn : 2 ^ 32 ≤ vertexCount (steps.foldl RankStep.graphAfter engine.graph)) :
    Starves fun fuel => foldRun (RankStep.exec fuel) steps engine := by
  induction steps generalizing engine with
  | nil => exact absurd h.count_lt (not_lt.mpr hn)
  | cons step rest ih =>
    obtain ⟨-, hupdates, hrest⟩ := hlawful
    by_cases hlt : vertexCount (step.graphAfter engine.graph) < 2 ^ 32
    · refine (h.exec step hupdates hrest.twoSided hlt).starves_bind fun next hnext => ?_
      obtain ⟨hsound, hgraph⟩ := hnext
      rw [← hgraph] at hrest
      refine ih hsound hrest ?_
      rw [hgraph]
      exact hn
    · exact (Diverges.bind (h.exec_diverges step (not_lt.mp hlt))).starves

/-- Construct an engine and execute a run. -/
def run (fuel : ℕ) (g : G) (damping : D) (steps : List (RankStep D)) :
    Option (Except Exception (IncrementalPageRank G D)) :=
  engineRun (create fuel g damping) (RankStep.exec fuel) steps

omit [HasInfinity D] in
/-- The constructor makes an engine that is right about its graph. -/
theorem returns_create {g : G} {damping : D} (hdamping : validDamping damping = true)
    (htwoSided : GraphAccess.TwoSided g) (hn : vertexCount g < 2 ^ 32) :
    Returns (fun fuel => create fuel g damping) fun result =>
      ∃ engine, result = .ok engine ∧ Sound engine ∧ engine.graph = g := by
  unfold create
  simp only [hdamping, Bool.not_true, Bool.false_eq_true, if_false]
  exact Returns.map ((returns_recompute htwoSided hn 200 1e-12).mono fun engine hengine =>
    ⟨engine, rfl, hengine⟩)

omit [HasInfinity D] in
/-- On a graph with `2 ^ 32` vertices it does not end. -/
theorem create_diverges {g : G} {damping : D} (hdamping : validDamping damping = true)
    (hn : 2 ^ 32 ≤ vertexCount g) : Diverges fun fuel => create fuel g damping := by
  unfold create
  simp only [hdamping, Bool.not_true, Bool.false_eq_true, if_false]
  exact Diverges.map (recompute_diverges hn 200 1e-12)

/-- The counter is the number of dangling vertices, and a batch is repaired without a full solution
only if no vertex dangles before or after it and the number of vertices stays the same. -/
def DanglingRight (engine : IncrementalPageRank G D) : Prop :=
  engine.danglingVertices = danglingCount engine.graph ∧
    ∀ batch : UpdateBatch, GraphAccess.Updates engine.graph batch →
      ∀ fuel localIterations tol fraction exit engine',
        engine.apply fuel batch localIterations tol fraction = some (exit, engine') →
        exit.isLocal = true →
          danglingCount engine.graph = 0 ∧ danglingCount engine'.graph = 0 ∧
            vertexCount engine'.graph = vertexCount engine.graph

omit [HasInfinity D] in
/-- A sound engine is right. -/
theorem Sound.danglingRight (h : Sound engine) : DanglingRight engine := by
  refine ⟨h.dangling, fun batch hupdates fuel localIterations tol fraction exit engine' hrun hlocal => ?_⟩
  have hfacts := (apply_isLocal hrun hlocal).1
  rw [hfacts.graph]
  exact ⟨h.dangling.symm.trans hfacts.before,
    h.no_dangling hupdates hfacts.count hfacts.before hfacts.candidates,
    hfacts.count.trans h.rank_length⟩

/-- Construction and a run in which the vertices cannot be counted do not end. -/
theorem run_starves {g : G} {damping : D} (hdamping : validDamping damping = true)
    {steps : List (RankStep D)} (hlawful : RankStep.Lawful g steps)
    (hn : 2 ^ 32 ≤ vertexCount (steps.foldl RankStep.graphAfter g)) :
    Starves fun fuel => run fuel g damping steps := by
  by_cases hlt : vertexCount g < 2 ^ 32
  · refine (returns_create hdamping hlawful.twoSided hlt).starves_bind fun result hresult => ?_
    obtain ⟨engine, rfl, hsound, rfl⟩ := hresult
    exact (hsound.run_starves hlawful hn).map
  · exact (Diverges.bind (create_diverges hdamping (not_lt.mp hlt))).starves

/-- In every state of a lawful run the counter is right exactly when no graph of the run has
`2 ^ 32` vertices. -/
theorem dangling_right_iff (g : G) (damping : D) (hdamping : validDamping damping = true)
    (steps : List (RankStep D)) (hlawful : RankStep.Lawful g steps) :
    (∀ k, Returns (fun fuel => run fuel g damping (steps.take k)) fun result =>
        ∃ engine, result = .ok engine ∧
          engine.graph = (steps.take k).foldl RankStep.graphAfter g ∧ DanglingRight engine) ↔
      ∀ k, vertexCount ((steps.take k).foldl RankStep.graphAfter g) < 2 ^ 32 := by
  constructor
  · intro hall k
    by_contra hcount
    exact (run_starves hdamping (hlawful.take k) (not_lt.mp hcount)).not_returns (hall k)
  · intro hcount k
    refine (returns_create hdamping hlawful.twoSided (hcount 0)).bind fun result hresult => ?_
    obtain ⟨engine, rfl, hsound, rfl⟩ := hresult
    refine Returns.map ((hsound.run (hlawful.take k) fun j => ?_).mono fun last hlast => ?_)
    · rw [List.take_take]
      exact hcount (min j k)
    · exact ⟨last, rfl, hlast.2, hlast.1.danglingRight⟩

end IncrementalPageRank

/-- In exact arithmetic, a number beyond every finite double. -/
instance : HasInfinity ℚ := ⟨2 ^ 1024⟩

namespace IncrementalPageRank

/-- A run that adds a chord to a cycle, where no vertex is dangling. -/
theorem dangling_right_iff_chord :
    Returns (fun fuel => run fuel threeCycle (17 / 20 : ℚ)
      [.apply ⟨[⟨0, 2, true, 0⟩]⟩ 24 0 1000]) fun result =>
        ∃ engine, result = .ok engine ∧ engine.danglingVertices = 0 := by
  obtain ⟨hbefore, hafter, hupdates⟩ := threeCycle_chord
  have hlawful : RankStep.Lawful threeCycle [(.apply ⟨[⟨0, 2, true, 0⟩]⟩ 24 0 1000 : RankStep ℚ)] :=
    ⟨hbefore, fun _ => hupdates, hafter⟩
  have hcount : ∀ k, vertexCount (([(.apply ⟨[⟨0, 2, true, 0⟩]⟩ 24 0 1000 : RankStep ℚ)].take k).foldl
      RankStep.graphAfter threeCycle) < 2 ^ 32 := by
    intro k
    cases k with
    | zero => exact lt_of_eq_of_lt (show threeCycle.vertexCount = 3 by decide +kernel) (by norm_num)
    | succ k =>
      rw [List.take_of_length_le (by rw [List.length_singleton]; omega)]
      exact lt_of_eq_of_lt
        (show (threeCycle.apply ⟨[⟨0, 2, true, 0⟩]⟩).vertexCount = 3 by decide +kernel) (by norm_num)
  have hright := (dangling_right_iff threeCycle (17 / 20 : ℚ) (by decide +kernel) _ hlawful).mpr hcount
  refine (hright 1).mono fun result hresult => ?_
  obtain ⟨engine, hengine, hgraph, hdangling, -⟩ := hresult
  refine ⟨engine, hengine, hdangling.trans (danglingCount_eq_zero_iff.mpr fun v hv => ?_)⟩
  rw [hgraph] at hv ⊢
  obtain ⟨k, hk⟩ := v
  replace hv : k < 3 := lt_of_lt_of_eq hv (by decide +kernel)
  interval_cases k <;> decide +kernel +revert

/-- A batch that makes the last id a vertex does not end. -/
theorem not_dangling_right :
    ¬ ∀ (g : DynamicGraph ℚ) (damping : ℚ) (steps : List (RankStep ℚ)), validDamping damping = true →
      RankStep.Lawful g steps → ∀ k,
        Returns (fun fuel => run fuel g damping (steps.take k)) fun result =>
          ∃ engine, result = .ok engine ∧
            engine.graph = (steps.take k).foldl RankStep.graphAfter g ∧ DanglingRight engine := by
  intro h
  have hstart := @DynamicGraph.mirrored_create ℚ 1 true
  have hone := (@DynamicGraph.refines_create ℚ 1 true).2
  -- the last id stays behind a name, so that nothing evaluates a graph of `2 ^ 32` vertices
  obtain ⟨batch, hbatch⟩ : ∃ batch : UpdateBatch, batch = ⟨[⟨0, 4294967295, true, 0⟩]⟩ := ⟨_, rfl⟩
  have hne : ¬ batch.empty = true := by
    rw [hbatch]
    decide
  have hadd : ∀ e ∈ batch.updates, e.add = true := by
    rw [hbatch]
    simp
  have hlast : 2 ^ 32 ≤ growAll 1 batch.updates := by
    rw [hbatch]
    decide
  clear hbatch
  have hsettles := @DynamicGraph.settles_create ℚ 1 true batch hadd
  generalize (DynamicGraph.create 1 true : DynamicGraph ℚ) = g at hstart hone hsettles
  have hgrown := (hstart.toRefines.apply batch).2.1
  rw [hone] at hgrown
  have hafter : ∀ localIterations : ℕ, ∀ tol fraction : ℚ,
      (RankStep.apply batch localIterations tol fraction).graphAfter g = g.apply batch :=
    fun _ _ _ => if_neg hne
  have hlawful : RankStep.Lawful g [(.apply batch 24 0 1 : RankStep ℚ)] := by
    refine ⟨hstart.twoSided, fun _ => hstart.toRefines.updates batch, ?_⟩
    rw [hafter]
    exact (hstart.apply hsettles).twoSided
  have hcount : 2 ^ 32 ≤ vertexCount ([(.apply batch 24 0 1 : RankStep ℚ)].foldl
      RankStep.graphAfter g) := by
    rw [List.foldl_cons, List.foldl_nil, hafter]
    exact hlast.trans_eq hgrown.symm
  have hdamping : validDamping (17 / 20 : ℚ) = true := by decide +kernel
  exact (run_starves hdamping hlawful hcount).not_returns (h g (17 / 20) _ hdamping hlawful 1)

end IncrementalPageRank

end VeloGraphX
