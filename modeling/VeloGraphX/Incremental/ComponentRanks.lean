import Mathlib
import VeloGraphX.Incremental.ComponentLog

/-!
# Ranks in the runs of the component engine

Where the constructor has a result, in every run, also in one that never ends, `find` is called on
forests that are ordered by rank, so 33 nested calls are enough for it, and no rank leaves its 8 bits. A
reset takes whole trees apart and sets their ranks to zero, and new vertices are alone with rank zero.
-/

namespace VeloGraphX

open FuelLoop PointUpdate DisjointSets ArcSet GraphAccess UnionFind

namespace IncrementalComponents

section Steadiness

variable {G : Type} [GraphAccess G]

theorem steady_uniteNeighbors (g : G) (keep : VertexId → Bool) (u : VertexId) (sets : UnionFind) :
    Steady fun fuel => uniteNeighbors fuel g keep u sets := by
  refine steady_foldRun (fun sets v => ?_) _ sets
  split
  · exact steady_unite _ sets u v
  · exact .pure _

theorem steady_rebuild (engine : IncrementalComponents G) :
    Steady fun fuel => engine.rebuild fuel :=
  (Steady.pure (iota _)).bind fun _ =>
    (steady_countLoop _ (fun u sets => steady_uniteNeighbors _ _ u sets) _ _).map _

theorem steady_create (g : G) : Steady fun fuel => create fuel g := by
  unfold create
  split
  · exact .pure _
  · exact (steady_rebuild _).map _

theorem steady_component {G : Type} (engine : IncrementalComponents G) (v : VertexId) :
    Steady fun fuel => engine.component fuel v := by
  unfold component
  split
  · exact .pure _
  · exact (steady_find _ v).map _

theorem steady_collectRoots (g : G) (state : List VertexId × UnionFind) (op : EdgeUpdate) :
    Steady fun fuel => collectRoots g fuel state op := by
  unfold collectRoots
  dsimp only
  split
  · exact (steady_find _ op.src).bind fun found => (steady_find found.2 op.dst).map _
  · exact .pure _

theorem steady_markLoop (roots : List VertexId) (n : ℕ) (marking : Marking) :
    Steady fun fuel => if roots.isEmpty then some marking
      else countLoop n (markAffected roots) fuel (0 : VertexId) marking := by
  split
  · exact .pure _
  · exact steady_countLoop n (fun v (state : Marking) => (steady_find state.sets v).map _) _ _

theorem steady_resetLoop (affected : List ℕ) (n : ℕ) (sets : UnionFind) :
    Steady fun fuel =>
      countLoop n (fun _ v sets => some (resetVertex affected v sets)) fuel (0 : VertexId) sets :=
  steady_countLoop n (fun v sets => .pure (some (resetVertex affected v sets))) _ _

theorem steady_rebuildVertex (g : G) (affected : List ℕ) (u : VertexId) (sets : UnionFind) :
    Steady fun fuel => rebuildVertex g affected fuel u sets := by
  unfold rebuildVertex
  split
  · exact .pure _
  · exact steady_uniteNeighbors _ _ u sets

theorem steady_uniteAddition (g : G) (sets : UnionFind) (op : EdgeUpdate) :
    Steady fun fuel => uniteAddition g fuel sets op := by
  unfold uniteAddition
  split
  · exact steady_unite _ sets op.src op.dst
  · exact .pure _

theorem steady_finish (g : G) (canonical : UpdateBatch) (roots : List VertexId)
    (state : Marking) : Steady fun fuel => finish g canonical roots fuel state := by
  refine (steady_ensureCapacity _ _).bind fun sets => Steady.bind ?_ fun sets =>
    (steady_foldRun (steady_uniteAddition g) _ sets).map _
  split
  · exact .pure _
  · exact (steady_resetLoop _ _ _).bind fun sets =>
      steady_countLoop _ (steady_rebuildVertex g _) _ sets

theorem steady_apply (engine : IncrementalComponents G) (batch : UpdateBatch) :
    Steady fun fuel => engine.apply fuel batch := by
  unfold apply
  split
  · exact .pure _
  · exact (steady_foldRun (steady_collectRoots _) _ _).bind fun state =>
      (steady_markLoop state.1 _ _).bind fun marking => steady_finish _ _ _ marking

end Steadiness

section Engine

variable {G : Type} {g : G} {n : ℕ} {sets : UnionFind} {arcs : ArcSet}
  {parent : VertexId → VertexId}

/-- `component` keeps the structure. -/
theorem componentLogged_obeys {engine : IncrementalComponents G}
    (h : Balanced n engine.sets) (fuel : ℕ) (v : VertexId) :
    (engine.componentLogged fuel v).Obeys SetEvent.Allowed fun result =>
      result.2.graph = engine.graph ∧ Balanced n result.2.sets := by
  unfold componentLogged
  split
  · rename_i hout
    refine .silent fun result hrun => ?_
    rw [component, if_pos hout] at hrun
    exact Option.some.inj hrun ▸ ⟨rfl, h⟩
  · rename_i hinside
    have hv : v.val < n := h.sized.parent_length ▸ not_le.mp hinside
    exact Logged.Obeys.map ((h.findLogged hv fuel).mono fun found hfound => ⟨rfl, hfound.2.1⟩)

variable [GraphAccess G]

/-- The unions along the edges of one vertex keep the structure. -/
theorem uniteNeighborsLogged_obeys (hserves : Serves g arcs) (hcount : vertexCount g = n)
    (h : Balanced n sets) (fuel : ℕ) (keep : VertexId → Bool) (u : VertexId) :
    (uniteNeighborsLogged fuel g keep u sets).Obeys SetEvent.Allowed (Balanced n) := by
  refine Logged.obeys_fold (Balanced n) (fun v hv sets h => ?_) h
  split
  · have hends := hserves.simple.within u v ((hserves.mem_neighbor u v).mp hv)
    rw [hcount] at hends
    exact h.uniteLogged hcount.le hends.1 hends.2 fuel
  · exact .pure h

/-- So does the constructor, however long its loop goes on. -/
theorem rebuildLogged_obeys {engine : IncrementalComponents G} (hserves : Serves engine.graph arcs)
    (fuel : ℕ) :
    (engine.rebuildLogged fuel).Obeys SetEvent.Allowed fun engine' =>
      engine'.graph = engine.graph ∧ Balanced (vertexCount engine.graph) engine'.sets := by
  refine Logged.Obeys.bind (Logged.Obeys.silent fun parent hids => iota_eq_some hids)
    fun parent hparent => ?_
  subst hparent
  refine Logged.Obeys.map ((Logged.obeys_count (Balanced (vertexCount engine.graph))
    (fun fuel u sets _ h => ?_) fuel 0 (balanced_alone _)).mono fun sets hsets => ⟨rfl, hsets⟩)
  exact uniteNeighborsLogged_obeys hserves rfl h fuel _ u

/-- Collecting the roots of the region keeps the structure. -/
theorem collectRootsLogged_obeys {state : List VertexId × UnionFind} (h : Balanced n state.2)
    (fuel : ℕ) (op : EdgeUpdate) :
    (collectRootsLogged g fuel state op).Obeys SetEvent.Allowed fun state' =>
      Balanced n state'.2 := by
  obtain ⟨roots, sets⟩ := state
  unfold collectRootsLogged
  simp only [h.sized.parent_length]
  split
  · rename_i hcond
    simp only [Bool.and_eq_true, decide_eq_true_eq] at hcond
    refine (h.findLogged hcond.1.1.2 fuel).bind fun first hfirst => ?_
    exact Logged.Obeys.map ((hfirst.2.1.findLogged hcond.1.2 fuel).mono
      fun second hsecond => hsecond.2.1)
  · exact .pure h

/-- So does marking the region. -/
theorem markAffectedLogged_obeys {marking : Marking} (h : Balanced n marking.sets)
    (roots : List VertexId) (fuel : ℕ) {v : VertexId} (hv : v.val < n) :
    (markAffectedLogged roots fuel v marking).Obeys SetEvent.Allowed fun marking' =>
      Balanced n marking'.sets := by
  refine Logged.Obeys.map ((h.findLogged hv fuel).mono fun found hfound => ?_)
  dsimp only
  split
  · exact hfound.2.1
  · exact hfound.2.1

/-- The loop that marks the region, logged. -/
theorem markLoop_obeys {marking : Marking} (h : Balanced n marking.sets) (roots : List VertexId)
    (fuel : ℕ) :
    (if roots.isEmpty then Logged.silent (some marking)
      else Logged.count n (markAffectedLogged roots) fuel (0 : VertexId) marking).Obeys
        SetEvent.Allowed fun marking' => Balanced n marking'.sets := by
  split
  · exact .pure h
  · exact Logged.obeys_count (fun marking : Marking => Balanced n marking.sets)
      (fun fuel v marking hv h => markAffectedLogged_obeys h roots fuel hv) fuel 0 h

/-- Resetting the region keeps the structure: it takes whole trees apart. -/
theorem balanced_reset {R : Set VertexId} {affected : List ℕ} {fuel : ℕ} {last : UnionFind}
    (h : Balanced n sets) (hn : n < 2 ^ 32) (hmarks : Marks R n affected)
    (hclosed : ∀ v, v ∈ R ↔ sets.parentOf v ∈ R)
    (hrun : countLoop n (fun _ v sets => some (resetVertex affected v sets)) fuel (0 : VertexId)
      sets = some last) : Balanced n last := by
  classical
  obtain ⟨hsized, hparent, hrank⟩ :=
    (resetAll_spec h.sized hn hmarks).of_steady (steady_resetLoop affected n sets) hrun
  refine ⟨hsized, ?_⟩
  rw [hparent, hrank]
  exact h.ranked.reset hclosed

/-- Uniting the region again keeps the structure. -/
theorem rebuildVertexLogged_obeys (hserves : Serves g arcs) (hcount : vertexCount g = n)
    (h : Balanced n sets) (affected : List ℕ) (fuel : ℕ) (u : VertexId) :
    (rebuildVertexLogged g affected fuel u sets).Obeys SetEvent.Allowed (Balanced n) := by
  unfold rebuildVertexLogged
  split
  · exact .pure h
  · exact uniteNeighborsLogged_obeys hserves hcount h fuel _ u

/-- So do the unions of the inserted edges. -/
theorem uniteAdditionLogged_obeys (hcount : vertexCount g = n) (h : Balanced n sets) (fuel : ℕ)
    (op : EdgeUpdate) :
    (uniteAdditionLogged g fuel sets op).Obeys SetEvent.Allowed (Balanced n) := by
  unfold uniteAdditionLogged
  simp only [h.sized.parent_length]
  split
  · rename_i hcond
    simp only [Bool.and_eq_true, decide_eq_true_eq] at hcond
    exact h.uniteLogged hcount.le hcond.1.1.2 hcond.1.2 fuel
  · exact .pure h

/-- The part of `apply` after the graph has changed. -/
theorem finishLogged_obeys {m : ℕ} {roots : List VertexId} {marking : Marking}
    (hserves : Serves g arcs) (hcount : vertexCount g = m) (hle : n ≤ m) (hn : n < 2 ^ 32)
    (hforest : Forest parent) (h : Balanced n marking.sets)
    (hkept : Kept parent marking.sets.parentOf)
    (hmarks : Marks (region parent roots) n marking.affected) (canonical : UpdateBatch)
    (fuel : ℕ) :
    (finishLogged g canonical roots fuel marking).Obeys SetEvent.Allowed fun engine =>
      engine.graph = g ∧ Balanced m engine.sets := by
  unfold finishLogged
  rw [hcount]
  refine (Logged.Obeys.silent fun grown hrun => h.ensureCapacity hn hrun).bind
    fun grown hgrown => ?_
  obtain ⟨hm, hbalanced, hparent⟩ := hgrown
  rw [max_eq_right hle] at hbalanced
  rw [← hparent] at hkept
  have hclosed := mem_region_iff_parent hforest hkept roots
  dsimp only
  rw [hbalanced.sized.parent_length, length_resize]
  refine Logged.Obeys.bind (?_ : Logged.Obeys SetEvent.Allowed _ (Balanced m)) fun sets h =>
    Logged.Obeys.map ((Logged.obeys_fold (Balanced m) (fun op _ sets h =>
      uniteAdditionLogged_obeys hcount h fuel op) h).mono fun sets h => ⟨rfl, h⟩)
  split
  · exact .pure hbalanced
  · refine (Logged.Obeys.silent fun last hrun =>
      balanced_reset hbalanced hm (hmarks.resize hle) hclosed hrun).bind fun sets h => ?_
    exact Logged.obeys_count (Balanced m) (fun fuel u sets _ h =>
      rebuildVertexLogged_obeys hserves hcount h _ fuel u) fuel 0 h

/-- A batch keeps the structure. -/
theorem Correct.applyLogged_obeys {engine : IncrementalComponents G} (h : Correct engine arcs)
    (hbalanced : Balanced (vertexCount engine.graph) engine.sets) {batch : UpdateBatch}
    (happlies : Applies engine.graph arcs batch) (fuel : ℕ) :
    (engine.applyLogged fuel batch).Obeys SetEvent.Allowed fun engine' =>
      Balanced (vertexCount engine'.graph) engine'.sets := by
  unfold applyLogged
  split
  · exact .pure hbalanced
  have hcollected : (Logged.fold (collectRootsLogged engine.graph fuel)
      (canonicalizeUndirected batch).updates ([], engine.sets)).Obeys SetEvent.Allowed
        fun state => Balanced (vertexCount engine.graph) state.2 :=
    Logged.obeys_fold _ (fun op _ state hstate => collectRootsLogged_obeys hstate fuel op) hbalanced
  refine (hcollected.returns (Logged.fold_result (collectRootsLogged_result engine.graph fuel) _ _)
    (steady_foldRun (steady_collectRoots engine.graph) _ _)
    (Or.inl (collectRoots_spec h.represents.forest h.sized _))).bind fun state hstate => ?_
  obtain ⟨roots, sets⟩ := state
  obtain ⟨hcollected, -, hkept, hroots⟩ := hstate
  have hwithin := (region_spec h hroots).1
  dsimp only
  rw [hcollected.sized.parent_length]
  have hspec := marking_spec h.represents.forest hcollected.sized h.count_lt hkept roots hwithin
  refine ((markLoop_obeys hcollected roots fuel).returns (markLoop_result _ _ roots fuel)
    (steady_markLoop roots _ _) (Or.inl hspec)).bind fun marking hmarking => ?_
  obtain ⟨hmarked, -, hkept', hmarks⟩ := hmarking
  refine (finishLogged_obeys happlies.serves rfl happlies.vertexCount_le h.count_lt
    h.represents.forest hmarked hkept' hmarks _ fuel).mono fun engine' hengine => ?_
  rw [hengine.1]
  exact hengine.2

end Engine

section Runs

variable {D : Type} [DoubleArith D] {engine : IncrementalComponents (DynamicGraph D)}
  {arcs : ArcSet}

theorem steady_exec (step : ComponentStep D) (engine : IncrementalComponents (DynamicGraph D)) :
    Steady fun fuel => step.exec fuel engine := by
  cases step with
  | engine step =>
    cases step with
    | apply batch => exact steady_apply engine batch
    | maybeCompact threshold => exact .pure _
    | compact => exact .pure _
  | component v => exact (steady_component engine v).map _

/-- A state of a run: the engine is right about its graph, and its structure is ordered by rank. -/
def Ordered (engine : IncrementalComponents (DynamicGraph D)) : Prop :=
  (∃ arcs, Sound engine arcs) ∧ Balanced engine.graph.vertexCount engine.sets

/-- A step keeps the structure. -/
theorem Sound.execLogged_obeys (h : Sound engine arcs)
    (hbalanced : Balanced engine.graph.vertexCount engine.sets) (step : ComponentStep D)
    (fuel : ℕ) : (step.execLogged fuel engine).Obeys SetEvent.Allowed fun engine' =>
      Balanced engine'.graph.vertexCount engine'.sets := by
  cases step with
  | engine step =>
    have hgrown := (h.refines.step step).2.1
    cases step with
    | apply batch =>
      exact h.correct.applyLogged_obeys hbalanced (h.refines.applies batch) fuel
    | maybeCompact threshold => exact .pure (hgrown.symm ▸ hbalanced)
    | compact => exact .pure (hgrown.symm ▸ hbalanced)
  | component v =>
    refine Logged.Obeys.map ((componentLogged_obeys hbalanced fuel v).mono fun result hresult => ?_)
    rw [hresult.1]
    exact hresult.2

/-- A step leads from a state of a run to a state of a run. -/
theorem Ordered.execLogged_obeys (h : Ordered engine) (step : ComponentStep D) (fuel : ℕ) :
    (step.execLogged fuel engine).Obeys SetEvent.Allowed Ordered := by
  obtain ⟨⟨arcs, hsound⟩, hbalanced⟩ := h
  have hends : Returns (fun fuel => step.exec fuel engine) (fun engine' => ∃ arcs, Sound engine' arcs) ∨
      Starves fun fuel => step.exec fuel engine := by
    by_cases hcount : growAll engine.graph.vertexCount step.updates < 2 ^ 32
    · exact Or.inl ((hsound.exec step hcount).mono fun engine' hengine => ⟨_, hengine.1⟩)
    · exact Or.inr (hsound.exec_starves step (not_lt.mp hcount))
  exact ((hsound.execLogged_obeys hbalanced step fuel).returns (execLogged_result fuel engine step)
    (steady_exec step engine) hends).mono fun engine' hengine => ⟨hengine.2, hengine.1⟩

/-- The constructor leads to a state of a run. -/
theorem createLogged_obeys {g : DynamicGraph D} (h : DynamicGraph.Refines g arcs)
    (hundirected : g.directed = false) (fuel : ℕ) :
    (createLogged fuel g).Obeys SetEvent.Allowed fun result =>
      ∃ engine, result = .ok engine ∧ Ordered engine := by
  have hcreated : (createLogged fuel g).Obeys SetEvent.Allowed fun result =>
      ∀ engine, result = .ok engine → Balanced engine.graph.vertexCount engine.sets := by
    unfold createLogged
    rw [show isDirected g = false from hundirected]
    refine Logged.Obeys.map ((rebuildLogged_obeys h.serves fuel).mono fun engine hengine => ?_)
    rintro engine' heq
    obtain rfl := Except.ok.inj heq
    exact hengine.1 ▸ hengine.2
  have hconstructs := constructs h hundirected
  have hends := (lt_or_ge g.vertexCount (2 ^ 31)).imp hconstructs.returns hconstructs.starves
  refine (hcreated.returns (createLogged_result fuel g) (steady_create g) hends).mono
    fun result hresult => ?_
  obtain ⟨hbalanced, engine, hok, hsound, -⟩ := hresult
  exact ⟨engine, hok, hsound, hbalanced engine hok⟩

/-- The structure is a forest in which ranks rise along the parents and two to the rank of a root is at
most the size of its tree, so 33 nested calls of `find` are enough. -/
structure RankOrdered (engine : IncrementalComponents (DynamicGraph D)) : Prop where
  forest : Forest engine.sets.parentOf
  ranked : Ranked engine.sets.parentOf engine.sets.rankOf
  find : ∀ v : VertexId, v.val < engine.graph.vertexCount →
    ∃ found, engine.sets.find 33 v = some found

/-- A state of a run has such a structure. -/
theorem Ordered.rankOrdered (h : Ordered engine) : RankOrdered engine :=
  ⟨h.2.ranked.forest, h.2.ranked, fun _ hv => h.2.find_within hv⟩

/-- A run from a constructor that leads to a state of a run. -/
theorem runLogged_obeys {g : DynamicGraph D} (h : DynamicGraph.Refines g arcs)
    (hundirected : g.directed = false) (steps : List (ComponentStep D)) (fuel : ℕ) :
    (runLogged fuel g steps).Obeys SetEvent.Allowed fun result =>
      ∃ engine, result = .ok engine ∧ Ordered engine := by
  refine (createLogged_obeys h hundirected fuel).bind fun result hresult => ?_
  obtain ⟨engine, rfl, hordered⟩ := hresult
  exact Logged.Obeys.map ((Logged.obeys_fold Ordered
    (fun step _ engine h => h.execLogged_obeys step fuel) hordered).mono
      fun engine h => ⟨engine, rfl, h⟩)

/-- A constructor that has a result leads to a forest ordered by rank; in every run after it `find` is
called on such forests, and 33 nested calls are enough for it; no rank that is counted up leaves its 8
bits; and a run that ends leaves such a forest. -/
def KeepsRanks (g : DynamicGraph D) (steps : List (ComponentStep D)) : Prop :=
  (Returns (fun fuel => create fuel g) fun result =>
      ∃ engine, result = .ok engine ∧ RankOrdered engine) ∧
    ∀ fuel, (runLogged fuel g steps).result = run fuel g steps ∧
      (∀ event ∈ (runLogged fuel g steps).events, event.Allowed) ∧
      ∀ result, run fuel g steps = some result → ∃ engine, result = .ok engine ∧ RankOrdered engine

/-- The structure stays ordered by rank in every run exactly when the constructor can count the vertices
in an `int`. -/
theorem run_ranked_iff (vertices : ℕ) (calls : List (Call D)) (steps : List (ComponentStep D)) :
    let g := Call.run (DynamicGraph.create vertices false) calls
    KeepsRanks g steps ↔ g.vertexCount < 2 ^ 31 := by
  dsimp only
  obtain ⟨hrefines, hundirected⟩ := (DynamicGraph.refines_create vertices false).1.run calls
  generalize Call.run (DynamicGraph.create vertices false) calls = g at hrefines hundirected ⊢
  change g.directed = false at hundirected
  have hconstructs := constructs hrefines hundirected
  refine ⟨fun ⟨hcreate, _⟩ => ?_, fun hcount => ⟨?_, fun fuel => ?_⟩⟩
  · by_contra hmany
    exact (hconstructs.starves (not_lt.mp hmany)).not_returns hcreate
  · refine ((hconstructs.returns hcount).and_of_some fun fuel result hrun => ?_).mono
      fun result hresult => hresult.2
    obtain ⟨engine, heq, hordered⟩ := (createLogged_obeys hrefines hundirected fuel).result result
      ((createLogged_result fuel g).trans hrun)
    exact ⟨engine, heq, hordered.rankOrdered⟩
  · have hobeys := runLogged_obeys hrefines hundirected steps fuel
    refine ⟨runLogged_result fuel g steps, hobeys.events, fun result hrun => ?_⟩
    obtain ⟨engine, heq, hordered⟩ := hobeys.result result ((runLogged_result fuel g steps).trans hrun)
    exact ⟨engine, heq, hordered.rankOrdered⟩

/-- On `2 ^ 31` vertices the constructor has no result. -/
theorem not_run_ranked :
    ¬ ∀ (vertices : ℕ) (calls : List (Call ℚ)) (steps : List (ComponentStep ℚ)),
      KeepsRanks (Call.run (DynamicGraph.create vertices false) calls) steps := by
  intro h
  obtain ⟨hrefines, hcount⟩ := @DynamicGraph.refines_create ℚ (2 ^ 31) false
  exact ((constructs hrefines rfl).starves hcount.ge).not_returns (h (2 ^ 31) [] []).1

end Runs

end IncrementalComponents

end VeloGraphX
