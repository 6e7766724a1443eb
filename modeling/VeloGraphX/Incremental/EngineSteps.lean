import Mathlib
import VeloGraphX.Lib.FuelLoop
import VeloGraphX.Storage.DynamicGraphCalls

/-!
# Steps of an engine on a dynamic graph

An engine is given batches, and between them its graph may be compacted. The engines whose
results depend on the arcs alone share these steps: a compaction leaves the arcs and the vertices
as they are, and a batch makes the vertices grow by the endpoints of its simple edges. Engines that loop
over all vertices with a 32-bit counter have runs that end exactly when every graph of the run
has fewer than `2 ^ 32` vertices.
-/

namespace VeloGraphX

open FuelLoop ArcSet

/-- A batch given to the engine, or a compaction of its graph. -/
inductive EngineStep (D : Type)
  | apply (batch : UpdateBatch)
  | maybeCompact (threshold : D)
  | compact

namespace EngineStep

variable {D : Type}

/-- The operations of a step. -/
def updates : EngineStep D → List EdgeUpdate
  | apply batch => batch.updates
  | maybeCompact _ | compact => []

/-- What a step does to the graph. -/
def graphAfter [DoubleArith D] (g : DynamicGraph D) : EngineStep D → DynamicGraph D
  | apply batch => g.apply batch
  | maybeCompact threshold => (g.maybeCompact threshold).2
  | compact => g.compact

end EngineStep

/-- The vertices after a step and the rest of a run. -/
theorem growAll_flatMap_cons {α : Type*} (n : ℕ) (updates : α → List EdgeUpdate) (a : α)
    (rest : List α) : growAll n ((a :: rest).flatMap updates) =
      growAll (growAll n (updates a)) (rest.flatMap updates) := by
  rw [List.flatMap_cons, growAll, List.foldl_append]
  rfl

/-- The start of a run has no more vertices than the whole. -/
theorem growAll_take_le {α : Type*} (n : ℕ) (updates : α → List EdgeUpdate) (steps : List α)
    (k : ℕ) : growAll n ((steps.take k).flatMap updates) ≤ growAll n (steps.flatMap updates) := by
  calc growAll n ((steps.take k).flatMap updates)
      ≤ growAll (growAll n ((steps.take k).flatMap updates)) ((steps.drop k).flatMap updates) :=
        le_growAll _ _
    _ = growAll n ((steps.take k ++ steps.drop k).flatMap updates) := by
        rw [List.flatMap_append]
        exact (List.foldl_append).symm
    _ = growAll n (steps.flatMap updates) := by rw [List.take_append_drop]

namespace DynamicGraph

variable {D : Type} [DoubleArith D] {g : DynamicGraph D} {arcs : ArcSet}

/-- A step acts on the represented arcs as its operations do. -/
theorem Refines.step (h : Refines g arcs) (step : EngineStep D) :
    Refines (step.graphAfter g) (applyAll g.directed arcs step.updates) ∧
      (step.graphAfter g).vertexCount = growAll g.vertexCount step.updates ∧
      (step.graphAfter g).directed = g.directed := by
  cases step with
  | apply batch =>
    obtain ⟨hrefines, hcount, hdirected, -⟩ := h.apply batch
    exact ⟨hrefines, hcount, hdirected⟩
  | maybeCompact threshold =>
    have hkept := maybeCompact_spec h.outgoing.toTracked h.incoming threshold
    obtain ⟨hrefines, hcount⟩ := h.maintained hkept
    exact ⟨hrefines, hcount, hkept.directed⟩
  | compact =>
    obtain ⟨hkept, -⟩ := compact_spec h.outgoing.toTracked h.incoming
    obtain ⟨hrefines, hcount⟩ := h.maintained hkept
    exact ⟨hrefines, hcount, hkept.directed⟩

/-- An empty batch leaves the graph as it is. -/
theorem apply_of_empty {batch : UpdateBatch} (hempty : batch.empty = true) :
    g.apply batch = g := by
  have hnil : batch.updates = [] := List.isEmpty_iff.mp hempty
  unfold DynamicGraph.apply
  rw [hnil]
  exact if_pos hempty

/-- Engines do not hand on an empty batch, which makes no difference. -/
theorem handedOn_eq (g : DynamicGraph D) (batch : UpdateBatch) :
    (if batch.empty then g else g.apply batch) = g.apply batch := by
  split
  · rename_i hempty
    exact (apply_of_empty hempty).symm
  · rfl

/-- A batch that makes the vertices grow is not empty. -/
theorem batch_nonempty_of_growth {batch : UpdateBatch}
    (hgrowth : g.vertexCount < (g.apply batch).vertexCount) : batch.empty = false := by
  refine Bool.eq_false_iff.mpr fun hempty => ?_
  rw [apply_of_empty hempty] at hgrowth
  exact absurd hgrowth (lt_irrefl _)

end DynamicGraph

section Runs

variable {D E α : Type}

/-- Construct an engine and execute the steps of a run. -/
def engineRun (create : Option (Except Exception E)) (exec : E → α → Option E) (steps : List α) :
    Option (Except Exception E) :=
  create.bind fun result =>
    match result with
    | .error e => some (.error e)
    | .ok engine => (foldRun exec steps engine).map .ok

variable (graphOf : E → DynamicGraph D) (updates : α → List EdgeUpdate)
  (graphAfter : DynamicGraph D → α → DynamicGraph D) (exec : ℕ → E → α → Option E)
  (sound : E → Prop)

/-- An engine that counts the vertices in 32 bits: its steps end, and keep it sound, as long as
the vertices after the step can be counted, and do not end otherwise. -/
structure CountsVertices : Prop where
  count_lt : ∀ engine, sound engine → (graphOf engine).vertexCount < 2 ^ 32
  step : ∀ engine a, sound engine →
    growAll (graphOf engine).vertexCount (updates a) < 2 ^ 32 →
    Returns (fun fuel => exec fuel engine a) fun engine' =>
      sound engine' ∧ graphOf engine' = graphAfter (graphOf engine) a ∧
        (graphOf engine').vertexCount = growAll (graphOf engine).vertexCount (updates a)
  starves : ∀ engine a, sound engine →
    2 ^ 32 ≤ growAll (graphOf engine).vertexCount (updates a) →
    Starves fun fuel => exec fuel engine a

variable {graphOf updates graphAfter exec sound}

/-- A run keeps the engine sound as long as the vertices can be counted. -/
theorem CountsVertices.run (h : CountsVertices graphOf updates graphAfter exec sound)
    (steps : List α) {engine : E} (hsound : sound engine)
    (hcount : growAll (graphOf engine).vertexCount (steps.flatMap updates) < 2 ^ 32) :
    Returns (fun fuel => foldRun (exec fuel) steps engine) fun engine' =>
      sound engine' ∧ graphOf engine' = steps.foldl graphAfter (graphOf engine) := by
  induction steps generalizing engine with
  | nil => exact Returns.pure ⟨hsound, rfl⟩
  | cons step rest ih =>
    rw [growAll_flatMap_cons] at hcount
    refine (h.step engine step hsound ((le_growAll _ _).trans_lt hcount)).bind fun next hnext => ?_
    obtain ⟨hsound', hgraph, hgrown⟩ := hnext
    refine (ih hsound' (hgrown.symm ▸ hcount)).mono fun last hlast => ⟨hlast.1, ?_⟩
    rw [hlast.2, hgraph]
    rfl

/-- A run in which the vertices cannot be counted does not end. -/
theorem CountsVertices.run_starves (h : CountsVertices graphOf updates graphAfter exec sound)
    (steps : List α) {engine : E} (hsound : sound engine)
    (hcount : 2 ^ 32 ≤ growAll (graphOf engine).vertexCount (steps.flatMap updates)) :
    Starves fun fuel => foldRun (exec fuel) steps engine := by
  refine starves_foldRun (fun rest engine => sound engine ∧
    2 ^ 32 ≤ growAll (graphOf engine).vertexCount (rest.flatMap updates))
    (fun engine hnil => ?_) (fun step rest engine hinv => ?_) steps engine ⟨hsound, hcount⟩
  · exact absurd (h.count_lt engine hnil.1) (not_lt.mpr hnil.2)
  · obtain ⟨hsound, hcount⟩ := hinv
    rw [growAll_flatMap_cons] at hcount
    by_cases hlt : growAll (graphOf engine).vertexCount (updates step) < 2 ^ 32
    · refine Or.inr ((h.step engine step hsound hlt).mono fun next hnext => ⟨hnext.1, ?_⟩)
      rw [hnext.2.2]
      exact hcount
    · exact Or.inl (h.starves engine step hsound (not_lt.mp hlt))

/-- The constructor of such an engine, which ends for fewer vertices than its own limit. -/
structure Constructs (graphOf : E → DynamicGraph D) (sound : E → Prop)
    (create : ℕ → Option (Except Exception E)) (g : DynamicGraph D) (limit : ℕ) : Prop where
  returns : g.vertexCount < limit → Returns create fun result =>
    ∃ engine, result = .ok engine ∧ sound engine ∧ graphOf engine = g
  starves : limit ≤ g.vertexCount → Starves create

variable {create : ℕ → Option (Except Exception E)} {g : DynamicGraph D} {limit : ℕ}

/-- Construction and a run do not end where the vertices are too many for the one or the other. -/
theorem CountsVertices.engineRun_starves
    (h : CountsVertices graphOf updates graphAfter exec sound)
    (hcreate : Constructs graphOf sound create g limit) (steps : List α)
    (hcount : ¬ (g.vertexCount < limit ∧
      growAll g.vertexCount (steps.flatMap updates) < 2 ^ 32)) :
    Starves fun fuel => engineRun (create fuel) (exec fuel) steps := by
  by_cases hlt : g.vertexCount < limit
  · refine (hcreate.returns hlt).starves_bind fun result hresult => ?_
    obtain ⟨engine, rfl, hsound, rfl⟩ := hresult
    exact (h.run_starves steps hsound (not_lt.mp fun hfits => hcount ⟨hlt, hfits⟩)).map
  · exact (hcreate.starves (not_lt.mp hlt)).bind

/-- All states of a run are what a sound state is exactly when the constructor and the steps can count
their vertices. -/
theorem CountsVertices.engineRun_iff (h : CountsVertices graphOf updates graphAfter exec sound)
    (hcreate : Constructs graphOf sound create g limit) {right : E → Prop}
    (hright : ∀ engine, sound engine → right engine) (steps : List α) :
    (∀ k, Returns (fun fuel => engineRun (create fuel) (exec fuel) (steps.take k)) fun result =>
        ∃ engine, result = .ok engine ∧
          graphOf engine = (steps.take k).foldl graphAfter g ∧ right engine) ↔
      g.vertexCount < limit ∧ growAll g.vertexCount (steps.flatMap updates) < 2 ^ 32 := by
  constructor
  · intro hall
    by_contra hcount
    have hlast := hall steps.length
    rw [List.take_length] at hlast
    exact (h.engineRun_starves hcreate steps hcount).not_returns hlast
  · rintro ⟨hlt, hcount⟩ k
    refine (hcreate.returns hlt).bind fun result hresult => ?_
    obtain ⟨engine, rfl, hsound, rfl⟩ := hresult
    refine Returns.map ((h.run (steps.take k) hsound
      ((growAll_take_le _ _ _ k).trans_lt hcount)).mono fun last hlast => ?_)
    exact ⟨last, rfl, hlast.2, hright last hlast.1⟩

end Runs

end VeloGraphX
