import Mathlib
import VeloGraphX.Incremental.ComponentRepair
import VeloGraphX.Incremental.EngineSteps

/-!
# Runs of the component engine

An engine is constructed on a reachable undirected graph; batches, compactions and queries
follow. Two vertices have one component exactly when arcs connect them, in every state, as long
as the first vertices can be counted by an `int` and all of them by a 32-bit id. With `2 ^ 32` vertices
the loops over all of them never end.
-/

namespace VeloGraphX

open FuelLoop DisjointSets ArcSet GraphAccess

/-- A step of a run: queries compress paths, so they are steps as well. -/
inductive ComponentStep (D : Type)
  | engine (step : EngineStep D)
  | component (v : VertexId)

namespace ComponentStep

variable {D : Type}

/-- The operations of a step. -/
def updates : ComponentStep D → List EdgeUpdate
  | engine step => step.updates
  | component _ => []

variable [DoubleArith D]

/-- What a step does to the graph. -/
def graphAfter (g : DynamicGraph D) : ComponentStep D → DynamicGraph D
  | engine step => step.graphAfter g
  | component _ => g

/-- Execute a step. -/
def exec (fuel : ℕ) (engine : IncrementalComponents (DynamicGraph D)) :
    ComponentStep D → Option (IncrementalComponents (DynamicGraph D))
  | .engine (.apply batch) => engine.apply fuel batch
  | .engine (.maybeCompact threshold) =>
    some { engine with graph := (engine.graph.maybeCompact threshold).2 }
  | .engine .compact => some { engine with graph := engine.graph.compact }
  | .component v => (engine.component fuel v).map Prod.snd

end ComponentStep

namespace IncrementalComponents

variable {D : Type} [DoubleArith D]

/-- Construct an engine and execute a run. -/
def run (fuel : ℕ) (g : DynamicGraph D) (steps : List (ComponentStep D)) :
    Option (Except Exception (IncrementalComponents (DynamicGraph D))) :=
  engineRun (create fuel g) (ComponentStep.exec fuel) steps

/-- Two calls of `component`, one after the other, return one root exactly when they should. -/
def ReturnsOneRootIff {G : Type} (engine : IncrementalComponents G) (u v : VertexId)
    (connected : Prop) : Prop :=
  Returns (fun fuel => (engine.component fuel u).bind fun first =>
      (first.2.component fuel v).map fun second => (first.1, second.1))
    fun roots => ∃ a b, roots = (.ok a, .ok b) ∧ (a = b ↔ connected)

/-- Two vertices have one component exactly when arcs of the current graph connect them. -/
def Right {G : Type} [GraphAccess G] (engine : IncrementalComponents G) : Prop :=
  ∀ u v : VertexId, u.val < vertexCount engine.graph → v.val < vertexCount engine.graph →
    engine.ReturnsOneRootIff u v
      (Relation.ReflTransGen (fun p q => q ∈ forEachNeighbor engine.graph p) u v)

/-- In an undirected graph, paths generate the equivalence. -/
theorem reflTransGen_iff_eqvGen {arcs : ArcSet} (h : Undirected arcs) {u v : VertexId} :
    Relation.ReflTransGen (fun p q => (p, q) ∈ arcs) u v ↔
      Relation.EqvGen (fun p q => (p, q) ∈ arcs) u v := by
  refine ⟨fun hpath => ?_, fun hpath => ?_⟩
  · induction hpath with
    | refl => exact .refl u
    | tail _ harc ih => exact ih.trans _ _ _ (.rel _ _ harc)
  · refine eqvGen_le ⟨fun p => .refl, fun hpq => ?_, fun hpq hqr => hpq.trans hqr⟩
      (fun p q => .single) hpath
    induction hpq with
    | refl => exact .refl
    | tail _ harc ih => exact .head (h _ _ harc) ih

/-- A correct engine is right about its graph. -/
theorem Correct.right {G : Type} [GraphAccess G] {engine : IncrementalComponents G}
    {arcs : ArcSet} (h : Correct engine arcs) : Right engine := by
  intro u v hu hv
  have harcs : (fun p q => q ∈ forEachNeighbor engine.graph p) =
      fun p q : VertexId => (p, q) ∈ arcs := by
    funext p q
    exact propext (h.serves.mem_neighbor p q)
  rw [harcs, reflTransGen_iff_eqvGen (h.serves.simple.undirected h.undirected)]
  obtain ⟨r, hr⟩ := h.represents.forest u
  obtain ⟨s, hs⟩ := h.represents.forest v
  refine (h.component hu hr).bind fun first hfirst => ?_
  obtain ⟨answer, engine'⟩ := first
  obtain ⟨rfl, hcorrect, hgraph, hkept⟩ := hfirst
  refine Returns.map ((hcorrect.component (hgraph ▸ hv) (hkept v s hs)).mono fun second hsecond => ?_)
  obtain ⟨answer', engine''⟩ := second
  obtain ⟨rfl, -⟩ := hsecond
  refine ⟨r, s, rfl, ?_⟩
  rw [← h.represents.same u v]
  refine ⟨fun heq => ⟨r, hr, ?_⟩, fun ⟨t, ht, ht'⟩ => ?_⟩
  · rw [heq]
    exact hs
  · rw [hr.unique ht, hs.unique ht']

variable {engine : IncrementalComponents (DynamicGraph D)} {arcs : ArcSet}

/-- A state of a run: the engine is right about a graph that represents the arcs. -/
structure Sound (engine : IncrementalComponents (DynamicGraph D)) (arcs : ArcSet) : Prop where
  correct : Correct engine arcs
  refines : DynamicGraph.Refines engine.graph arcs

/-- A compaction of the graph keeps the engine right. -/
theorem Sound.maintained (h : Sound engine arcs) {g' : DynamicGraph D}
    (hrefines : DynamicGraph.Refines g' arcs) (hcount : g'.vertexCount = engine.graph.vertexCount)
    (hdirected : g'.directed = false) : Sound { engine with graph := g' } arcs := by
  have hsized := h.correct.sized
  have hlt := h.correct.count_lt
  change UnionFind.Sized engine.graph.vertexCount engine.sets at hsized
  change engine.graph.vertexCount < 2 ^ 32 at hlt
  rw [← hcount] at hsized hlt
  exact ⟨⟨hrefines.serves, hdirected, hlt, hsized, h.correct.represents⟩, hrefines⟩

/-- One step keeps the engine right as long as the vertices can be counted. -/
theorem Sound.exec (h : Sound engine arcs) (step : ComponentStep D)
    (hcount : growAll engine.graph.vertexCount step.updates < 2 ^ 32) :
    Returns (fun fuel => step.exec fuel engine) fun engine' =>
      Sound engine' (applyAll false arcs step.updates) ∧
        engine'.graph = step.graphAfter engine.graph ∧
        engine'.graph.vertexCount = growAll engine.graph.vertexCount step.updates := by
  have hundirected : engine.graph.directed = false := h.correct.undirected
  cases step with
  | engine step =>
    obtain ⟨hrefines, hgrown, hdirected⟩ := h.refines.step step
    rw [hundirected] at hrefines hdirected
    cases step with
    | apply batch =>
      have happlied := h.correct.apply (h.refines.applies batch) (hgrown.le.trans_lt hcount)
      refine happlied.mono fun engine' hengine => ?_
      obtain ⟨hcorrect, hgraph⟩ := hengine
      have hsame : engine'.graph = engine.graph.apply batch :=
        hgraph.trans (DynamicGraph.handedOn_eq engine.graph batch)
      refine ⟨⟨hcorrect, ?_⟩, hsame, ?_⟩
      · rw [hsame]
        exact hrefines
      · rw [hsame]
        exact hgrown
    | maybeCompact threshold => exact Returns.pure ⟨h.maintained hrefines hgrown hdirected, rfl, hgrown⟩
    | compact => exact Returns.pure ⟨h.maintained hrefines hgrown hdirected, rfl, hgrown⟩
  | component v =>
    by_cases hv : v.val < engine.graph.vertexCount
    · obtain ⟨r, hr⟩ := h.correct.represents.forest v
      refine Returns.map ((h.correct.component hv hr).mono fun result hresult => ?_)
      obtain ⟨-, hcorrect, hgraph, -⟩ := hresult
      exact ⟨⟨hcorrect, hgraph ▸ h.refines⟩, hgraph, congrArg DynamicGraph.vertexCount hgraph⟩
    · unfold ComponentStep.exec IncrementalComponents.component
      have hout : engine.sets.parent.length ≤ v.val :=
        h.correct.sized.parent_length.le.trans (not_lt.mp hv)
      simp only [if_pos hout, Option.map_some]
      exact Returns.pure ⟨h, rfl, rfl⟩

/-- A step after which the vertices cannot be counted does not end. -/
theorem Sound.exec_starves (h : Sound engine arcs) (step : ComponentStep D)
    (hcount : 2 ^ 32 ≤ growAll engine.graph.vertexCount step.updates) :
    Starves fun fuel => step.exec fuel engine := by
  have hlt : engine.graph.vertexCount < 2 ^ 32 := h.correct.count_lt
  cases step with
  | engine step =>
    cases step with
    | apply batch =>
      have hgrown := (h.refines.apply batch).2.1
      change 2 ^ 32 ≤ growAll engine.graph.vertexCount batch.updates at hcount
      have hlast := hcount.trans hgrown.ge
      exact h.correct.apply_starves
        (DynamicGraph.batch_nonempty_of_growth (hlt.trans_le hlast)) hlast
    | maybeCompact threshold => exact absurd hlt (not_lt.mpr hcount)
    | compact => exact absurd hlt (not_lt.mpr hcount)
  | component v => exact absurd hlt (not_lt.mpr hcount)

/-- The component engine counts the vertices. -/
theorem countsVertices : CountsVertices IncrementalComponents.graph ComponentStep.updates
    ComponentStep.graphAfter ComponentStep.exec
    fun engine : IncrementalComponents (DynamicGraph D) => ∃ arcs, Sound engine arcs := by
  refine ⟨fun engine hsound => ?_, fun engine step hsound hcount => ?_,
    fun engine step hsound hcount => ?_⟩ <;> obtain ⟨arcs, hsound⟩ := hsound
  · exact hsound.correct.count_lt
  · exact (hsound.exec step hcount).mono fun next hnext => ⟨⟨_, hnext.1⟩, hnext.2⟩
  · exact hsound.exec_starves step hcount

/-- The constructor on a reachable undirected graph. -/
theorem constructs {g : DynamicGraph D} (h : DynamicGraph.Refines g arcs)
    (hundirected : g.directed = false) :
    Constructs IncrementalComponents.graph (fun engine => ∃ arcs, Sound engine arcs)
      (fun fuel => create fuel g) g (2 ^ 31) := by
  have hcreate : ∀ fuel, create fuel g = (rebuild ⟨g, ⟨[], []⟩, 0⟩ fuel).map .ok := fun fuel => by
    unfold create
    rw [show isDirected g = false from hundirected]
    rfl
  constructor <;> intro hcount <;> simp only [hcreate]
  · have hrebuild := @rebuild_spec (DynamicGraph D) _ arcs ⟨g, ⟨[], []⟩, 0⟩ h.serves hundirected
      hcount
    refine Returns.map (hrebuild.mono fun engine hengine => ?_)
    exact ⟨engine, rfl, ⟨arcs, hengine.1, hengine.2.symm ▸ h⟩, hengine.2⟩
  · exact (Diverges.map (rebuild_diverges hcount)).starves

/-- Every state of a run is right exactly when the constructor finds fewer than `2 ^ 31` vertices and no
later state has `2 ^ 32`. -/
theorem components_right_iff (vertices : ℕ) (calls : List (Call D))
    (steps : List (ComponentStep D)) :
    let g := Call.run (DynamicGraph.create vertices false) calls
    (∀ k, Returns (fun fuel => run fuel g (steps.take k)) fun result =>
        ∃ engine, result = .ok engine ∧
          engine.graph = (steps.take k).foldl ComponentStep.graphAfter g ∧ Right engine) ↔
      g.vertexCount < 2 ^ 31 ∧
        growAll g.vertexCount (steps.flatMap ComponentStep.updates) < 2 ^ 32 := by
  dsimp only
  obtain ⟨hrefines, hundirected⟩ := (DynamicGraph.refines_create vertices false).1.run calls
  generalize Call.run (DynamicGraph.create vertices false) calls = g at hrefines hundirected ⊢
  change g.directed = false at hundirected
  refine countsVertices.engineRun_iff (constructs hrefines hundirected) (fun engine hsound => ?_)
    steps
  obtain ⟨arcs, hsound⟩ := hsound
  exact hsound.correct.right

/-- A batch that makes the last id a vertex does not end. -/
theorem not_components_right :
    ¬ ∀ (vertices : ℕ) (calls : List (Call ℚ)) (steps : List (ComponentStep ℚ)) (k : ℕ),
      let g := Call.run (DynamicGraph.create vertices false) calls
      Returns (fun fuel => run fuel g (steps.take k)) fun result =>
        ∃ engine, result = .ok engine ∧
          engine.graph = (steps.take k).foldl ComponentStep.graphAfter g ∧ Right engine := by
  intro h
  have hcount := (@DynamicGraph.refines_create ℚ 1 false).2
  have hstarves := countsVertices.engineRun_starves
    (constructs (@DynamicGraph.refines_create ℚ 1 false).1 rfl)
    [.engine (.apply ⟨[⟨0, 4294967295, true, 0⟩]⟩)] (by rw [hcount]; decide)
  exact hstarves.not_returns (h 1 [] [.engine (.apply ⟨[⟨0, 4294967295, true, 0⟩]⟩)] 1)

end IncrementalComponents

end VeloGraphX
