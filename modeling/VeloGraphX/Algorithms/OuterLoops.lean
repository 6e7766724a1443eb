import Mathlib
import VeloGraphX.Algorithms.StaticComponents
import VeloGraphX.Algorithms.StaticPageRank
import VeloGraphX.Algorithms.StaticTriangles
import VeloGraphX.Lib.TracedLoop

/-!
# The outer loops of the static algorithms

The static algorithms count the vertices with a 32-bit counter and compare it with a 64-bit number of
vertices. That number is `2 ^ 32` when an edge names the largest id, and then the counter wraps around
before it meets the bound.
-/

namespace VeloGraphX

open FuelLoop ArcSet
open DoubleArith (ofNat)

/-- A loop over the vertices that ends and has one turn for each of them. -/
def VisitsEach {σ : Type} (n : ℕ) (body : ℕ → VertexId → σ → Option σ) (s : σ) : Prop :=
  Returns (fun fuel => tracedLoop n body fuel (0 : VertexId) s) fun result => EachOnce n result.1

section Loops

variable {D : Type} [RankArith D]

/-- One turn of the loop over the dangling vertices in an iteration of `pagerank`. -/
def addDangling (g : CsrGraph) (rank : List D) (u : VertexId) (dangling : D) : D :=
  if (g.degree u).toOption = some 0 then dangling + rank.getD u 0.0 else dangling

/-- The loop of `connected_components`. -/
theorem connectedComponents_eq (g : CsrGraph) (fuel : ℕ) (hdirected : g.directed = false) :
    StaticComponents.connectedComponents g fuel =
      ((tracedLoop g.vertexCount (StaticComponents.componentTurn g) fuel (0 : VertexId)
        (StaticComponents.unvisited g, (0 : VertexId))).map Prod.snd).map
          fun state => .ok state.1.component := by
  rw [tracedLoop_erase, StaticComponents.connectedComponents, hdirected]
  rfl

/-- The loop of `triangle_count`. -/
theorem triangleCount_eq (g : CsrGraph) (fuel : ℕ) (hdirected : g.directed = false) :
    StaticTriangles.triangleCount g fuel =
      ((tracedLoop g.vertexCount (fun _ u triangles => some (StaticTriangles.countFrom g u triangles))
        fuel (0 : VertexId) 0).map Prod.snd).map .ok := by
  rw [tracedLoop_erase, StaticTriangles.triangleCount, hdirected]
  rfl

/-- The two loops of an iteration of `pagerank`. -/
theorem pagerankTurn_eq (g : CsrGraph) (damping : D) (fuel : ℕ) (rank : List D) :
    pagerankTurn g damping fuel rank =
      ((tracedLoop g.vertexCount (fun _ u dangling => some (addDangling g rank u dangling)) fuel
        (0 : VertexId) 0.0).map Prod.snd).bind fun dangling =>
      (tracedLoop g.vertexCount (fun _ u next => some (scatter g damping rank u next)) fuel
        (0 : VertexId) (List.replicate g.vertexCount ((1.0 - damping) / ofNat g.vertexCount +
          damping * dangling / ofNat g.vertexCount))).map Prod.snd := by
  simp only [tracedLoop_erase]
  rfl

/-- The outer loops visit every vertex once, and the algorithms end. On a directed graph the first and
the last throw before their loops. -/
structure LoopsRight (D : Type) [RankArith D] (g : CsrGraph) : Prop where
  components : g.directed = false → VisitsEach g.vertexCount (StaticComponents.componentTurn g)
    (StaticComponents.unvisited g, (0 : VertexId))
  dangling : ∀ rank : List D, VisitsEach g.vertexCount
    (fun _ u dangling => some (addDangling g rank u dangling)) 0.0
  scatter : ∀ (damping : D) (rank next : List D), VisitsEach g.vertexCount
    (fun _ u next => some (scatter g damping rank u next)) next
  triangles : g.directed = false → VisitsEach g.vertexCount
    (fun _ u triangles => some (StaticTriangles.countFrom g u triangles)) 0
  componentsEnd : Returns (StaticComponents.connectedComponents g) fun _ => True
  pagerankEnd : ∀ (damping : D) (maxIterations : ℕ) (tolerance : D),
    Returns (fun fuel => pagerank g fuel damping maxIterations tolerance) fun _ => True
  trianglesEnd : Returns (StaticTriangles.triangleCount g) fun _ => True

end Loops

section Fits

variable {D : Type} [RankArith D] {g : CsrGraph} {arcs : ArcSet}

/-- A loop whose turns return at once. -/
theorem visitsEach_of_fits {σ : Type} (hn : g.vertexCount < 2 ^ 32) (turn : VertexId → σ → σ) (s : σ) :
    VisitsEach g.vertexCount (fun _ u s => some (turn u s)) s :=
  (returns_tracedLoop hn (fun _ _ => True) (fun _ _ _ _ => Returns.pure trivial) trivial).mono
    fun _ hresult => hresult.1

/-- An iteration of `pagerank` ends. -/
theorem pagerankTurn_returns (hn : g.vertexCount < 2 ^ 32) (damping : D) (rank : List D) :
    Returns (fun fuel => pagerankTurn g damping fuel rank) fun _ => True :=
  (returns_vertexLoop hn _ _).bind fun _ _ => (returns_vertexLoop hn _ _).mono fun _ _ => trivial

/-- So do all iterations. -/
theorem pagerankLoop_returns (hn : g.vertexCount < 2 ^ 32) (damping tolerance : D) (left : ℕ)
    (rank : List D) :
    Returns (fun fuel => pagerankLoop g damping fuel tolerance left rank) fun _ => True := by
  induction left generalizing rank with
  | zero => exact Returns.pure trivial
  | succ left ih =>
    refine (pagerankTurn_returns hn damping rank).bind fun next _ => ?_
    dsimp only
    split
    · exact Returns.pure trivial
    · exact ih next

/-- `pagerank` ends. -/
theorem pagerank_returns (hn : g.vertexCount < 2 ^ 32) (damping : D) (maxIterations : ℕ)
    (tolerance : D) :
    Returns (fun fuel => pagerank g fuel damping maxIterations tolerance) fun _ => True := by
  unfold pagerank
  split
  · exact Returns.pure trivial
  · dsimp only
    split
    · exact Returns.pure trivial
    · exact Returns.map (pagerankLoop_returns hn damping tolerance maxIterations _)

/-- With fewer than `2 ^ 32` vertices the loops are right. -/
theorem CsrGraph.Holds.loopsRight (h : g.Holds arcs) (hn : g.vertexCount < 2 ^ 32) :
    LoopsRight D g := by
  refine ⟨fun hdirected => ?_, fun rank => visitsEach_of_fits hn (addDangling g rank) _,
    fun damping rank next => visitsEach_of_fits hn (VeloGraphX.scatter g damping rank) next,
    fun _ => visitsEach_of_fits hn (StaticTriangles.countFrom g) 0, ?_,
    fun damping maxIterations tolerance => pagerank_returns hn damping maxIterations tolerance, ?_⟩
  · have hundirected := h.simple.undirected hdirected
    exact (returns_tracedLoop hn (StaticComponents.Numbered g arcs)
      (fun _ _ hstart hinv => hinv.componentTurn h hundirected hn hstart)
      (StaticComponents.numbered_unvisited g arcs)).mono fun _ hresult => hresult.1
  · cases hdirected : g.directed with
    | true =>
      unfold StaticComponents.connectedComponents
      simp only [hdirected, if_true]
      exact Returns.pure trivial
    | false =>
      unfold StaticComponents.connectedComponents
      simp only [hdirected, Bool.false_eq_true, if_false]
      exact Returns.map ((StaticComponents.returns_components h (h.simple.undirected hdirected)
        hn).mono fun _ _ => trivial)
  · cases hdirected : g.directed with
    | true =>
      unfold StaticTriangles.triangleCount
      simp only [hdirected, if_true]
      exact Returns.pure trivial
    | false => exact (StaticTriangles.returns_triangleCount h hdirected hn).mono fun _ _ => trivial

/-- With `2 ^ 32` vertices the loops of an iteration do not end. -/
theorem not_loopsRight_of_wraps (hn : 2 ^ 32 ≤ g.vertexCount) : ¬ LoopsRight D g :=
  fun h => (h.dangling []).not_diverges (diverges_tracedLoop hn _ _ _)

end Fits

/-- The vertices can be counted in 32 bits exactly when no edge between different ids names the
largest one. -/
theorem vertexCount_lt_iff (edges : List (VertexId × VertexId)) (directed : Bool) :
    (CsrGraph.create edges directed).vertexCount < 2 ^ 32 ↔
      ∀ edge ∈ edges, edge.1 ≠ edge.2 →
        edge.1.val < 2 ^ 32 - 1 ∧ edge.2.val < 2 ^ 32 - 1 := by
  rw [← CsrGraph.vertexCount_create_le_iff edges directed]
  omega

/-- The loops are right exactly on the edge lists in which no edge between different ids names the
largest id. -/
theorem loops_right_iff (D : Type) [RankArith D] (edges : List (VertexId × VertexId))
    (directed : Bool) :
    LoopsRight D (CsrGraph.create edges directed) ↔
      ∀ edge ∈ edges, edge.1 ≠ edge.2 →
        edge.1.val < 2 ^ 32 - 1 ∧ edge.2.val < 2 ^ 32 - 1 := by
  rw [← vertexCount_lt_iff edges directed]
  refine ⟨fun h => ?_, fun hn => (CsrGraph.holds_create edges directed).loopsRight hn⟩
  by_contra hwraps
  exact not_loopsRight_of_wraps (not_lt.mp hwraps) h

/-- One edge to the largest id. -/
theorem not_loops_right :
    ¬ ∀ (edges : List (VertexId × VertexId)) (directed : Bool),
      LoopsRight ℚ (CsrGraph.create edges directed) := by
  intro h
  refine not_loopsRight_of_wraps (not_lt.mp fun hn => ?_) (h [(0, 4294967295)] false)
  have hends := (vertexCount_lt_iff _ _).mp hn _ List.mem_cons_self (by decide)
  exact absurd hends.2 (by decide)

end VeloGraphX
