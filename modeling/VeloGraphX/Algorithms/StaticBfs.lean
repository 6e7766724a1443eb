import Mathlib
import VeloGraphX.Incremental.BfsRuns
import VeloGraphX.Storage.CsrGraph

/-!
# Breadth-first distances of a static graph

The static search takes vertices off its queue where the engine's recomputation advances a head, and
it reads rows that may throw. On one graph the two go through the same distances turn by turn, so the
static search never throws once it runs, and it ends with what every engine over the same arcs has.
-/

namespace VeloGraphX

open FuelLoop ShortestPath ArcSet GraphAccess SortedList

namespace CsrGraph

/-- One turn of the loop in `bfs_distances`: the front leaves the queue and its row is scanned. -/
def searchTurn (g : CsrGraph) (state : List ℕ × List VertexId) :
    Except Exception (List ℕ × List VertexId) :=
  match state with
  | (distance, []) => .ok (distance, [])
  | (distance, u :: q) => (g.neighbors u).map fun row => row.foldl (visitArc u) (distance, q)

/-- The loop runs while there is no exception and the queue is not empty. -/
def searchGoesOn : Except Exception (List ℕ × List VertexId) → Bool
  | .ok (_, q) => !q.isEmpty
  | .error _ => false

/-- `bfs_distances`. -/
def bfsDistances (g : CsrGraph) (source : VertexId) (fuel : ℕ) :
    Option (Except Exception (List ℕ)) :=
  if g.vertexCount ≤ source then some (.error (.outOfRange "source outside graph"))
  else
    let distance := List.replicate g.vertexCount unreachable
    (whileLoop searchGoesOn (fun _ state => some (state.bind g.searchTurn)) fuel
      (.ok (distance.set source 0, [source]))).map (Except.map Prod.fst)

section Simulation

variable {n : ℕ} {u : VertexId}

/-- Visiting an arc appends to the queue, whatever stands before it. -/
theorem visitArc_append (left : List VertexId) (state : List ℕ × List VertexId) (v : VertexId) :
    visitArc u (state.1, left ++ state.2) v =
      ((visitArc u state v).1, left ++ (visitArc u state v).2) := by
  unfold visitArc
  dsimp only
  split
  · rw [List.append_assoc]
  · rfl

/-- So does scanning a row. -/
theorem foldl_visitArc_append (left row : List VertexId) (state : List ℕ × List VertexId) :
    row.foldl (visitArc u) (state.1, left ++ state.2) =
      ((row.foldl (visitArc u) state).1, left ++ (row.foldl (visitArc u) state).2) := by
  induction row generalizing state with
  | nil => rfl
  | cons v rest ih =>
    rw [List.foldl_cons, List.foldl_cons, visitArc_append]
    exact ih (visitArc u state v)

/-- Scanning a row puts only its vertices in the queue. -/
theorem mem_foldl_visitArc {row : List VertexId} {state : List ℕ × List VertexId} {x : VertexId}
    (hx : x ∈ (row.foldl (visitArc u) state).2) : x ∈ state.2 ∨ x ∈ row := by
  induction row generalizing state with
  | nil => exact Or.inl hx
  | cons v rest ih =>
    rcases ih hx with hx | hx
    · unfold visitArc at hx
      dsimp only at hx
      split at hx
      · refine (List.mem_append.mp hx).imp id fun hx => ?_
        exact List.mem_cons.mpr (Or.inl (List.mem_singleton.mp hx))
      · exact Or.inl hx
    · exact Or.inr (List.mem_cons_of_mem v hx)

/-- The engine keeps the vertices that have left the queue, and its head counts them. -/
def Follows (n : ℕ) (state : (List ℕ × List VertexId) × ℕ)
    (result : Except Exception (List ℕ × List VertexId)) : Prop :=
  ∃ distance left q, state = ((distance, left ++ q), left.length) ∧ result = .ok (distance, q) ∧
    ∀ v ∈ q, v.val < n

variable {G : Type} [GraphAccess G] {g : CsrGraph} {g' : G} {arcs : ArcSet}

/-- The rows of a static graph are those that a backend enumerates. -/
def SameRows (g : CsrGraph) (g' : G) : Prop :=
  ∀ u : VertexId, u.val < g.vertexCount → g.neighbors u = .ok (forEachNeighbor g' u)

/-- One turn on either side. -/
theorem Follows.turn (hrows : SameRows g g')
    (hwithin : ∀ u v, v ∈ forEachNeighbor g' u → v.val < g.vertexCount)
    {state : (List ℕ × List VertexId) × ℕ} {result : Except Exception (List ℕ × List VertexId)}
    (h : Follows g.vertexCount state result) (hgo : state.2 < state.1.2.length) :
    Follows g.vertexCount (visitTurn g' state) (result.bind g.searchTurn) := by
  obtain ⟨distance, left, q, rfl, rfl, hqueue⟩ := h
  cases q with
  | nil =>
    rw [List.append_nil] at hgo
    exact absurd hgo (lt_irrefl left.length)
  | cons u rest =>
    have hat : (left ++ u :: rest).getD left.length 0 = u := by simp [List.getD]
    have hsplit : left ++ u :: rest = left ++ [u] ++ rest := by simp
    refine ⟨((forEachNeighbor g' u).foldl (visitArc u) (distance, rest)).1, left ++ [u],
      ((forEachNeighbor g' u).foldl (visitArc u) (distance, rest)).2, ?_, ?_, fun v hv => ?_⟩
    · unfold visitTurn
      dsimp only
      rw [hat, hsplit, foldl_visitArc_append (left ++ [u]) _ (distance, rest), List.length_append,
        List.length_singleton]
    · change (g.neighbors u).map _ = _
      rw [hrows u (hqueue u List.mem_cons_self)]
      rfl
    · rcases mem_foldl_visitArc hv with hv | hv
      · exact hqueue v (List.mem_cons_of_mem u hv)
      · exact hwithin u v hv

/-- Both loops start with the source alone. -/
theorem follows_start {source : VertexId} (hsource : source.val < g.vertexCount) :
    Follows g.vertexCount (((List.replicate g.vertexCount unreachable).set source 0, [source]), 0)
      (.ok ((List.replicate g.vertexCount unreachable).set source 0, [source])) :=
  ⟨_, [], [source], rfl, rfl, fun _ hv => (List.mem_singleton.mp hv).symm ▸ hsource⟩

/-- Both loops end together. -/
theorem Follows.goesOn {state : (List ℕ × List VertexId) × ℕ}
    {result : Except Exception (List ℕ × List VertexId)} (h : Follows n state result) :
    decide (state.2 < state.1.2.length) = searchGoesOn result := by
  obtain ⟨distance, left, q, rfl, rfl, -⟩ := h
  cases q <;> simp [searchGoesOn]

/-- Over the same rows the static search computes what a recomputation does. -/
theorem bfsDistances_eq (hrows : SameRows g g') (hserves : Serves g' arcs)
    (hcount : g.vertexCount = GraphAccess.vertexCount g') {source : VertexId}
    (hsource : source.val < g.vertexCount) (fuel : ℕ) :
    bfsDistances g source fuel =
      (recomputeLevels fuel g' source).map fun levels => .ok levels.dist := by
  have hwithin : ∀ u v, v ∈ forEachNeighbor g' u → v.val < g.vertexCount := fun u v hv =>
    hcount ▸ (hserves.simple.within u v ((hserves.mem_neighbor u v).mp hv)).2
  have hloop := whileLoop_rel (Follows g.vertexCount) (fun _ _ hfollows => hfollows.goesOn)
    (fun _ _ _ hfollows hgo => .some (hfollows.turn hrows hwithin (of_decide_eq_true hgo))) fuel
    (follows_start hsource)
  unfold bfsDistances recomputeLevels
  rw [if_neg (not_le.mpr hsource), ← hcount, if_neg (not_le.mpr hsource), Option.map_map]
  dsimp only
  refine (map_eq_of_rel hloop fun state result hend => ?_).symm
  obtain ⟨distance, left, q, rfl, rfl, -⟩ := hend
  rfl

end Simulation

variable (edges : List (VertexId × VertexId)) (directed : Bool)

/-- A dynamic graph that is bulk loaded from the same edges, for exact arithmetic. -/
def bulkLoaded : DynamicGraph ℚ := (DynamicGraph.create 0 directed).bulkLoadEdges edges

/-- It serves the arcs of the static graph, in the same rows. -/
theorem bulkLoaded_spec :
    DynamicGraph.Mirrored (bulkLoaded edges directed) (ofEdges directed edges) ∧
      (create edges directed).vertexCount = (bulkLoaded edges directed).vertexCount ∧
      SameRows (create edges directed) (bulkLoaded edges directed) := by
  obtain ⟨hcreated, hempty⟩ := @DynamicGraph.refines_create ℚ 0 directed
  obtain ⟨hrefines, hcount, -⟩ := hcreated.bulkLoadEdges edges
  have hmirrored := (@DynamicGraph.mirrored_create ℚ 0 directed).bulkLoadEdges
    (hempty.trans_le (Nat.zero_le _)) edges
  refine ⟨hmirrored, ?_, fun u hu => ?_⟩
  · rw [vertexCount_create, bulkLoaded, hcount, hempty]
  · obtain ⟨row, hrow, hascending, hmem⟩ := (holds_create edges directed).neighbors u hu
    have hsame : row = (bulkLoaded edges directed).neighbors u :=
      eq_of_mem_iff hascending (hrefines.ascending_neighbors u) fun v =>
        (hmem v).trans (hrefines.mem_neighbors u v).symm
    rw [hrow, hsame]
    exact congrArg Except.ok (DynamicGraph.forEachNeighbor_eq _ u).symm

/-- The search ends in levels that are exact for the arcs of the edge list. -/
theorem returns_bfsDistances (hcount : (create edges directed).vertexCount < unreachable)
    {source : VertexId} (hsource : source.val < (create edges directed).vertexCount) :
    Returns (bfsDistances (create edges directed) source) fun result => ∃ levels : Levels,
      result = .ok levels.dist ∧ Leveled (create edges directed).vertexCount levels ∧
        Exact (startAt source (create edges directed).vertexCount)
          (unitArc (ofEdges directed edges)) unreachable levels.labels := by
  obtain ⟨hmirrored, hsame, hrows⟩ := bulkLoaded_spec edges directed
  have hserves := hmirrored.toRefines.serves
  rw [hsame] at hcount
  have heq : bfsDistances (create edges directed) source = fun fuel =>
      (recomputeLevels fuel (bulkLoaded edges directed) source).map fun levels => .ok levels.dist :=
    funext (bfsDistances_eq hrows hserves hsame hsource)
  rw [heq, hsame]
  exact Returns.map ((recomputeLevels_spec hserves hcount source).mono
    fun levels hlevels => ⟨levels, rfl, hlevels⟩)

/-- A source outside throws. From any other the search ends with the exact unweighted distances, and
an engine that any lawful run has brought to the same arcs and vertices has the same list. -/
theorem bfsDistances_exact (source : VertexId)
    (hcount : (create edges directed).vertexCount < unreachable) :
    let g := create edges directed
    (g.vertexCount ≤ source → ∀ fuel, bfsDistances g source fuel =
      some (.error (.outOfRange "source outside graph"))) ∧
    (source.val < g.vertexCount →
      Returns (bfsDistances g source) (fun result => ∃ distance, result = .ok distance ∧
        distance.length = g.vertexCount ∧ ∀ v : VertexId, v.val < g.vertexCount →
          (∀ c, IsLeast {c | Walk {source} (unitArc (ofEdges directed edges)) v c} c →
            distance.getD v 0 = c) ∧
          ((∀ c, ¬ Walk {source} (unitArc (ofEdges directed edges)) v c) →
            distance.getD v 0 = unreachable)) ∧
      ∀ (G D : Type) [GraphAccess G] [DoubleArith D] (g' : G) (fraction : D)
        (steps : List BfsStep), source.val < GraphAccess.vertexCount g' → Lawful g' steps →
        let current := steps.foldl BfsStep.graphAfter g'
        arcsOf current = ofEdges directed edges →
        GraphAccess.vertexCount current = g.vertexCount →
        Returns (fun fuel => (IncrementalBFS.run fuel g' source fraction steps).bind fun engine =>
            (bfsDistances g source fuel).map fun result => (engine, result))
          fun last => last.2 = .ok last.1.levels.dist) := by
  dsimp only
  refine ⟨fun hout fuel => if_pos hout, fun hsource => ⟨?_, ?_⟩⟩
  · refine (returns_bfsDistances edges directed hcount hsource).mono fun result hresult => ?_
    obtain ⟨levels, rfl, hleveled, hexact⟩ := hresult
    rw [startAt_eq_singleton hsource] at hexact
    refine ⟨levels.dist, rfl, hleveled.length_eq, fun v hv => ?_⟩
    rw [hleveled.getD_eq hv]
    refine ⟨fun c hc => ?_, hexact.eq_cap⟩
    have hlt := lt_count_of_isLeast (holds_create edges directed).simple.within
      ((startAt_eq_singleton hsource).symm ▸ hc)
    rw [hexact.eq_min hc]
    exact min_eq_left (by omega)
  · intro G D _ _ g' fraction steps hsource' hlawful harcs hsame
    refine (IncrementalBFS.run_spec hsource' fraction hlawful).bind fun engine hengine => ?_
    obtain ⟨hcorrect, rfl, hgraph, -⟩ := hengine
    refine Returns.map ((returns_bfsDistances edges directed hcount hsource).mono fun result h => ?_)
    obtain ⟨levels, rfl, hleveled, hexact⟩ := h
    have hexact' := hcorrect.exact_dist
    have hleveled' := hcorrect.leveled
    rw [hgraph, harcs, hsame] at hexact'
    rw [hgraph, hsame] at hleveled'
    refine congrArg Except.ok (eq_of_label_eq (hleveled.length_eq.trans hleveled'.length_eq.symm)
      ?_ (hexact.unique hexact'))
    rw [hleveled.length_eq]
    exact hcount.le.trans (by decide)

/-- More fuel does not change what the search ends with. -/
theorem steady_bfsDistances (g : CsrGraph) (source : VertexId) : Steady (bfsDistances g source) := by
  unfold bfsDistances
  by_cases hsource : g.vertexCount ≤ source
  · simp only [if_pos hsource]
    exact Steady.pure _
  · simp only [if_neg hsource]
    exact (steady_while (fun state => Steady.pure (some (Except.bind state g.searchTurn))) _).map _

/-- On a path of two arcs the search and an engine on the bulk-loaded graph have the same list. -/
theorem bfsDistances_exact_path :
    Returns (fun fuel =>
      (IncrementalBFS.run fuel (bulkLoaded [(0, 1), (1, 2)] true) 0 (0.35 : ℚ) []).bind fun engine =>
        (bfsDistances (create [(0, 1), (1, 2)] true) 0 fuel).map fun result => (engine, result))
      fun last => last.2 = .ok [0, 1, 2] ∧ last.1.levels.dist = [0, 1, 2] := by
  have hvertices : (create [(0, 1), (1, 2)] true).vertexCount = 3 := rfl
  obtain ⟨hmirrored, hsame, -⟩ := bulkLoaded_spec [(0, 1), (1, 2)] true
  have hcount : (bulkLoaded [(0, 1), (1, 2)] true).vertexCount < unreachable := by
    rw [← hsame, hvertices]
    decide
  have hsource : (0 : VertexId).val < (create [(0, 1), (1, 2)] true).vertexCount := by
    rw [hvertices]
    decide
  obtain ⟨-, hreached⟩ := bfsDistances_exact [(0, 1), (1, 2)] true 0 (hsame ▸ hcount)
  have hagrees := (hreached hsource).2 _ ℚ (bulkLoaded [(0, 1), (1, 2)] true) 0.35 []
    (hsource.trans_eq hsame) (hmirrored.transposed hcount) hmirrored.toRefines.serves.arcsOf_eq
    hsame.symm
  have heval : bfsDistances (create [(0, 1), (1, 2)] true) 0 10 = some (.ok [0, 1, 2]) := rfl
  have hvalue : Returns (bfsDistances (create [(0, 1), (1, 2)] true) 0) (· = .ok [0, 1, 2]) :=
    (steady_bfsDistances _ _).returns heval rfl
  have hboth := @Returns.and_of_some _ _ _ (fun last => last.2 = .ok [0, 1, 2]) hagrees
  refine (hboth fun fuel last hrun => ?_).mono fun last hlast => ?_
  · obtain ⟨engine, -, hrest⟩ := Option.bind_eq_some_iff.mp hrun
    obtain ⟨result, hsearch, rfl⟩ := Option.map_eq_some_iff.mp hrest
    exact hvalue.of_steady (steady_bfsDistances _ _) hsearch
  · exact ⟨hlast.2, Except.ok.inj (hlast.1.symm.trans hlast.2)⟩

end CsrGraph

end VeloGraphX
