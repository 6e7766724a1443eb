import Mathlib
import VeloGraphX.Access.ReadableGraph

/-!
# Choosing the access functions of a backend

A backend provides some of the functions that an access goes through, as members or as free
functions, and the access takes the first that there is. What is missing is computed from the rows:
the in-neighbours by a scan of all of them, with a counter of 32 bits. Whatever a backend provides,
its in-rows are the transpose of its rows, as the engines require.
-/

namespace VeloGraphX

open FuelLoop ArcSet GraphAccess ReadableGraph

/-- What a graph type provides; `vx` names are free functions. The concept `ReadableGraph` asks for
a count and a direction, and a graph without rows does not compile. -/
structure BackendFunctions (G : Type) where
  memberVertexCount : Option (G → ℕ) := none
  vxVertexCount : Option (G → ℕ) := none
  memberDirected : Option (G → Bool) := none
  vxIsDirected : Option (G → Bool) := none
  memberForEachNeighbor : Option (G → VertexId → List VertexId) := none
  vxForEachNeighbor : Option (G → VertexId → List VertexId) := none
  memberNeighbors : Option (G → VertexId → List VertexId) := none
  memberForEachInNeighbor : Option (G → VertexId → List VertexId) := none
  vxForEachInNeighbor : Option (G → VertexId → List VertexId) := none
  memberInNeighbors : Option (G → VertexId → List VertexId) := none
  memberDegree : Option (G → VertexId → ℕ) := none
  vxNeighborCount : Option (G → VertexId → ℕ) := none
  memberHasEdge : Option (G → VertexId → VertexId → Bool) := none
  vxHasEdge : Option (G → VertexId → VertexId → Bool) := none
  counts : (memberVertexCount <|> vxVertexCount).isSome
  directs : (memberDirected <|> vxIsDirected).isSome
  enumerates : (memberForEachNeighbor <|> vxForEachNeighbor <|> memberNeighbors).isSome

namespace BackendFunctions

variable {G : Type} (b : BackendFunctions G) (g : G)

/-- `vertex_count`. -/
def vertexCount : ℕ := (b.memberVertexCount <|> b.vxVertexCount).get b.counts g

/-- `is_directed`. -/
def isDirected : Bool := (b.memberDirected <|> b.vxIsDirected).get b.directs g

/-- The calls of `for_each_neighbor`. -/
def forEachNeighbor (u : VertexId) : List VertexId :=
  (b.memberForEachNeighbor <|> b.vxForEachNeighbor <|> b.memberNeighbors).get b.enumerates g u

/-- The functions that enumerate in-neighbours, if there is one. -/
def inNeighborFunction : Option (G → VertexId → List VertexId) :=
  b.memberForEachInNeighbor <|> b.vxForEachInNeighbor <|> b.memberInNeighbors

/-- One turn of the scan for in-neighbours. -/
def scanRow (v u : VertexId) (calls : List VertexId) : List VertexId :=
  (b.forEachNeighbor g u).foldl (fun calls dst => if dst = v then calls ++ [u] else calls) calls

/-- The calls of `for_each_in_neighbor`. -/
def forEachInNeighbor (fuel : ℕ) (v : VertexId) : Option (List VertexId) :=
  match b.inNeighborFunction with
  | some inNeighbors => some (inNeighbors g v)
  | none => vertexLoop (b.vertexCount g) (b.scanRow g v) fuel []

/-- `neighbor_count`. -/
def neighborCount (u : VertexId) : ℕ :=
  match b.memberDegree <|> b.vxNeighborCount with
  | some degree => degree g u
  | none => (b.forEachNeighbor g u).foldl (fun count _ => count + 1) 0

/-- `has_edge`. -/
def hasEdge (u v : VertexId) : Bool :=
  match b.memberHasEdge <|> b.vxHasEdge with
  | some found => found g u v
  | none => (b.forEachNeighbor g u).foldl (fun found dst => found || dst = v) false

/-- The functions that are provided answer from one set of arcs of a simple graph. -/
structure Answers (arcs : ArcSet) : Prop where
  simple : Simple (b.isDirected g) (b.vertexCount g) arcs
  rows : ∀ u, (b.forEachNeighbor g u).Nodup ∧ ∀ v, v ∈ b.forEachNeighbor g u ↔ (u, v) ∈ arcs
  inRows : ∀ f, b.inNeighborFunction = some f →
    ∀ v, (f g v).Nodup ∧ ∀ u, u ∈ f g v ↔ (u, v) ∈ arcs
  degrees : ∀ f, (b.memberDegree <|> b.vxNeighborCount) = some f →
    ∀ u, f g u = {v | (u, v) ∈ arcs}.ncard
  edges : ∀ f, (b.memberHasEdge <|> b.vxHasEdge) = some f → ∀ u v, f g u v = present arcs u v

/-- The in-row that the access enumerates when it ends. -/
def inRow (v : VertexId) : List VertexId :=
  match b.inNeighborFunction with
  | some inNeighbors => inNeighbors g v
  | none => (idsBelow (b.vertexCount g)).filter fun u => decide (v ∈ b.forEachNeighbor g u)

variable {b g} {arcs : ArcSet}

/-- One turn of the scan finds the vertex if it has the arc. -/
theorem Answers.scanRow (h : Answers b g arcs) (v u : VertexId) (calls : List VertexId) :
    b.scanRow g v u calls =
      calls ++ if v ∈ b.forEachNeighbor g u then [u] else [] := by
  have hnodup := (h.rows u).1
  unfold BackendFunctions.scanRow
  generalize b.forEachNeighbor g u = row at hnodup ⊢
  induction row generalizing calls with
  | nil => simp
  | cons dst rest ih =>
    obtain ⟨hfresh, hrest⟩ := List.nodup_cons.mp hnodup
    rw [List.foldl_cons, ih _ hrest]
    by_cases hdst : dst = v
    · subst hdst
      simp [hfresh]
    · have hne : v ≠ dst := Ne.symm hdst
      simp [hdst, hne]

/-- The scan ends in the vertices that have the arc, in ascending order, when 32 bits can count the
vertices. -/
theorem Answers.returns_inRow (h : Answers b g arcs)
    (hcount : b.inNeighborFunction = none → b.vertexCount g < 2 ^ 32) (v : VertexId) :
    Returns (fun fuel => b.forEachInNeighbor g fuel v) fun calls => calls = b.inRow g v := by
  unfold forEachInNeighbor inRow
  cases hprovided : b.inNeighborFunction with
  | some f => exact Returns.pure rfl
  | none =>
    refine (returns_vertexLoop (hcount hprovided) (b.scanRow g v) []).mono fun calls hcalls => ?_
    rw [hcalls]
    have hfold : ∀ (ids calls : List VertexId), ids.foldl (fun calls u => b.scanRow g v u calls)
        calls = calls ++ ids.filter fun u => decide (v ∈ b.forEachNeighbor g u) := by
      intro ids
      induction ids with
      | nil => exact fun calls => (List.append_nil calls).symm
      | cons u rest ih =>
        intro calls
        rw [List.foldl_cons, ih, h.scanRow, List.append_assoc, List.filter_cons]
        by_cases hmem : v ∈ b.forEachNeighbor g u <;> simp [hmem]
    exact hfold _ _

/-- The in-rows are the transpose of the rows. -/
theorem Answers.inRow_spec (h : Answers b g arcs)
    (hcount : b.inNeighborFunction = none → b.vertexCount g < 2 ^ 32) (v : VertexId) :
    (b.inRow g v).Nodup ∧ ∀ u, u ∈ b.inRow g v ↔ (u, v) ∈ arcs := by
  unfold inRow
  cases hprovided : b.inNeighborFunction with
  | some f => exact h.inRows f hprovided v
  | none =>
    refine ⟨(nodup_idsBelow (hcount hprovided).le).filter _, fun u => ?_⟩
    rw [List.mem_filter, mem_idsBelow, decide_eq_true_eq, (h.rows u).2 v, and_iff_right_iff_imp]
    exact fun harc => (h.simple.within u v harc).1

/-- `has_edge` is membership. -/
theorem Answers.hasEdge (h : Answers b g arcs) (u v : VertexId) :
    b.hasEdge g u v = present arcs u v := by
  unfold BackendFunctions.hasEdge
  cases hprovided : b.memberHasEdge <|> b.vxHasEdge with
  | some f => exact h.edges f hprovided u v
  | none =>
    have hfold : ∀ (row : List VertexId) (found : Bool),
        row.foldl (fun found dst => found || dst = v) found = (found || decide (v ∈ row)) := by
      intro row
      induction row with
      | nil => simp
      | cons dst rest ih =>
        intro found
        have hhead : decide (v ∈ dst :: rest) = (decide (dst = v) || decide (v ∈ rest)) := by
          simp [eq_comm]
        rw [List.foldl_cons, ih, Bool.or_assoc, hhead]
    dsimp only
    rw [hfold, Bool.false_or, Bool.eq_iff_iff, decide_eq_true_eq, present_eq_true]
    exact (h.rows u).2 v

/-- `neighbor_count` is the number of successors. -/
theorem Answers.neighborCount (h : Answers b g arcs) (u : VertexId) :
    b.neighborCount g u = {v | (u, v) ∈ arcs}.ncard := by
  unfold BackendFunctions.neighborCount
  cases hprovided : b.memberDegree <|> b.vxNeighborCount with
  | some f => exact h.degrees f hprovided u
  | none =>
    have hrow : {v | (u, v) ∈ arcs} = ((b.forEachNeighbor g u).toFinset : Set VertexId) :=
      Set.ext fun v => by
        rw [List.coe_toFinset]
        exact ((h.rows u).2 v).symm
    rw [hrow, Set.ncard_coe_finset, List.toFinset_card_of_nodup (h.rows u).1]
    dsimp only
    rw [List.foldl_const]
    simp

/-- The access of a backend with its own way to apply a batch. -/
@[reducible] def access (b : BackendFunctions G) (apply : G → UpdateBatch → G) : GraphAccess G where
  vertexCount := b.vertexCount
  isDirected := b.isDirected
  forEachNeighbor := b.forEachNeighbor
  forEachInNeighbor := b.inRow
  hasEdge := b.hasEdge
  applyUpdates := apply

/-- Whatever a backend provides for one set of arcs, its access ends with the successors, their
number, the predecessors and the membership of these arcs, so that the engines run on it; only with
`2 ^ 32` vertices and nothing that enumerates in-neighbours the scan for them does not end. -/
theorem access_spec (b : BackendFunctions G) (g : G) (arcs : ArcSet) (h : Answers b g arcs) :
    ((b.inNeighborFunction = none → b.vertexCount g < 2 ^ 32) →
      (∀ v, Returns (fun fuel => b.forEachInNeighbor g fuel v) fun calls =>
        calls.Nodup ∧ ∀ u, u ∈ calls ↔ (u, v) ∈ arcs) ∧
      ∀ apply, @Serves G (b.access apply) g arcs ∧ @Transposes G (b.access apply) g arcs) ∧
    (∀ u, b.neighborCount g u = {v | (u, v) ∈ arcs}.ncard) ∧
    (b.inNeighborFunction = none → 2 ^ 32 ≤ b.vertexCount g →
      ∀ v, Diverges fun fuel => b.forEachInNeighbor g fuel v) := by
  refine ⟨fun hcount => ⟨fun v => ?_, fun apply => ⟨?_, ?_⟩⟩, h.neighborCount, fun hnone hlarge v => ?_⟩
  · exact (h.returns_inRow hcount v).mono fun calls hcalls => hcalls ▸ h.inRow_spec hcount v
  · exact @Serves.mk G (b.access apply) g arcs (fun u => (h.rows u).1) (fun u v => (h.rows u).2 v)
      h.hasEdge h.simple
  · exact @Transposes.mk G (b.access apply) g arcs (fun v => (h.inRow_spec hcount v).1)
      fun u v => (h.inRow_spec hcount v).2 u
  · unfold forEachInNeighbor
    rw [hnone]
    exact diverges_vertexLoop hlarge _ _

/-- A backend of two vertices and one arc that provides no more than its rows. -/
def rowsOnly : BackendFunctions Unit where
  vxVertexCount := some fun _ => 2
  vxIsDirected := some fun _ => true
  vxForEachNeighbor := some fun _ u => if u = 0 then [1] else []
  counts := rfl
  directs := rfl
  enumerates := rfl

/-- The in-row of its second vertex is found by the scan. -/
theorem access_spec_rowsOnly :
    Returns (fun fuel => rowsOnly.forEachInNeighbor () fuel 1) fun calls =>
      calls.Nodup ∧ ∀ u : VertexId, u ∈ calls ↔ (u, 1) ∈ ({(0, 1)} : ArcSet) := by
  have hanswers : Answers rowsOnly () ({(0, 1)} : ArcSet) := by
    refine ⟨⟨fun u v harc => ?_, fun u harc => ?_, fun hdirected => absurd hdirected (by decide)⟩,
      fun u => ?_, fun f hf => absurd hf nofun, fun f hf => absurd hf nofun,
      fun f hf => absurd hf nofun⟩
    · obtain ⟨rfl, rfl⟩ := Prod.mk.inj harc
      exact ⟨by decide, by decide⟩
    · obtain ⟨rfl, hne⟩ := Prod.mk.inj harc
      exact absurd hne (by decide)
    · change (if u = 0 then [(1 : VertexId)] else []).Nodup ∧
        ∀ v, v ∈ (if u = 0 then [(1 : VertexId)] else []) ↔ (u, v) = (0, 1)
      by_cases hu : u = 0
      · simp [hu]
      · simp [hu]
  exact ((access_spec rowsOnly () {(0, 1)} hanswers).1 fun _ => by decide).1 1

end BackendFunctions

end VeloGraphX
