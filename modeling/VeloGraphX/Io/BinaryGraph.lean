import Mathlib
import VeloGraphX.Lib.ByteStream
import VeloGraphX.Lib.FuelLoop
import VeloGraphX.Model.Distances
import VeloGraphX.Storage.GraphCopy

/-!
# Binary graph files

A file is a header of three 64-bit words, the magic number, the vertex count and the arc count,
followed by two 32-bit ids for each arc. The writer counts rows with a 32-bit id, which never
reaches a vertex count of `2 ^ 32` or more. The reader checks the stream only after each pair of
ids, not after the header.
-/

namespace VeloGraphX

open SortedList ArcSet FuelLoop ByteStream

/-- The magic number of the format. -/
def kMagic : ℕ := 0x564758303031

/-- The header words. -/
def headerBytes (order : ByteOrder) (n m : ℕ) : List UInt8 :=
  stored order 8 kMagic ++ stored order 8 n ++ stored order 8 m

/-- The ids of a list of arcs. -/
def arcBytes (order : ByteOrder) (arcs : List (VertexId × VertexId)) : List UInt8 :=
  arcs.flatMap fun arc => stored order 4 arc.1.val ++ stored order 4 arc.2.val

section

variable {D : Type} (order : ByteOrder) (g : DynamicGraph D)

/-- The arcs of one row. -/
def rowArcs (u : VertexId) : List (VertexId × VertexId) := (g.neighbors u).map fun v => (u, v)

/-- `save_binary`: the bytes written to a file that could be opened. -/
def saveBinary (fuel : ℕ) : Option (List UInt8) :=
  (whileLoop (fun state : VertexId × List UInt8 => decide (state.1.val < g.vertexCount))
    (fun _ state => some (state.1 + 1, state.2 ++ arcBytes order (rowArcs g state.1)))
    fuel (0, headerBytes order g.vertexCount g.edgeCountDirected)).map Prod.snd

/-- The reading loop of `load_binary`. -/
def readEdges (directed : Bool) : ℕ → InputStream → UpdateBatch → Except Exception UpdateBatch
  | 0, _, batch => .ok batch
  | count + 1, s, batch =>
    let (u, s) := s.read order 4
    let (v, s) := s.read order 4
    if s.failed then .error (.runtimeError "truncated graph file")
    else readEdges directed count s
      (if directed || u ≤ v then batch.add (Fin.ofNat _ u) (Fin.ofNat _ v) else batch)

/-- `load_binary`; there are no bytes when the file cannot be opened. -/
def loadBinary [DoubleArith D] (file : Option (List UInt8)) (directed : Bool) :
    Except Exception (DynamicGraph D) :=
  match file with
  | none => .error (.runtimeError "cannot open input")
  | some bytes =>
    let (magic, s) := InputStream.read order 8 ⟨bytes, false⟩
    let (n, s) := s.read order 8
    let (m, s) := s.read order 8
    if magic ≠ kMagic then .error (.runtimeError "invalid VeloGraphX binary graph")
    else (readEdges order directed m s {}).map fun batch =>
      ((DynamicGraph.create n directed).apply batch).compact

/-- All arcs of a graph, row by row. -/
def fileArcs (vertices : ℕ) : List (VertexId × VertexId) :=
  (List.range vertices).flatMap fun u => rowArcs g (Fin.ofNat (2 ^ 32) u)

/-- The bytes of a graph all of whose rows are written. -/
def fileBytes : List UInt8 :=
  headerBytes order g.vertexCount g.edgeCountDirected ++ arcBytes order (fileArcs g g.vertexCount)

end

section Bytes

variable {order : ByteOrder}

/-- Arcs are written one after the other. -/
theorem arcBytes_append (arcs rest : List (VertexId × VertexId)) :
    arcBytes order (arcs ++ rest) = arcBytes order arcs ++ arcBytes order rest := List.flatMap_append

/-- Every arc takes eight bytes. -/
theorem length_arcBytes (arcs : List (VertexId × VertexId)) :
    (arcBytes order arcs).length = 8 * arcs.length := by
  induction arcs with
  | nil => rfl
  | cons arc rest ih =>
    rw [arcBytes, List.flatMap_cons, List.length_append, List.length_append, length_stored,
      length_stored, List.length_cons]
    change 4 + 4 + (arcBytes order rest).length = _
    rw [ih]
    omega

/-- The header takes twenty-four bytes. -/
theorem length_headerBytes (n m : ℕ) : (headerBytes order n m).length = 24 := by
  rw [headerBytes, List.length_append, List.length_append, length_stored, length_stored,
    length_stored]

/-- Reading the arcs that were written inserts them, in undirected graphs each edge once. -/
theorem readEdges_arcBytes (directed : Bool) (arcs : List (VertexId × VertexId))
    (batch : UpdateBatch) :
    readEdges order directed arcs.length ⟨arcBytes order arcs, false⟩ batch =
      .ok ⟨batch.updates ++
        insertions (arcs.filter fun arc => directed || decide (arc.1.val ≤ arc.2.val))⟩ := by
  induction arcs generalizing batch with
  | nil => exact congrArg (fun updates => Except.ok (UpdateBatch.mk updates)) (List.append_nil _).symm
  | cons arc rest ih =>
    have hfirst : InputStream.read order 4 ⟨arcBytes order (arc :: rest), false⟩ =
        (arc.1.val, ⟨stored order 4 arc.2.val ++ arcBytes order rest, false⟩) := by
      rw [arcBytes, List.flatMap_cons, List.append_assoc]
      exact InputStream.read_stored (arc.1.isLt.trans_eq (by norm_num)) _
    have hsecond : InputStream.read order 4 ⟨stored order 4 arc.2.val ++ arcBytes order rest, false⟩ =
        (arc.2.val, ⟨arcBytes order rest, false⟩) :=
      InputStream.read_stored (arc.2.isLt.trans_eq (by norm_num)) _
    have hcast : ∀ v : VertexId, Fin.ofNat (2 ^ 32) v.val = v :=
      fun v => Fin.ext (Nat.mod_eq_of_lt v.isLt)
    rw [List.length_cons, readEdges, hfirst]
    dsimp only
    rw [hsecond]
    dsimp only
    rw [if_neg Bool.false_ne_true, hcast, hcast, ih, List.filter_cons]
    cases directed || decide (arc.1.val ≤ arc.2.val) with
    | true =>
      rw [if_pos rfl, if_pos rfl, UpdateBatch.add, List.append_assoc]
      rfl
    | false => rw [if_neg Bool.false_ne_true, if_neg Bool.false_ne_true]

/-- Reading more arcs than there are bytes for fails. -/
theorem readEdges_truncated (directed : Bool) {count : ℕ} {s : InputStream}
    (h : 0 < count ∧ s.failed = true ∨ s.bytes.length < 8 * count) (batch : UpdateBatch) :
    readEdges order directed count s batch = .error (.runtimeError "truncated graph file") := by
  induction count generalizing s batch with
  | zero => omega
  | succ count ih =>
    rw [readEdges]
    dsimp only
    split
    · rfl
    · rename_i hread
      rw [Bool.not_eq_true, InputStream.failed_read, Bool.or_eq_false_iff,
        InputStream.failed_read, Bool.or_eq_false_iff] at hread
      obtain ⟨⟨hfailed, hfirst⟩, hsecond⟩ := hread
      have hopen : (s.read order 4).2.failed = false := by
        rw [InputStream.failed_read, hfailed, hfirst]
        rfl
      have hlength := @InputStream.length_read order 4 _ hfailed
      have hlength' := @InputStream.length_read order 4 _ hopen
      rw [decide_eq_false_iff_not] at hfirst hsecond
      refine ih (Or.inr ?_) _
      have hbytes := h.resolve_left fun hleft => by
        rw [hfailed] at hleft
        exact Bool.false_ne_true hleft.2
      omega

end Bytes

section Writer

variable {D : Type} {order : ByteOrder} {g : DynamicGraph D} {arcs : ArcSet}

/-- The states of the writer when it has written the rows of all smaller ids. -/
def SavedBelow (order : ByteOrder) (g : DynamicGraph D) (left : ℕ)
    (state : VertexId × List UInt8) : Prop :=
  left = g.vertexCount - state.1.val ∧ state.1.val ≤ g.vertexCount ∧
    state.2 = headerBytes order g.vertexCount g.edgeCountDirected ++
      arcBytes order (fileArcs g state.1.val)

/-- One more row is written, and the id counts up as long as it does not wrap. -/
theorem SavedBelow.next {left : ℕ} {state : VertexId × List UInt8}
    (h : SavedBelow order g left state) (hcount : g.vertexCount < 2 ^ 32)
    (hlt : state.1.val < g.vertexCount) :
    ∃ left' < left, SavedBelow order g left'
      (state.1 + 1, state.2 ++ arcBytes order (rowArcs g state.1)) := by
  obtain ⟨hleft, hle, hbytes⟩ := h
  have hnext : (state.1 + 1).val = state.1.val + 1 := by
    rw [Fin.val_add, Fin.val_one, Nat.mod_eq_of_lt (by omega)]
  have hcast : Fin.ofNat (2 ^ 32) state.1.val = state.1 := Fin.ext (Nat.mod_eq_of_lt state.1.isLt)
  refine ⟨g.vertexCount - (state.1.val + 1), by omega, by rw [hnext],
    hnext.le.trans hlt, ?_⟩
  dsimp only
  rw [hnext, fileArcs, List.range_succ, List.flatMap_append, List.flatMap_singleton, hcast,
    arcBytes_append, ← List.append_assoc, hbytes, fileArcs]

/-- Before the first turn nothing but the header is written. -/
theorem savedBelow_start (order : ByteOrder) (g : DynamicGraph D) :
    SavedBelow order g g.vertexCount
      (0, headerBytes order g.vertexCount g.edgeCountDirected) :=
  ⟨rfl, Nat.zero_le _, (List.append_nil _).symm⟩

/-- When the loop is left all rows are written. -/
theorem SavedBelow.done {left : ℕ} {state : VertexId × List UInt8}
    (h : SavedBelow order g left state) (hcond : decide (state.1.val < g.vertexCount) = false) :
    state.2 = fileBytes order g := by
  obtain ⟨-, hle, hbytes⟩ := h
  have heq : state.1.val = g.vertexCount :=
    Nat.le_antisymm hle (not_lt.mp (of_decide_eq_false hcond))
  rw [hbytes, heq, fileBytes]

/-- The writer ends when the row counter can reach the vertex count. -/
theorem saveBinary_returns (order : ByteOrder) (hcount : g.vertexCount < 2 ^ 32) :
    Returns (saveBinary order g) (· = fileBytes order g) := by
  refine Returns.map ((returns_while (SavedBelow order g) (fun left state h hcond => ?_)
    (savedBelow_start order g)).mono fun state ⟨⟨left, h⟩, hcond⟩ => h.done hcond)
  exact Returns.pure (h.next hcount (of_decide_eq_true hcond))

/-- The writer never ends when the row counter wraps before it reaches the vertex count. -/
theorem saveBinary_diverges (order : ByteOrder) (hcount : 2 ^ 32 ≤ g.vertexCount) :
    Diverges (saveBinary order g) := by
  have hloop := @diverges_while _
    (fun state : VertexId × List UInt8 => decide (state.1.val < g.vertexCount))
    (fun _ state => some (state.1 + 1, state.2 ++ arcBytes order (rowArcs g state.1)))
    (fun _ => True) (fun state _ => decide_eq_true (state.1.isLt.trans_le hcount))
    (fun _ _ _ _ _ => trivial) (0, headerBytes order g.vertexCount g.edgeCountDirected) trivial
  exact fun fuel => congrArg (Option.map Prod.snd) (hloop fuel)

/-- Whatever the writer ends with are the bytes of the graph, whose row counter did not wrap. -/
theorem saveBinary_eq {fuel : ℕ} {bytes : List UInt8} (hsave : saveBinary order g fuel = some bytes) :
    bytes = fileBytes order g ∧ g.vertexCount < 2 ^ 32 := by
  have hcount : g.vertexCount < 2 ^ 32 := by
    by_contra hmany
    rw [saveBinary_diverges order (not_lt.mp hmany)] at hsave
    exact Option.some_ne_none bytes hsave.symm
  obtain ⟨state, hrun, rfl⟩ := Option.map_eq_some_iff.mp hsave
  obtain ⟨⟨left, h⟩, hcond⟩ := whileLoop_keeps (fun state => ∃ left, SavedBelow order g left state)
    (fun state ⟨left, h⟩ hcond _ next hnext => by
      obtain ⟨left', -, hnext'⟩ := h.next hcount (of_decide_eq_true hcond)
      exact ⟨left', Option.some.inj hnext ▸ hnext'⟩)
    ⟨_, savedBelow_start order g⟩ hrun
  exact ⟨h.done hcond, hcount⟩

end Writer

section Reader

variable {D : Type} {order : ByteOrder} {g : DynamicGraph D} {arcs : ArcSet}

/-- The file lists the arcs of existing vertices. -/
theorem DynamicGraph.Refines.mem_fileArcs (h : DynamicGraph.Refines g arcs) (u v : VertexId) :
    (u, v) ∈ fileArcs g g.vertexCount ↔ (u, v) ∈ arcs := by
  have hcast : Fin.ofNat (2 ^ 32) u.val = u := Fin.ext (Nat.mod_eq_of_lt u.isLt)
  simp only [fileArcs, rowArcs, List.mem_flatMap, List.mem_range, List.mem_map, Prod.mk.injEq,
    h.mem_neighbors]
  constructor
  · rintro ⟨w, hw, x, hmem, rfl, rfl⟩
    exact hmem
  · intro hmem
    exact ⟨u.val, (h.simple.within u v hmem).1, v, hcast.symm ▸ hmem, hcast, rfl⟩

/-- The file lists as many arcs as its header says. -/
theorem DynamicGraph.Refines.length_fileArcs (h : DynamicGraph.Refines g arcs)
    (hcount : g.vertexCount ≤ 2 ^ 32) :
    (fileArcs g g.vertexCount).length = g.edgeCountDirected := by
  have hblocks := PointUpdate.length_flatMap_range hcount (rowArcs g) fun u hu => by
    refine List.eq_nil_iff_forall_not_mem.mpr fun ⟨w, v⟩ hmem => ?_
    obtain ⟨x, hx, -⟩ := List.mem_map.mp hmem
    exact absurd (h.simple.within u x ((h.mem_neighbors u x).mp hx)).1 (not_lt.mpr hu)
  rw [h.edgeCountDirected_eq.2, h.ncard_arcs, fileArcs, hblocks]
  exact Finset.sum_congr rfl fun u _ => List.length_map _

/-- The header words fit their width. -/
theorem DynamicGraph.Refines.header_fits (h : DynamicGraph.Refines g arcs)
    (hcount : g.vertexCount < 2 ^ 32) :
    g.vertexCount < 256 ^ 8 ∧ g.edgeCountDirected < 256 ^ 8 := by
  refine ⟨by omega, ?_⟩
  let ids := Finset.univ.filter fun v : VertexId => v.val < g.vertexCount
  have hsubset : arcs ⊆ ↑(ids ×ˢ ids) := by
    rintro ⟨u, v⟩ hmem
    have hwithin := h.simple.within u v hmem
    simp only [Finset.coe_product, Set.mem_prod, Finset.mem_coe, ids, Finset.mem_filter,
      Finset.mem_univ, true_and]
    exact hwithin
  have hcard : arcs.ncard ≤ g.vertexCount * g.vertexCount := by
    calc arcs.ncard
        ≤ (↑(ids ×ˢ ids) : Set (VertexId × VertexId)).ncard :=
          Set.ncard_le_ncard hsubset (Finset.finite_toSet _)
      _ = ids.card * ids.card := by rw [Set.ncard_coe_finset, Finset.card_product]
      _ ≤ g.vertexCount * g.vertexCount :=
          Nat.mul_le_mul (card_vertices_le _) (card_vertices_le _)
  rw [h.edgeCountDirected_eq.2]
  calc arcs.ncard
      ≤ g.vertexCount * g.vertexCount := hcard
    _ ≤ (2 ^ 32 - 1) * (2 ^ 32 - 1) := Nat.mul_le_mul (by omega) (by omega)
    _ < 256 ^ 8 := by norm_num

/-- The operations of the batch that `load_binary` applies. -/
def loadedUpdates (g : DynamicGraph D) (directed : Bool) : List EdgeUpdate :=
  insertions ((fileArcs g g.vertexCount).filter fun arc =>
    directed || decide (arc.1.val ≤ arc.2.val))

variable [DoubleArith D]

/-- Reading a whole file inserts its arcs into a graph of its vertices. -/
theorem DynamicGraph.Refines.loadBinary_fileBytes (h : DynamicGraph.Refines g arcs)
    (hcount : g.vertexCount < 2 ^ 32) (directed : Bool) :
    loadBinary order (some (fileBytes order g)) directed =
      .ok ((DynamicGraph.create g.vertexCount directed : DynamicGraph D).apply
        ⟨loadedUpdates g directed⟩).compact := by
  obtain ⟨hn, hm⟩ := h.header_fits hcount
  have hmagic : kMagic < 256 ^ 8 := by decide
  unfold loadBinary fileBytes headerBytes
  dsimp only
  rw [List.append_assoc, List.append_assoc, InputStream.read_stored hmagic]
  dsimp only
  rw [InputStream.read_stored hn]
  dsimp only
  rw [InputStream.read_stored hm, ← h.length_fileArcs hcount.le, readEdges_arcBytes]
  rfl

/-- Loading what was saved yields a copy. -/
theorem DynamicGraph.Refines.loadBinary_isCopy (h : DynamicGraph.Refines g arcs)
    (hcount : g.vertexCount < 2 ^ 32) :
    ∃ copy : DynamicGraph D, loadBinary order (some (fileBytes order g)) g.directed = .ok copy ∧
      DynamicGraph.IsCopy g copy := by
  refine ⟨_, h.loadBinary_fileBytes hcount g.directed, ?_⟩
  have hadd : ∀ op ∈ loadedUpdates g g.directed, op.add = true := fun op hop => by
    obtain ⟨arc, -, rfl⟩ := List.mem_map.mp hop
    rfl
  have hhalf : ∀ u v, (u, v) ∈ ((fileArcs g g.vertexCount).filter fun arc =>
      g.directed || decide (arc.1.val ≤ arc.2.val)) ↔ (u, v) ∈ arcs ∧ (g.directed = true ∨ u ≤ v) := by
    intro u v
    rw [List.mem_filter, h.mem_fileArcs, Bool.or_eq_true, decide_eq_true_eq]
    rfl
  have harcs : ofEdges g.directed ((fileArcs g g.vertexCount).filter fun arc =>
      g.directed || decide (arc.1.val ≤ arc.2.val)) = arcs := by
    refine h.simple.ofEdges_eq (fun ⟨u, v⟩ he => ((hhalf u v).mp he).1) fun u v hmem => ?_
    rw [hhalf, hhalf]
    cases hdirected : g.directed with
    | true => exact Or.inl ⟨hmem, Or.inl rfl⟩
    | false =>
      rcases le_total u v with hle | hge
      · exact Or.inl ⟨hmem, Or.inr hle⟩
      · exact Or.inr ⟨rfl, h.simple.undirected hdirected u v hmem, Or.inr hge⟩
  have hcreated := @DynamicGraph.mirrored_create D g.vertexCount g.directed
  have hempty := (@DynamicGraph.refines_create D g.vertexCount g.directed).2
  obtain ⟨-, hvertices, hdirected, -⟩ := hcreated.toRefines.apply ⟨loadedUpdates g g.directed⟩
  have hloaded := hcreated.apply (DynamicGraph.settles_create g.vertexCount g.directed hadd)
  change DynamicGraph.Mirrored _ (applyAll g.directed ∅ (loadedUpdates g g.directed)) at hloaded
  rw [loadedUpdates, applyAll_insertions, harcs] at hloaded
  rw [hempty, loadedUpdates, growAll_of_within fun ⟨u, v⟩ he =>
    h.simple.within u v ((hhalf u v).mp he).1] at hvertices
  obtain ⟨hkept, hcompact⟩ :=
    DynamicGraph.compact_spec hloaded.outgoing.toTracked hloaded.incoming
  exact (hloaded.maintained hkept).isCopy h hcompact (hkept.directed.trans hdirected)
    ((hloaded.toRefines.maintained hkept).2.trans hvertices)

end Reader

/-- In every reachable state, saving and loading yields a copy exactly when the vertex count is
below `2 ^ 32`; otherwise saving never ends. -/
theorem saved_graph_loads_iff {D : Type} [DoubleArith D] (order : ByteOrder) (vertices : ℕ)
    (directed : Bool) (calls : List (Call D)) :
    let g := Call.run (DynamicGraph.create vertices directed) calls
    Returns (saveBinary order g) (fun bytes => ∃ copy : DynamicGraph D,
        loadBinary order (some bytes) g.directed = .ok copy ∧ DynamicGraph.IsCopy g copy) ↔
      g.vertexCount < 2 ^ 32 := by
  dsimp only
  obtain ⟨h, -⟩ := (@DynamicGraph.refines_create D vertices directed).1.run calls
  constructor
  · intro hloads
    by_contra hmany
    exact hloads.not_diverges (saveBinary_diverges order (not_lt.mp hmany))
  · intro hcount
    refine (saveBinary_returns order hcount).mono fun bytes hbytes => ?_
    rw [hbytes]
    exact h.loadBinary_isCopy hcount

/-- Saving a graph with as many vertices as there are ids never ends. -/
theorem not_saved_graph_loads :
    ¬ ∀ (vertices : ℕ) (directed : Bool) (calls : List (Call ℚ)),
      let g := Call.run (DynamicGraph.create vertices directed) calls
      Returns (saveBinary .little g) (fun bytes => ∃ copy : DynamicGraph ℚ,
        loadBinary .little (some bytes) g.directed = .ok copy ∧ DynamicGraph.IsCopy g copy) := by
  intro hloads
  have hvertices := (@DynamicGraph.refines_create ℚ (2 ^ 32) true).2
  exact (hloads (2 ^ 32) true []).not_diverges (saveBinary_diverges .little hvertices.ge)

end VeloGraphX
