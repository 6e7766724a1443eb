import Mathlib
import VeloGraphX.Storage.DynamicGraphCalls
import VeloGraphX.Storage.PackedDeltaRuns

/-!
# How much the overlays hold

The thresholds of the automatic maintenance decide when rows are compacted and arenas repacked. In
exact arithmetic they bound what a graph stores, in every state that calls lead to: two fifths of
each arena are live, and the forward overlay is small against the vertices and the compact arcs.
-/

namespace VeloGraphX

open Slice SortedList ArcSet

namespace PackedDeltaStore

variable {s : PackedDeltaStore} {u v w : VertexId}

/-- No entry of an index that is not an id. -/
def Confined (s : PackedDeltaStore) : Prop := ∀ i, 2 ^ 32 ≤ i → (s.rowMeta i).count = 0

/-- At least two fifths of the arena are live. -/
def Filled (s : PackedDeltaStore) : Prop := 2 * s.arena.length ≤ 5 * s.liveEntries

/-- A confined store holds the map that it answers from. -/
theorem WellFormed.represents (h : s.WellFormed) (hconfined : s.Confined) :
    s.Represents s.overrideFor :=
  ⟨h, hconfined, fun _ _ => rfl⟩

/-- Packing copies one cell for each entry that a record counts. -/
theorem length_packRows (arena : List Entry) (rows : List Row) (packed : List Entry)
    (hslices : ∀ m ∈ rows, (slice arena m.offset m.count).length = m.count) :
    (packRows arena rows packed).2.length = packed.length + (rows.map Row.count).sum := by
  induction rows generalizing packed with
  | nil => rfl
  | cons m rest ih =>
    have hrest := fun packed => ih packed fun m hm => hslices m (List.mem_cons_of_mem _ hm)
    rw [List.map_cons, List.sum_cons]
    by_cases hzero : m.count = 0
    · simp only [packRows, if_pos hzero]
      rw [hrest, hzero, Nat.zero_add]
    · simp only [packRows, if_neg hzero]
      rw [hrest, List.length_append, hslices m List.mem_cons_self, Nat.add_assoc]

/-- The records of a confined store count the live entries. -/
theorem WellFormed.sum_counts (h : s.WellFormed) (hconfined : s.Confined) :
    (s.rows.map Row.count).sum = s.liveEntries := by
  have hbeyond : ∀ m, (∀ i, m ≤ i → (s.rowMeta i).count = 0) → m ≤ s.rows.length + 2 ^ 32 →
      ∑ i ∈ Finset.range m, (s.rowMeta i).count =
        ∑ i ∈ Finset.range (s.rows.length + 2 ^ 32), (s.rowMeta i).count := fun m hzero hm =>
    Finset.sum_subset (Finset.range_subset_range.mpr hm) fun i _ hi =>
      hzero i (not_lt.mp fun hlt => hi (Finset.mem_range.mpr hlt))
  calc (s.rows.map Row.count).sum
      = ∑ i ∈ Finset.range s.rows.length, (s.rowMeta i).count := by
        rw [Finset.sum_range, ← List.sum_ofFn]
        congr 1
        refine List.ext_getElem (by simp) fun i hi hi' => ?_
        have hlt : i < s.rows.length := (List.length_map Row.count).symm ▸ hi
        rw [List.getElem_map, List.getElem_ofFn, rowMeta, List.getD_eq_getElem _ _ hlt]
    _ = ∑ i ∈ Finset.range (2 ^ 32), (s.rowMeta i).count := by
        rw [hbeyond _ (fun i hi => by rw [rowMeta_of_length_le hi]) (Nat.le_add_right _ _),
          hbeyond _ hconfined (Nat.le_add_left _ _)]
    _ = ∑ u : VertexId, (s.row u).length := by
        rw [Finset.sum_range]
        exact Finset.sum_congr rfl fun u _ => h.count_eq u
    _ = s.liveEntries := h.live_eq.symm

/-- Repacking a confined store leaves no cell that is not live. -/
theorem WellFormed.length_repack (h : s.WellFormed) (hconfined : s.Confined) :
    s.repack.arena.length = s.repack.liveEntries := by
  unfold PackedDeltaStore.repack
  split
  · rename_i hzero
    exact hzero.symm
  · refine (length_packRows s.arena s.rows [] fun m hm => ?_).trans ?_
    · obtain ⟨i, hi, rfl⟩ := List.getElem_of_mem hm
      have hlen := h.layout.length_cells i
      rwa [PackedDeltaStore.cells, rowMeta, List.getD_eq_getElem _ _ hi] at hlen
    · rw [List.length_nil, Nat.zero_add, h.sum_counts hconfined]

/-- So it fills the arena. -/
theorem WellFormed.filled_repack (h : s.WellFormed) (hconfined : s.Confined) : s.repack.Filled := by
  rw [Filled, h.length_repack hconfined]
  omega

/-- A store whose fragmentation does not call for repacking is filled. -/
theorem filled_of_ratio {limit : ℚ} (hlimit : limit ≤ 3 / 5)
    (h : ¬ limit < s.fragmentationRatio ℚ) : s.Filled := by
  rw [not_lt, fragmentationRatio] at h
  unfold Filled
  split at h
  · rename_i hempty
    rw [List.isEmpty_iff.mp hempty, List.length_nil]
    omega
  · rename_i hcells
    have hlen : 0 < s.arena.length :=
      List.length_pos_iff.mpr fun hnil => hcells (List.isEmpty_iff.mpr hnil)
    have hpos : (0 : ℚ) < s.arena.length := by exact_mod_cast hlen
    have hshare : 2 / 5 ≤ (s.liveEntries : ℚ) / s.arena.length := by
      have hone : (1.0 : ℚ) - (s.liveEntries : ℚ) / s.arena.length ≤ 3 / 5 := h.trans hlimit
      norm_num at hone ⊢
      linarith only [hone]
    rw [le_div_iff₀ hpos] at hshare
    have hcast : (2 * s.arena.length : ℚ) ≤ 5 * s.liveEntries := by linarith only [hshare]
    exact_mod_cast hcast

/-- Recording a desired presence touches one slice. -/
theorem WellFormed.row_setIfChanged (h : s.WellFormed) (desiredPresent basePresent : Bool)
    (hw : w ≠ u) : (s.setIfChanged u v desiredPresent basePresent).2.row w = s.row w := by
  have hset := h.setIfChanged (u := u) (v := v) desiredPresent basePresent
  split at hset
  · rw [hset, row_resizeVertices]
  · exact hset.2.row_of_ne w hw

end PackedDeltaStore

namespace Side

variable {side side' : Side} {u : VertexId}

open PackedDeltaStore (Confined Filled)

/-- Compacting one row keeps the overlay confined. -/
theorem Tracked.confined_compactOneRow (h : side.Tracked) (hconfined : side.delta.Confined)
    (u : VertexId) : (side.compactOneRow u).delta.Confined := by
  unfold compactOneRow
  split
  · exact hconfined
  · exact ((h.delta.represents hconfined).clearRange u (u + 1)).beyond

/-- So does compacting rows one after the other. -/
theorem Tracked.confined_foldl_compactOneRow (h : side.Tracked) (hconfined : side.delta.Confined)
    (rows : List VertexId) : (rows.foldl compactOneRow side).delta.Confined := by
  induction rows generalizing side with
  | nil => exact hconfined
  | cons w rest ih =>
    exact ih (compactOneRow_spec h w).1.tracked (h.confined_compactOneRow hconfined w)

/-- The overlay of a row is smaller than the given share of the work to compact it. -/
def Sparse (limit : ℚ) (side : Side) (u : VertexId) : Prop :=
  ((side.delta.row u).length : ℚ) < limit * (max 8 (side.compactRow u).length : ℕ)

/-- A row without overlay is sparse. -/
theorem sparse_of_nil {limit : ℚ} (hlimit : 0 < limit) (hnil : side.delta.row u = []) :
    Sparse limit side u := by
  have hwork : (0 : ℚ) < (max 8 (side.compactRow u).length : ℕ) := by
    exact_mod_cast lt_max_of_lt_left (by norm_num)
  rw [Sparse, hnil, List.length_nil, Nat.cast_zero]
  exact mul_pos hlimit hwork

/-- A row stays sparse when rows are kept. -/
theorem Kept.sparse {limit : ℚ} (h : Kept side side') (hlimit : 0 < limit)
    (hsparse : Sparse limit side u) : Sparse limit side' u := by
  rcases h.rows u with ⟨hdelta, hcompact⟩ | ⟨hdelta, -⟩
  · rwa [Sparse, hdelta, hcompact]
  · exact sparse_of_nil hlimit hdelta

/-- The turns of `compact_dense_rows` keep the overlay confined, and leave it alone where they report
that nothing was compacted. -/
theorem foldl_compactDenseRow_delta {D : Type} [DoubleArith D] (h : side.Tracked)
    (hconfined : side.delta.Confined) (threshold : D) (rows pending : List VertexId) (compacted : Bool) :
    let last := rows.foldl (compactDenseRow threshold) (side, pending, compacted)
    last.1.delta.Confined ∧ (last.2.2 = false → compacted = false ∧ last.1.delta = side.delta) := by
  induction rows generalizing side pending compacted with
  | nil => exact ⟨hconfined, fun hflag => ⟨hflag, rfl⟩⟩
  | cons w rest ih =>
    rw [List.foldl_cons]
    unfold compactDenseRow
    dsimp only
    split
    · exact ih h hconfined pending compacted
    · split
      · exact ih h hconfined (pending ++ [w]) compacted
      · obtain ⟨hconfined', hsame⟩ := ih (compactOneRow_spec h w).1.tracked
          (h.confined_compactOneRow hconfined w) pending true
        exact ⟨hconfined', fun hflag => absurd (hsame hflag).1 nofun⟩

/-- They leave every row that they visit sparse. -/
theorem foldl_compactDenseRow_sparse {limit : ℚ} (h : side.Tracked) (hlimit : 0 < limit)
    (rows pending : List VertexId) (compacted : Bool) :
    let last := rows.foldl (compactDenseRow limit) (side, pending, compacted)
    Kept side last.1 ∧ ∀ u ∈ rows, Sparse limit last.1 u := by
  induction rows generalizing side pending compacted with
  | nil => exact ⟨Kept.refl h, fun u hu => absurd hu List.not_mem_nil⟩
  | cons w rest ih =>
    have hcons : ∀ {next last : Side}, Sparse limit next w → Kept next last →
        (∀ u ∈ rest, Sparse limit last u) → ∀ u ∈ w :: rest, Sparse limit last u := by
      intro next last hw hlast hrest u hu
      rcases List.mem_cons.mp hu with rfl | hu
      · exact hlast.sparse hlimit hw
      · exact hrest u hu
    rw [List.foldl_cons]
    unfold compactDenseRow
    dsimp only
    split
    · rename_i hzero
      obtain ⟨hkept, hsparse⟩ := ih h pending compacted
      exact ⟨hkept, hcons (sparse_of_nil hlimit (List.length_eq_zero_iff.mp hzero)) hkept hsparse⟩
    · split
      · rename_i hdensity
        have hw : Sparse limit side w := by
          have hwork : (0 : ℚ) < (max 8 (side.compactRow w).length : ℕ) := by
            exact_mod_cast lt_max_of_lt_left (by norm_num)
          have hless : ((side.delta.row w).length : ℚ) / (max 8 (side.compactRow w).length : ℕ) < limit :=
            of_decide_eq_true hdensity
          rwa [div_lt_iff₀ hwork] at hless
        obtain ⟨hkept, hsparse⟩ := ih h (pending ++ [w]) compacted
        exact ⟨hkept, hcons hw hkept hsparse⟩
      · obtain ⟨hone, hnil, -⟩ := compactOneRow_spec h w
        obtain ⟨hkept, hsparse⟩ := ih hone.tracked pending true
        exact ⟨hone.trans hkept, hcons (sparse_of_nil hlimit hnil) hkept hsparse⟩

/-- `compact_dense_rows` leaves every row sparse. -/
theorem Tracked.sparse_compactDenseRows {limit : ℚ} (h : side.Tracked) (hlimit : 0 < limit)
    (u : VertexId) : Sparse limit (side.compactDenseRows limit).2 u := by
  obtain ⟨hkept, hsparse⟩ := foldl_compactDenseRow_sparse h hlimit
    (normalizeDirty side.dirtyRows) [] false
  by_cases hu : side.delta.row u = []
  · exact sparse_of_nil hlimit (hkept.rows_nil hu)
  · exact hsparse u ((mem_normalizeDirty _ u).mpr (h.dirty u hu))

/-- Repacking above a limit keeps the overlay confined, and leaves the arena filled. -/
theorem Tracked.repackAbove_filled {limit : ℚ} (h : side.Tracked) (hconfined : side.delta.Confined)
    (hlimit : limit ≤ 3 / 5) :
    (side.repackAbove limit).delta.Confined ∧ (side.repackAbove limit).delta.Filled := by
  unfold repackAbove
  split
  · exact ⟨((h.delta.represents hconfined).repack).beyond, h.delta.filled_repack hconfined⟩
  · rename_i hratio
    exact ⟨hconfined, PackedDeltaStore.filled_of_ratio hlimit fun hlt => hratio (decide_eq_true hlt)⟩

/-- Where every row is sparse the overlay is small against the vertices and the compact arcs. -/
theorem WellFormed.size_le_of_sparse (h : side.WellFormed) {n : ℕ}
    (hwithin : ∀ u : VertexId, side.delta.row u ≠ [] → u.val < n)
    (hsparse : ∀ u, Sparse (1 / 2) side u) :
    2 * side.delta.liveEntries ≤ 8 * n + side.compactEdges := by
  have hrow : ∀ u : VertexId, 2 * (side.delta.row u).length ≤
      (if u.val < n then 8 else 0) + (side.compactRow u).length := by
    intro u
    by_cases hnil : side.delta.row u = []
    · rw [hnil, List.length_nil]
      exact Nat.zero_le _
    · have hless : ((side.delta.row u).length : ℚ) < 1 / 2 * (max 8 (side.compactRow u).length : ℕ) :=
        hsparse u
      have hcast : 2 * (side.delta.row u).length < max 8 (side.compactRow u).length := by
        have htwice : (2 * (side.delta.row u).length : ℚ) < (max 8 (side.compactRow u).length : ℕ) := by
          linarith only [hless]
        exact_mod_cast htwice
      rw [if_pos (hwithin u hnil)]
      omega
  have hcount : ∑ u : VertexId, (if u.val < n then 8 else 0) ≤ 8 * n := by
    rw [← Finset.sum_filter, Finset.sum_const, smul_eq_mul, Nat.mul_comm]
    refine Nat.mul_le_mul_left 8 ?_
    calc (Finset.univ.filter fun u : VertexId => u.val < n).card
        ≤ (Finset.range n).card := Finset.card_le_card_of_injOn Fin.val
          (fun u hu => Finset.mem_coe.mpr (Finset.mem_range.mpr (Finset.mem_filter.mp hu).2))
          (fun a _ b _ hab => Fin.ext hab)
      _ = n := Finset.card_range n
  calc 2 * side.delta.liveEntries
      = ∑ u, 2 * (side.delta.row u).length := by rw [h.delta.live_eq, Finset.mul_sum]
    _ ≤ ∑ u : VertexId, ((if u.val < n then 8 else 0) + (side.compactRow u).length) :=
        Finset.sum_le_sum fun u _ => hrow u
    _ ≤ 8 * n + side.compactEdges := by
        rw [Finset.sum_add_distrib, h.compactEdges_eq]
        exact Nat.add_le_add_right hcount _

/-- Compacting a row drops as many overlay entries as it costs compact arcs, or more. -/
theorem length_le_mergeOverlay {base : List VertexId} {overlay : List Entry}
    (hbase : Ascending id base) (hoverlay : Ascending Entry.dst overlay)
    (htight : ∀ e ∈ overlay, e.present = true ↔ e.dst ∉ base) :
    base.length ≤ (mergeOverlay base overlay).length + overlay.length := by
  have hlength := length_mergeOverlay hbase hoverlay htight
  have habsent := List.countP_le_length (p := fun e : Entry => !e.present) (l := overlay)
  omega

/-- So keeping rows lowers the overlay by no less than the compact arcs. -/
theorem Kept.size_le (hkept : Kept side side') (h : side.WellFormed) (ht : side.Tight) :
    side'.delta.liveEntries ≤ side.delta.liveEntries ∧
      side'.delta.liveEntries + side.compactEdges ≤ side'.compactEdges + side.delta.liveEntries := by
  rw [hkept.tracked.delta.live_eq, h.delta.live_eq, h.compactEdges_eq, hkept.edges h.compactEdges_eq,
    ← Finset.sum_add_distrib, ← Finset.sum_add_distrib]
  refine ⟨Finset.sum_le_sum fun u _ => ?_, Finset.sum_le_sum fun u _ => ?_⟩
  · rcases hkept.rows u with ⟨hdelta, -⟩ | ⟨hdelta, -⟩
    · rw [hdelta]
    · rw [hdelta]
      exact Nat.zero_le _
  · rcases hkept.rows u with ⟨hdelta, hcompact⟩ | ⟨hdelta, hcompact⟩
    · rw [hdelta, hcompact, Nat.add_comm]
    · have hmerged := length_le_mergeOverlay (h.ascending u) (h.delta.ascending u) (ht u)
      rw [hdelta, hcompact, materializeRow_eq, List.length_nil, Nat.zero_add]
      exact hmerged

end Side

namespace DynamicGraph

variable {g g' : DynamicGraph ℚ} {arcs : ArcSet}

open PackedDeltaStore (Confined Filled)

/-- The overlays keep entries of vertices only. -/
structure Placed (g : DynamicGraph ℚ) : Prop where
  outgoing : g.outgoing.delta.Confined
  incoming : g.incoming.delta.Confined
  within : ∀ u : VertexId, g.outgoing.delta.row u ≠ [] → u.val < g.vertexCount

/-- What the maintenance sees to: filled arenas, and a forward overlay that is small against the
vertices and the compact arcs. -/
structure Bounded (g : DynamicGraph ℚ) : Prop extends Placed g where
  filledOut : g.outgoing.delta.Filled
  filledIn : g.incoming.delta.Filled
  overlay : 2 * g.outgoing.delta.liveEntries ≤
    131070 + 8 * g.vertexCount + g.outgoing.compactEdges

/-- Making room for a vertex moves no entry. -/
theorem Placed.ensureVertex (h : Placed g) (hrefines : Represents g arcs) (v : VertexId) :
    Placed (g.ensureVertex v) := by
  have hcount := (hrefines.ensureVertex v).2
  refine ⟨?_, ?_, fun u hu => ?_⟩
  · unfold DynamicGraph.ensureVertex
    dsimp only
    split
    · exact h.outgoing
    · exact fun i hi => (PackedDeltaStore.rowMeta_resizeVertices _ _ i).symm ▸ h.outgoing i hi
  · unfold DynamicGraph.ensureVertex
    dsimp only
    split
    · exact h.incoming
    · exact fun i hi => (PackedDeltaStore.rowMeta_resizeVertices _ _ i).symm ▸ h.incoming i hi
  · have hrow : (g.ensureVertex v).outgoing.delta.row u = g.outgoing.delta.row u := by
      unfold DynamicGraph.ensureVertex
      dsimp only
      split
      · rfl
      · exact PackedDeltaStore.row_resizeVertices _ _ u
    rw [hcount]
    exact lt_max_of_lt_left (h.within u (hrow ▸ hu))

/-- Setting one arc records at one vertex. -/
theorem Placed.applyArc (h : Placed g) (hrefines : Represents g arcs) {u : VertexId}
    (hu : u.val < g.vertexCount) (v : VertexId) (present : Bool) : Placed (g.applyArc u v present) := by
  have hcount := (hrefines.applyArc u v present).2.1
  have hout := hrefines.outgoing.delta.represents h.outgoing
  have hin := hrefines.incoming.delta.represents h.incoming
  have hset := (hout.setIfChanged u v present (g.outgoing.compactContains u v)).2.beyond
  refine ⟨?_, ?_, fun w hw => ?_⟩
  · unfold DynamicGraph.applyArc
    dsimp only
    split <;> exact hset
  · unfold DynamicGraph.applyArc
    dsimp only
    split
    · exact (hin.exec (.set v u present (g.outgoing.compactContains u v))).2.beyond
    · exact h.incoming
  · rw [hcount]
    by_cases hwu : w = u
    · exact hwu ▸ hu
    · refine h.within w ?_
      have hrow : (g.applyArc u v present).outgoing.delta.row w = g.outgoing.delta.row w := by
        unfold DynamicGraph.applyArc
        dsimp only
        split <;> exact hrefines.outgoing.delta.row_setIfChanged present _ hwu
      exact hrow ▸ hw

/-- One operation of a batch. -/
theorem Placed.applyUnversioned (h : Placed g) (hrefines : Refines g arcs) (op : EdgeUpdate) :
    Placed (g.applyUnversioned op) := by
  unfold DynamicGraph.applyUnversioned
  split
  · exact h
  obtain ⟨hgrown, hcount⟩ := hrefines.toRepresents.ensureVertex (max op.src op.dst)
  have hplaced := h.ensureVertex hrefines.toRepresents (max op.src op.dst)
  rw [val_max] at hcount
  have hforth := hplaced.applyArc hgrown (u := op.src) (by omega) op.dst op.add
  obtain ⟨hforthRep, hcount', -, -⟩ := hgrown.applyArc op.src op.dst op.add
  dsimp only
  split
  · exact hforth
  · exact hforth.applyArc hforthRep (u := op.dst) (by omega) op.src op.add

/-- The operations of a batch. -/
theorem Placed.foldl_applyUnversioned (h : Placed g) (hrefines : Refines g arcs)
    (updates : List EdgeUpdate) : Placed (updates.foldl DynamicGraph.applyUnversioned g) := by
  induction updates generalizing g arcs with
  | nil => exact h
  | cons op rest ih => exact ih (h.applyUnversioned hrefines op) (hrefines.applyUnversioned op).1

/-- Maintenance keeps entries at vertices. -/
theorem Placed.maintained (h : Placed g) (hrefines : Refines g arcs) (hkept : Maintained g g')
    (hout : g'.outgoing.delta.Confined) (hin : g'.incoming.delta.Confined) : Placed g' := by
  refine ⟨hout, hin, fun u hu => ?_⟩
  rw [(hrefines.maintained hkept).2]
  exact h.within u fun hnil => hu (hkept.outgoing.rows_nil hnil)

/-- Maintenance that leaves filled arenas keeps the bounds. -/
theorem Bounded.maintained (h : Bounded g) (hrefines : Refines g arcs) (hkept : Maintained g g')
    (hout : g'.outgoing.delta.Confined ∧ g'.outgoing.delta.Filled)
    (hin : g'.incoming.delta.Confined ∧ g'.incoming.delta.Filled) : Bounded g' := by
  refine ⟨h.toPlaced.maintained hrefines hkept hout.1 hin.1, hout.2, hin.2, ?_⟩
  obtain ⟨hless, hsmall⟩ := hkept.outgoing.size_le hrefines.outgoing hrefines.tight
  have hbefore := h.overlay
  rw [(hrefines.maintained hkept).2]
  omega

/-- Compacting dense rows, whatever the threshold, keeps the overlays confined, and what it does not
report it has not done. -/
theorem Placed.maybeCompact (h : Placed g) (hrefines : Refines g arcs) (threshold : ℚ) :
    (g.maybeCompact threshold).2.outgoing.delta.Confined ∧
      (g.maybeCompact threshold).2.incoming.delta.Confined ∧
      ((g.outgoing.delta.Filled → (g.maybeCompact threshold).2.outgoing.delta.Filled) ∧
        (g.incoming.delta.Filled → (g.maybeCompact threshold).2.incoming.delta.Filled)) := by
  have hout := Side.foldl_compactDenseRow_delta hrefines.outgoing.toTracked h.outgoing threshold
    (normalizeDirty g.outgoing.dirtyRows) [] false
  have hin := Side.foldl_compactDenseRow_delta hrefines.incoming h.incoming threshold
    (normalizeDirty g.incoming.dirtyRows) [] false
  have hkeptOut := Side.kept_compactDenseRows hrefines.outgoing.toTracked threshold
  have hkeptIn := Side.kept_compactDenseRows hrefines.incoming threshold
  have hquarter : (0.25 : ℚ) ≤ 3 / 5 := by norm_num
  unfold DynamicGraph.maybeCompact
  dsimp only
  split
  · obtain ⟨hconfined, hfilled⟩ := hkeptOut.tracked.repackAbove_filled hout.1 hquarter
    obtain ⟨hconfined', hfilled'⟩ := hkeptIn.tracked.repackAbove_filled hin.1 hquarter
    exact ⟨hconfined, hconfined', fun _ => hfilled, fun _ => hfilled'⟩
  · rename_i hnone
    rw [Bool.or_eq_true, not_or, Bool.not_eq_true, Bool.not_eq_true] at hnone
    refine ⟨hout.1, hin.1, fun hfilled => ?_, fun hfilled => ?_⟩
    · exact (hout.2 hnone.1).2 ▸ hfilled
    · exact (hin.2 hnone.2).2 ▸ hfilled

/-- Where the maintenance does not compact, the overlay is small as it is; where it does, it is small
because every row is sparse. -/
theorem Placed.overlay_le (h : Placed g) (hrefines : Refines g arcs) :
    let g' := if 65536 ≤ g.outgoing.delta.size && DoubleArith.le (0.01 : ℚ) g.deltaRatio then
      (g.maybeCompact (0.50 : ℚ)).2 else g
    Maintained g g' ∧ g'.outgoing.delta.Confined ∧ g'.incoming.delta.Confined ∧
      2 * g'.outgoing.delta.liveEntries ≤ 131070 + 8 * g.vertexCount + g'.outgoing.compactEdges := by
  dsimp only
  split
  · have hkept := maybeCompact_spec hrefines.outgoing.toTracked hrefines.incoming (0.50 : ℚ)
    obtain ⟨hout, hin, -⟩ := h.maybeCompact hrefines (0.50 : ℚ)
    refine ⟨hkept, hout, hin, ?_⟩
    have hplaced := h.maintained hrefines hkept hout hin
    obtain ⟨hrefines', hcount⟩ := hrefines.maintained hkept
    have hsparse : ∀ u, Side.Sparse (1 / 2) (g.maybeCompact (0.50 : ℚ)).2.outgoing u := by
      intro u
      have hhalf : (0.50 : ℚ) = 1 / 2 := by norm_num
      have hpos : (0 : ℚ) < 0.50 := by norm_num
      have hrow := hrefines.outgoing.toTracked.sparse_compactDenseRows hpos u
      rw [hhalf] at hrow ⊢
      have htracked := (Side.kept_compactDenseRows hrefines.outgoing.toTracked (1 / 2 : ℚ)).tracked
      unfold DynamicGraph.maybeCompact
      dsimp only
      split
      · exact (Side.kept_repackAbove htracked (0.25 : ℚ)).sparse (by norm_num) hrow
      · exact hrow
    have hsize := hrefines'.outgoing.size_le_of_sparse hplaced.within hsparse
    rw [hcount] at hsize
    omega
  · rename_i hsmall
    refine ⟨Maintained.refl hrefines.outgoing.toTracked hrefines.incoming, h.outgoing, h.incoming, ?_⟩
    rw [Bool.and_eq_true, decide_eq_true_eq, not_and_or, not_le] at hsmall
    rcases hsmall with hfew | hratio
    · have hsize : g.outgoing.delta.liveEntries < 65536 := hfew
      omega
    · have hless : (g.outgoing.delta.liveEntries : ℚ) / (max 1 g.outgoing.compactEdges : ℕ) < 0.01 :=
        not_le.mp fun hle => hratio (decide_eq_true hle)
      have hpos : (0 : ℚ) < (max 1 g.outgoing.compactEdges : ℕ) := by
        exact_mod_cast lt_max_of_lt_left one_pos
      rw [div_lt_iff₀ hpos] at hless
      have hcast : 100 * g.outgoing.delta.liveEntries < max 1 g.outgoing.compactEdges := by
        have htimes : (100 * g.outgoing.delta.liveEntries : ℚ) < (max 1 g.outgoing.compactEdges : ℕ) := by
          rw [show (0.01 : ℚ) = 1 / 100 by norm_num] at hless
          linarith only [hless]
        exact_mod_cast htimes
      omega

/-- The maintenance that ends a batch bounds the overlays, whatever the batch left. -/
theorem Placed.automaticStorageMaintenance (h : Placed g) (hrefines : Refines g arcs) :
    Bounded g.automaticStorageMaintenance := by
  obtain ⟨hkept, hout, hin, hoverlay⟩ := h.overlay_le hrefines
  have hlast := automaticStorageMaintenance_spec hrefines.outgoing.toTracked hrefines.incoming
  have hplaced : ∀ {g' : DynamicGraph ℚ}, Maintained g g' → g'.outgoing.delta.Confined →
      g'.incoming.delta.Confined → Placed g' := fun hkept hout hin =>
    h.maintained hrefines hkept hout hin
  have hlimit : (0.60 : ℚ) ≤ 3 / 5 := by norm_num
  have hcount := (hrefines.maintained hlast).2
  unfold DynamicGraph.automaticStorageMaintenance at hlast hcount ⊢
  dsimp only at hlast hcount ⊢
  generalize (if 65536 ≤ g.outgoing.delta.size && DoubleArith.le (0.01 : ℚ) g.deltaRatio then
    (g.maybeCompact (0.50 : ℚ)).2 else g) = g' at hkept hout hin hoverlay hlast hcount ⊢
  obtain ⟨hconfined, hfilled⟩ := hkept.outgoing.tracked.repackAbove_filled hout hlimit
  obtain ⟨hconfined', hfilled'⟩ := hkept.incoming.tracked.repackAbove_filled hin hlimit
  refine ⟨hplaced hlast hconfined hconfined', hfilled, hfilled', ?_⟩
  have hrepack : (g'.outgoing.repackAbove (0.60 : ℚ)).delta.liveEntries = g'.outgoing.delta.liveEntries ∧
      (g'.outgoing.repackAbove (0.60 : ℚ)).compactEdges = g'.outgoing.compactEdges := by
    unfold Side.repackAbove PackedDeltaStore.repack
    split
    · split <;> exact ⟨rfl, rfl⟩
    · exact ⟨rfl, rfl⟩
  rw [hcount, hrepack.1, hrepack.2]
  exact hoverlay

/-- A batch keeps the bounds, if it did not establish them. -/
theorem Bounded.apply (h : Bounded g) (hrefines : Refines g arcs) (batch : UpdateBatch) :
    Bounded (g.apply batch) := by
  have hplaced := h.toPlaced.foldl_applyUnversioned hrefines batch.updates
  have hfold := (hrefines.foldl_applyUnversioned batch.updates).1
  unfold DynamicGraph.apply
  dsimp only
  split
  · rename_i hempty
    rw [List.isEmpty_iff.mp hempty]
    exact h
  · generalize hg' : DynamicGraph.mk _ _ _ _ = g'
    have hplaced' : Placed g' := by
      subst hg'
      exact ⟨hplaced.outgoing, hplaced.incoming, hplaced.within⟩
    have hfold' : Refines g' (applyAll g.directed arcs batch.updates) := by
      subst hg'
      exact ⟨⟨hfold.outgoing, hfold.tight, hfold.incoming, hfold.has⟩, hfold.simple⟩
    exact hplaced'.automaticStorageMaintenance hfold'

/-- `compact` leaves nothing to bound. -/
theorem Bounded.compact (h : Bounded g) (hrefines : Refines g arcs) : Bounded g.compact := by
  have hkept := (compact_spec hrefines.outgoing.toTracked hrefines.incoming).1
  have hmarked : ∀ {side : Side}, side.Tracked → side.delta.Confined →
      side.compactMarkedRows.delta.repack.Confined ∧ side.compactMarkedRows.delta.repack.Filled := by
    intro side htracked hconfined
    have hwf := (Side.compactMarkedRows_spec htracked).1.tracked.delta
    have hrows : side.compactMarkedRows.delta.Confined :=
      htracked.confined_foldl_compactOneRow hconfined (normalizeDirty side.dirtyRows)
    exact ⟨((hwf.represents hrows).repack).beyond, hwf.filled_repack hrows⟩
  refine h.maintained hrefines hkept ?_ ?_
  · unfold DynamicGraph.compact
    split
    · exact ⟨h.outgoing, h.filledOut⟩
    · exact hmarked hrefines.outgoing.toTracked h.outgoing
  · unfold DynamicGraph.compact
    split
    · exact ⟨h.incoming, h.filledIn⟩
    · exact hmarked hrefines.incoming h.incoming

/-- A freshly loaded direction has an empty arena. -/
theorem confined_loadSide (side : Side) (base : SegmentedCsr) (vertices : ℕ) :
    (loadSide side base vertices).delta.Confined ∧ (loadSide side base vertices).delta.Filled ∧
      (loadSide side base vertices).delta.liveEntries = 0 := by
  have hlive : (loadSide side base vertices).delta.liveEntries = 0 := by
    unfold loadSide PackedDeltaStore.resizeVertices
    dsimp only
    split <;> rfl
  have harena : (loadSide side base vertices).delta.arena = [] :=
    PackedDeltaStore.arena_resizeVertices _ _
  refine ⟨((PackedDeltaStore.represents_clear side.delta).resizeVertices vertices).beyond, ?_, hlive⟩
  rw [PackedDeltaStore.Filled, harena, List.length_nil]
  exact Nat.zero_le _

/-- A bulk load leaves no overlay. -/
theorem bounded_bulkLoadEdges (hrefines : Refines g arcs) (edges : List (VertexId × VertexId)) :
    Bounded (g.bulkLoadEdges edges) := by
  obtain ⟨g₁, -, -, heq⟩ := bulkLoadEdges_eq hrefines.toRepresents edges
  rw [heq]
  obtain ⟨hconfined, hfilled, hlive⟩ := confined_loadSide g₁.outgoing
    (SegmentedCsr.build (growAll g.vertexCount (insertions edges)) (loadArcs g.directed edges))
    (growAll g.vertexCount (insertions edges))
  obtain ⟨hconfined', hfilled', -⟩ := confined_loadSide g₁.incoming (SegmentedCsr.buildTransposeFrom
      (SegmentedCsr.build (growAll g.vertexCount (insertions edges)) (loadArcs g.directed edges)))
    (growAll g.vertexCount (insertions edges))
  refine ⟨⟨hconfined, hconfined', fun u hu => ?_⟩, hfilled, hfilled', ?_⟩
  · exact absurd ((Side.tracked_loadSide _ _ _).2 u) hu
  · rw [hlive]
    exact Nat.zero_le _

/-- Making room for a vertex keeps the bounds. -/
theorem Bounded.ensureVertex (h : Bounded g) (hrefines : Refines g arcs) (v : VertexId) :
    Bounded (g.ensureVertex v) := by
  have hplaced := h.toPlaced.ensureVertex hrefines.toRepresents v
  have hcount := (hrefines.toRepresents.ensureVertex v).2
  have hresize : ∀ (delta : PackedDeltaStore) (n : ℕ),
      (delta.resizeVertices n).liveEntries = delta.liveEntries := by
    intro delta n
    unfold PackedDeltaStore.resizeVertices
    split <;> rfl
  have hsame : (g.ensureVertex v).outgoing.delta.liveEntries = g.outgoing.delta.liveEntries ∧
      (g.ensureVertex v).outgoing.delta.arena = g.outgoing.delta.arena ∧
      (g.ensureVertex v).incoming.delta.liveEntries = g.incoming.delta.liveEntries ∧
      (g.ensureVertex v).incoming.delta.arena = g.incoming.delta.arena ∧
      (g.ensureVertex v).outgoing.compactEdges = g.outgoing.compactEdges := by
    unfold DynamicGraph.ensureVertex
    dsimp only
    split
    · exact ⟨rfl, rfl, rfl, rfl, rfl⟩
    · exact ⟨hresize _ _, PackedDeltaStore.arena_resizeVertices _ _, hresize _ _,
        PackedDeltaStore.arena_resizeVertices _ _, rfl⟩
  obtain ⟨hlive, harena, hlive', harena', hedges⟩ := hsame
  refine ⟨hplaced, ?_, ?_, ?_⟩
  · rw [PackedDeltaStore.Filled, harena, hlive]
    exact h.filledOut
  · rw [PackedDeltaStore.Filled, harena', hlive']
    exact h.filledIn
  · have hbefore := h.overlay
    rw [hlive, hedges, hcount]
    omega

/-- Every call keeps the bounds. -/
theorem Bounded.exec (h : Bounded g) (hrefines : Refines g arcs) (call : Call ℚ) :
    Bounded (call.exec g) := by
  cases call with
  | ensureVertex v => exact h.ensureVertex hrefines v
  | bulkLoadEdges edges => exact bounded_bulkLoadEdges hrefines edges
  | apply batch => exact h.apply hrefines batch
  | addEdge u v => exact h.apply hrefines (UpdateBatch.add {} u v)
  | removeEdge u v => exact h.apply hrefines (UpdateBatch.remove {} u v)
  | maybeCompact threshold =>
    obtain ⟨hout, hin, hfilledOut, hfilledIn⟩ := h.toPlaced.maybeCompact hrefines threshold
    exact h.maintained hrefines
      (maybeCompact_spec hrefines.outgoing.toTracked hrefines.incoming threshold)
      ⟨hout, hfilledOut h.filledOut⟩ ⟨hin, hfilledIn h.filledIn⟩
  | compact => exact h.compact hrefines

/-- So does every run. -/
theorem Bounded.run (h : Bounded g) (hrefines : Refines g arcs) (calls : List (Call ℚ)) :
    Bounded (Call.run g calls) := by
  induction calls generalizing g arcs with
  | nil => exact h
  | cons call rest ih => exact ih (h.exec hrefines call) (hrefines.exec call).1

/-- A graph without edges is within the bounds. -/
theorem bounded_create (vertices : ℕ) (directed : Bool) :
    Bounded (create vertices directed : DynamicGraph ℚ) := by
  have hrow := (PackedDeltaStore.resizeVertices_empty_spec vertices).2
  have hempty : (Side.resizeVertices {} vertices).delta.Confined := fun i hi =>
    (PackedDeltaStore.rowMeta_resizeVertices {} vertices i).symm ▸
      (PackedDeltaStore.represents_empty.beyond i hi)
  have harena : (Side.resizeVertices {} vertices).delta.arena = [] :=
    PackedDeltaStore.arena_resizeVertices {} vertices
  have hfilled : (Side.resizeVertices {} vertices).delta.Filled := by
    rw [PackedDeltaStore.Filled, harena, List.length_nil]
    exact Nat.zero_le _
  have hlive : (Side.resizeVertices {} vertices).delta.liveEntries = 0 := by
    unfold Side.resizeVertices PackedDeltaStore.resizeVertices
    dsimp only
    split <;> rfl
  refine ⟨⟨hempty, hempty, fun u hu => absurd (hrow u) hu⟩, hfilled, hfilled, ?_⟩
  change 2 * (Side.resizeVertices {} vertices).delta.liveEntries ≤ _
  rw [hlive]
  exact Nat.zero_le _

/-- After every run of calls that has a result, batches that the maintenance did not look at included,
at least two fifths of either arena are live, and the forward overlay with its arena is linear in the
number of vertices and of compact arcs. -/
theorem storage_bounded (vertices : ℕ) (directed : Bool) (calls : List (Call ℚ)) (g : DynamicGraph ℚ)
    (hrun : Call.run? (create vertices directed) calls = some g) :
    2 * g.outgoing.delta.arena.length ≤ 5 * g.outgoing.delta.size ∧
      2 * g.incoming.delta.arena.length ≤ 5 * g.incoming.delta.size ∧
      2 * g.deltaEdgeCount ≤ 131070 + 8 * g.vertexCount + g.baseEdgeCountDirected ∧
      4 * g.outgoing.delta.arena.length ≤
        5 * (131070 + 8 * g.vertexCount + g.baseEdgeCountDirected) := by
  have h := (bounded_create vertices directed).run (refines_create vertices directed).1 calls
  rw [run_of_run? hrun] at h
  have hfilled : 2 * _ ≤ 5 * _ := h.filledOut
  have hoverlay := h.overlay
  refine ⟨h.filledOut, h.filledIn, hoverlay, ?_⟩
  rw [baseEdgeCountDirected]
  omega

/-- The case of a bulk load and an insertion: the one live entry of the forward arena allows it two. -/
theorem storage_bounded_insert :
    ∃ g : DynamicGraph ℚ,
      Call.run? (create 3 true) [.bulkLoadEdges [(0, 1)], .addEdge 1 2] = some g ∧
        g.outgoing.delta.size = 1 ∧ g.outgoing.delta.arena.length ≤ 2 := by
  have heval : (Call.run? (create 3 true : DynamicGraph ℚ)
      [.bulkLoadEdges [(0, 1)], .addEdge 1 2]).map (fun g => g.outgoing.delta.size) = some 1 := by
    decide +kernel
  obtain ⟨g, hrun, hsize⟩ := Option.map_eq_some_iff.mp heval
  have hbound := (storage_bounded 3 true _ g hrun).1
  exact ⟨g, hrun, hsize, by omega⟩

end DynamicGraph

end VeloGraphX
