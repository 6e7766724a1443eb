import Mathlib
import VeloGraphX.Storage.SegmentedCsr

/-!
# Rows of the segmented base

The shape of the segments determines where a row lies. Growing the base adds empty rows and
changes no other row; both bulk constructions are counting sorts, so a row of the result is
exactly the targets of its vertex in arc order.
-/

namespace VeloGraphX.SegmentedCsr

open Slice PointUpdate SortedList CountingSort

/-- The place and the tables of the segment with the given index. -/
structure SegmentShape (segment : Segment) (index vertices : ℕ) : Prop where
  first : segment.firstVertex = index * kVerticesPerSegment
  count : segment.vertexCount = min kVerticesPerSegment (vertices - index * kVerticesPerSegment)
  offsets_length : segment.offsets.length = segment.vertexCount + 1
  last : segment.offsets.getD segment.vertexCount 0 = segment.edges.length

/-- As many segments as the vertices need, each of its proper shape. -/
structure Shape (csr : SegmentedCsr) : Prop where
  segments_length : csr.segments.length =
    (csr.vertexCount + kVerticesPerSegment - 1) / kVerticesPerSegment
  segment : ∀ i, i < csr.segments.length →
    SegmentShape (csr.segments.getD i default) i csr.vertexCount

/-- Every row ends where the next begins, so a segment's row is a slice of its edges. -/
def rowOf (segment : Segment) (loc : ℕ) : List VertexId :=
  slice segment.edges (segment.offsets.getD loc 0)
    (segment.offsets.getD (loc + 1) 0 - segment.offsets.getD loc 0)

variable {csr : SegmentedCsr}

/-- The segment of an existing vertex exists. -/
theorem Shape.index_lt (h : csr.Shape) {i : ℕ} (hi : i < csr.vertexCount) :
    i / kVerticesPerSegment < csr.segments.length := by
  rw [h.segments_length]
  simp only [kVerticesPerSegment]
  omega

/-- The row of an existing vertex, located by its segment. -/
theorem Shape.row_eq (h : csr.Shape) (u : VertexId) (hu : u.val < csr.vertexCount) :
    csr.row u = rowOf (csr.segments.getD (u / kVerticesPerSegment) default)
      (u % kVerticesPerSegment) := by
  have hfirst := (h.segment _ (h.index_lt hu)).first
  have hloc : u.val - u.val / kVerticesPerSegment * kVerticesPerSegment =
      u.val % kVerticesPerSegment := by
    simp only [kVerticesPerSegment]
    omega
  unfold row
  rw [if_neg (not_le.mpr hu)]
  simp only [hfirst, hloc]
  rfl

/-- Vertices that do not exist have no row. -/
theorem row_of_le {u : VertexId} (hu : csr.vertexCount ≤ u) : csr.row u = [] := by
  rw [row, if_pos hu]

/-- The base without vertices. -/
theorem shape_empty : Shape {} :=
  ⟨by simp [kVerticesPerSegment], fun i hi => absurd hi (Nat.not_lt_zero i)⟩

/-- No edges and no counts anywhere: the state in which construction starts. -/
def Blank (segments : List Segment) : Prop :=
  ∀ i, (segments.getD i default).edges = [] ∧ ∀ k, (segments.getD i default).offsets.getD k 0 = 0

/-- What one turn of the growth loop guarantees. -/
structure Grown (csr csr' : SegmentedCsr) : Prop where
  shape : csr'.Shape
  edgeCount : csr'.edgeCount = csr.edgeCount
  row : ∀ u, csr'.row u = csr.row u
  blank : Blank csr.segments → Blank csr'.segments

/-- The segment the growth loop works on, opened if it does not exist yet. -/
theorem Shape.openSegment (h : csr.Shape) :
    let index := csr.vertexCount / kVerticesPerSegment
    let segments :=
      if index = csr.segments.length then
        csr.segments ++ [{ firstVertex := index * kVerticesPerSegment, offsets := [0] }]
      else csr.segments
    segments.length = index + 1 ∧
      (∀ i, i < csr.segments.length → segments.getD i default = csr.segments.getD i default) ∧
      SegmentShape (segments.getD index default) index csr.vertexCount ∧
      (Blank csr.segments → Blank segments) := by
  dsimp only
  have hlen := h.segments_length
  split
  · rename_i hindex
    refine ⟨by rw [List.length_append, List.length_singleton, hindex], fun i hi => ?_, ?_, ?_⟩
    · exact List.getD_append _ _ _ _ hi
    · rw [List.getD_append_right _ _ _ _ hindex.ge, hindex, Nat.sub_self]
      refine ⟨rfl, ?_, rfl, rfl⟩
      simp only [List.getD_cons_zero, kVerticesPerSegment] at hindex hlen ⊢
      omega
    · intro hblank i
      by_cases hi : i < csr.segments.length
      · rw [List.getD_append _ _ _ _ hi]
        exact hblank i
      · rw [List.getD_append_right _ _ _ _ (not_lt.mp hi)]
        cases i - csr.segments.length with
        | zero =>
          refine ⟨rfl, fun k => ?_⟩
          cases k <;> rfl
        | succ j => exact ⟨rfl, fun k => rfl⟩
  · rename_i hindex
    have hlt : csr.vertexCount / kVerticesPerSegment < csr.segments.length := by
      simp only [kVerticesPerSegment] at hindex hlen ⊢
      omega
    refine ⟨?_, fun _ _ => rfl, h.segment _ hlt, id⟩
    simp only [kVerticesPerSegment] at hindex hlen hlt ⊢
    omega

/-- The arithmetic of one turn: the segment in which the vertices end is extended to its target. -/
theorem grow_arith {n vertices first count target : ℕ} (index : ℕ) (hlt : n < vertices)
    (hindex : n / kVerticesPerSegment = index) (hfirst : first = index * kVerticesPerSegment)
    (hcount : count = min kVerticesPerSegment (n - index * kVerticesPerSegment))
    (htarget : min kVerticesPerSegment (vertices - first) = target) :
    count ≤ target ∧ target ≤ kVerticesPerSegment ∧ first + count = n ∧ n < first + target ∧
      first + target ≤ vertices ∧
      (first + target + kVerticesPerSegment - 1) / kVerticesPerSegment = index + 1 := by
  simp only [kVerticesPerSegment] at *
  omega

/-- A segment before the last one is full, however many vertices follow. -/
theorem full_segment {n i index : ℕ} (hi : i < index) (hle : index * kVerticesPerSegment ≤ n) :
    min kVerticesPerSegment (n - i * kVerticesPerSegment) = kVerticesPerSegment := by
  simp only [kVerticesPerSegment] at *
  omega

/-- A vertex id and its segment index. -/
theorem segment_index (u index : ℕ) : u / kVerticesPerSegment = index ↔
    index * kVerticesPerSegment ≤ u ∧ u < index * kVerticesPerSegment + kVerticesPerSegment := by
  simp only [kVerticesPerSegment]
  omega

/-- A vertex id and its local index. -/
theorem local_index (u : ℕ) : u % kVerticesPerSegment =
    u - u / kVerticesPerSegment * kVerticesPerSegment := by
  simp only [kVerticesPerSegment]
  omega

/-- A segment whose offset table is extended to a number of vertices. -/
def extendSegment (segment : Segment) (target : ℕ) : Segment :=
  { segment with
    offsets := resize segment.offsets (target + 1) segment.edges.length
    vertexCount := target }

section ExtendSegment

variable {segment : Segment} {index vertices target loc : ℕ}

/-- The offsets stay, and new ones are at the end of the edges. -/
theorem SegmentShape.getD_extendSegment (h : SegmentShape segment index vertices)
    (hmono : segment.vertexCount ≤ target) (hloc : loc ≤ target) :
    (extendSegment segment target).offsets.getD loc 0 =
      if loc ≤ segment.vertexCount then segment.offsets.getD loc 0 else segment.edges.length := by
  have hlength := h.offsets_length
  rw [extendSegment, getD_resize (by omega)]
  by_cases hle : loc ≤ segment.vertexCount
  · rw [if_pos (by omega), if_pos hle]
  · rw [if_neg (by omega), if_pos (by omega), if_neg hle]

/-- An extended segment has its proper shape. -/
theorem SegmentShape.extend (h : SegmentShape segment index vertices)
    (hmono : segment.vertexCount ≤ target) (hfull : target ≤ kVerticesPerSegment) :
    SegmentShape (extendSegment segment target) index (segment.firstVertex + target) := by
  refine ⟨h.first, ?_, by simp [extendSegment], ?_⟩
  · rw [h.first, Nat.add_sub_cancel_left, min_eq_right hfull]
    rfl
  · rw [show (extendSegment segment target).vertexCount = target from rfl,
      h.getD_extendSegment hmono le_rfl]
    split
    · rw [show target = segment.vertexCount by omega]
      exact h.last
    · rfl

/-- Its rows stay. -/
theorem SegmentShape.rowOf_extendSegment (h : SegmentShape segment index vertices)
    (hloc : loc < segment.vertexCount) (hmono : segment.vertexCount ≤ target) :
    rowOf (extendSegment segment target) loc = rowOf segment loc := by
  rw [rowOf, h.getD_extendSegment hmono (by omega), h.getD_extendSegment hmono (by omega),
    if_pos (by omega), if_pos (by omega)]
  rfl

/-- Its new rows are empty. -/
theorem SegmentShape.rowOf_extendSegment_of_le (h : SegmentShape segment index vertices)
    (hloc : segment.vertexCount ≤ loc) (hlt : loc < target) :
    rowOf (extendSegment segment target) loc = [] := by
  have hmono : segment.vertexCount ≤ target := by omega
  rw [rowOf, h.getD_extendSegment hmono (by omega), h.getD_extendSegment hmono (by omega),
    if_neg (by omega : ¬ loc + 1 ≤ _)]
  split
  · rw [show loc = segment.vertexCount by omega, h.last, Nat.sub_self, slice_zero]
  · rw [Nat.sub_self, slice_zero]

/-- A segment without edges and counts stays one. -/
theorem getD_extendSegment_of_blank (hedges : segment.edges = [])
    (hoffsets : ∀ k, segment.offsets.getD k 0 = 0) (hlength : segment.offsets.length ≤ target + 1)
    (k : ℕ) : (extendSegment segment target).offsets.getD k 0 = 0 := by
  rw [extendSegment, getD_resize hlength, hedges]
  split
  · exact hoffsets k
  · split <;> rfl

end ExtendSegment

/-- One turn of the growth loop: at least one more vertex, and no row changes. -/
theorem Shape.growSegment (h : csr.Shape) {vertices : ℕ} (hlt : csr.vertexCount < vertices) :
    Grown csr (csr.growSegment vertices) ∧
      csr.vertexCount < (csr.growSegment vertices).vertexCount ∧
      (csr.growSegment vertices).vertexCount ≤ vertices := by
  obtain ⟨hlength, hold, hopen, hblank⟩ := h.openSegment
  unfold SegmentedCsr.growSegment
  dsimp only at hlength hold hopen hblank ⊢
  generalize hindex : csr.vertexCount / kVerticesPerSegment = index at *
  generalize (if index = csr.segments.length then
    csr.segments ++ [{ firstVertex := index * kVerticesPerSegment, offsets := [0] }]
    else csr.segments) = segments at *
  generalize hsegment : segments.getD index default = segment at *
  generalize hcsr' : SegmentedCsr.mk _ _ _ = csr'
  generalize htarget :
    min kVerticesPerSegment (vertices - segment.firstVertex) = target at *
  have hsegments' : csr'.segments = segments.set index (extendSegment segment target) := by
    rw [← hcsr']
    rfl
  have hcount' : csr'.vertexCount = segment.firstVertex + target := by rw [← hcsr']
  have hlen' := hopen.offsets_length
  have hfirst := hopen.first
  obtain ⟨hmono, hfull, hold', hgrow, hwithin, hsegments⟩ :=
    grow_arith index hlt hindex hfirst hopen.count htarget
  clear htarget
  have hget : ∀ i, csr'.segments.getD i default =
      if i = index then extendSegment segment target else segments.getD i default := fun i => by
    rw [hsegments', getD_set (by omega)]
  have hbefore : ∀ i, i < index → i < csr.segments.length := fun i hi => by
    rw [h.segments_length]
    exact lt_of_lt_of_le hi (hindex ▸ Nat.div_le_div_right (by omega))
  clear hindex
  have hshape : csr'.Shape := by
    refine ⟨by rw [hsegments', List.length_set, hlength, hcount', hsegments], fun i hi => ?_⟩
    rw [hget, hcount']
    split
    · rename_i hi'
      rw [hi']
      exact hopen.extend hmono hfull
    · have hi' : i < index := by
        rw [hsegments', List.length_set, hlength] at hi
        omega
      rw [hold i (hbefore i hi')]
      obtain ⟨hifirst, hicount, hioffsets, hilast⟩ := h.segment i (hbefore i hi')
      refine ⟨hifirst, ?_, hioffsets, hilast⟩
      rw [hicount, full_segment hi' (by omega), full_segment hi' (by omega)]
  refine ⟨⟨hshape, by rw [← hcsr'], fun u => ?_, fun hall i => ?_⟩, hcount' ▸ hgrow,
    hcount' ▸ hwithin⟩
  · by_cases hu : u.val < csr'.vertexCount
    · rw [hshape.row_eq u hu, hget]
      split
      · rename_i hui
        have hlocal := local_index u.val
        have hle := ((segment_index u.val index).mp hui).1
        rw [hui] at hlocal
        by_cases hnew : u.val < csr.vertexCount
        · rw [hopen.rowOf_extendSegment (by omega) hmono, h.row_eq u hnew, hui, ← hold index
            (hui ▸ h.index_lt hnew), hsegment]
        · rw [hopen.rowOf_extendSegment_of_le (by omega) (by omega), row_of_le (not_lt.mp hnew)]
      · rename_i hui
        have hin : u.val < csr.vertexCount := by
          have hout := mt (segment_index u.val index).mpr hui
          omega
        rw [h.row_eq u hin, hold _ (h.index_lt hin)]
    · rw [row_of_le (not_lt.mp hu), row_of_le (by omega)]
  · rw [hget]
    split
    · obtain ⟨hedges, hoffsets⟩ := hblank hall index
      rw [hsegment] at hedges hoffsets
      exact ⟨hedges, getD_extendSegment_of_blank hedges hoffsets (by omega)⟩
    · exact hblank hall i

/-- Enough turns of the growth loop reach the requested vertex count. -/
theorem Shape.growLoop (h : csr.Shape) (vertices turns : ℕ)
    (hturns : vertices - csr.vertexCount ≤ turns) :
    Grown csr (SegmentedCsr.growLoop vertices turns csr) ∧
      (SegmentedCsr.growLoop vertices turns csr).vertexCount = max csr.vertexCount vertices := by
  induction turns generalizing csr with
  | zero => exact ⟨⟨h, rfl, fun _ => rfl, id⟩, by simp only [SegmentedCsr.growLoop]; omega⟩
  | succ turns ih =>
    simp only [SegmentedCsr.growLoop]
    split
    · obtain ⟨hgrown, hlow, hhigh⟩ := h.growSegment ‹_›
      obtain ⟨hrest, hcount⟩ := ih hgrown.shape (by omega)
      exact ⟨⟨hrest.shape, hrest.edgeCount.trans hgrown.edgeCount,
        fun u => (hrest.row u).trans (hgrown.row u), fun hblank => hrest.blank (hgrown.blank hblank)⟩,
        by omega⟩
    · exact ⟨⟨h, rfl, fun _ => rfl, id⟩, by omega⟩

/-- Growing the base adds empty rows only. -/
theorem Shape.resizeVertices (h : csr.Shape) (vertices : ℕ) :
    Grown csr (csr.resizeVertices vertices) ∧
      (csr.resizeVertices vertices).vertexCount = max csr.vertexCount vertices :=
  h.growLoop vertices _ le_rfl

/-- A cleared base has the requested vertices and blank segments. -/
theorem clear_spec (vertices : ℕ) :
    (clear vertices).Shape ∧ (clear vertices).vertexCount = vertices ∧
      Blank (clear vertices).segments := by
  obtain ⟨hgrown, hcount⟩ := shape_empty.resizeVertices vertices
  refine ⟨hgrown.shape, hcount.trans (Nat.zero_max _), hgrown.blank fun i => ⟨rfl, fun k => rfl⟩⟩

/-- The arcs of one segment, keyed by the local index of their source. -/
def localItems (arcs : List (VertexId × VertexId)) (index : ℕ) : List (ℕ × VertexId) :=
  (arcs.filter fun arc => decide (arc.1.val / kVerticesPerSegment = index)).map
    fun arc => (arc.1 - index * kVerticesPerSegment, arc.2)

/-- The targets of one source, in arc order. -/
def targets (arcs : List (VertexId × VertexId)) (u : VertexId) : List VertexId :=
  (arcs.filter fun arc => decide (arc.1 = u)).map Prod.snd

/-- A vertex's targets are the bucket of its local index in its segment. -/
theorem bucket_localItems (arcs : List (VertexId × VertexId)) (u : VertexId) :
    bucket (localItems arcs (u / kVerticesPerSegment)) (u % kVerticesPerSegment) =
      targets arcs u := by
  induction arcs with
  | nil => rfl
  | cons arc rest ih =>
    by_cases hindex : arc.1.val / kVerticesPerSegment = u.val / kVerticesPerSegment
    · by_cases harc : arc.1 = u
      · have hloc : u.val - u.val / kVerticesPerSegment * kVerticesPerSegment =
            u.val % kVerticesPerSegment := by
          simp only [kVerticesPerSegment]
          omega
        simp only [bucket, localItems, targets, List.filter_cons, harc, List.map_cons, hloc,
          decide_true, if_true] at ih ⊢
        rw [ih]
      · have hloc : arc.1.val - u.val / kVerticesPerSegment * kVerticesPerSegment ≠
            u.val % kVerticesPerSegment := by
          have hne := Fin.val_ne_of_ne harc
          simp only [kVerticesPerSegment] at *
          omega
        simp only [bucket, localItems, targets, List.filter_cons, harc, hindex, hloc, decide_true,
          decide_false, if_true, List.map_cons, Bool.false_eq_true, if_false] at ih ⊢
        exact ih
    · have harc : arc.1 ≠ u := fun heq => hindex (by rw [heq])
      simp only [bucket, localItems, targets, List.filter_cons, harc, hindex, decide_false,
        Bool.false_eq_true, if_false] at ih ⊢
      exact ih

/-- Segments of the right places whose offset tables hold the counts of their arcs. -/
structure Counted (segments : List Segment) (arcs : List (VertexId × VertexId)) (vertices : ℕ) :
    Prop where
  segments_length : segments.length = (vertices + kVerticesPerSegment - 1) / kVerticesPerSegment
  source_lt : ∀ arc ∈ arcs, arc.1.val < vertices
  first : ∀ i, i < segments.length →
    (segments.getD i default).firstVertex = i * kVerticesPerSegment
  count : ∀ i, i < segments.length → (segments.getD i default).vertexCount =
    min kVerticesPerSegment (vertices - i * kVerticesPerSegment)
  edges : ∀ i, i < segments.length → (segments.getD i default).edges = []
  histogram : ∀ i, i < segments.length → Histogram (localItems arcs i)
    (segments.getD i default).offsets (segments.getD i default).vertexCount

/-- Placing one arc in its segment, next to that segment's cursor table. -/
def placeLocal (current : Segment × List ℕ) (arc : VertexId × VertexId) : Segment × List ℕ :=
  let loc := arc.1 - current.1.firstVertex
  let cursor := current.2.getD loc 0
  ({ current.1 with edges := current.1.edges.set cursor arc.2 }, current.2.set loc (cursor + 1))

/-- Placing arcs in one segment is placing their local items. -/
theorem foldl_placeLocal (arcs : List (VertexId × VertexId)) (segment : Segment)
    (cursor : List ℕ) :
    arcs.foldl placeLocal (segment, cursor) =
      let placed := (arcs.map fun arc => (arc.1 - segment.firstVertex, arc.2)).foldl place
        (segment.edges, cursor)
      ({ segment with edges := placed.1 }, placed.2) := by
  induction arcs generalizing segment cursor with
  | nil => rfl
  | cons arc rest ih =>
    rw [List.foldl_cons, placeLocal, ih]
    rfl

/-- Distribution keeps the number of segments and works in each of them separately. -/
theorem getD_distribute {segments : List Segment} {arcs : List (VertexId × VertexId)} {i : ℕ}
    (hi : i < segments.length)
    (hfirst : (segments.getD i default).firstVertex = i * kVerticesPerSegment) :
    (distribute segments arcs).getD i default =
      { prefixOffsets (segments.getD i default) with
        edges := ((localItems arcs i).foldl place
          ((prefixOffsets (segments.getD i default)).edges,
            (prefixOffsets (segments.getD i default)).offsets)).1 } := by
  let index := fun arc : VertexId × VertexId => arc.1.val / kVerticesPerSegment
  let cursors := (segments.map prefixOffsets).map fun segment => (segment, segment.offsets)
  have hcursors : cursors.length = segments.length := by simp [cursors]
  have hfold : distribute segments arcs = (arcs.foldl (fun cells arc =>
      cells.set (index arc) (placeLocal (cells.getD (index arc) default) arc)) cursors).map
        Prod.fst := rfl
  have hcell := getD_foldl_set index placeLocal default cursors arcs i (by omega)
  have hlen : i < (arcs.foldl (fun cells arc =>
      cells.set (index arc) (placeLocal (cells.getD (index arc) default) arc)) cursors).length := by
    rw [length_foldl_set index (fun cells arc => placeLocal (cells.getD (index arc) default) arc)]
    omega
  have hstart : cursors.getD i default = (prefixOffsets (segments.getD i default),
      (prefixOffsets (segments.getD i default)).offsets) := by
    rw [List.getD_eq_getElem _ _ (by omega), List.getD_eq_getElem _ _ hi]
    simp [cursors]
  rw [List.getD_eq_getElem _ _ hlen, hstart, foldl_placeLocal] at hcell
  rw [hfold, List.getD_eq_getElem _ _ (by rw [List.length_map]; exact hlen), List.getElem_map, hcell]
  simp only [prefixOffsets, hfirst, localItems]
  rfl

/-- Distribution of counted segments: each source's row is its targets in arc order. -/
theorem Counted.distribute {segments : List Segment} {arcs : List (VertexId × VertexId)}
    {vertices : ℕ} (h : Counted segments arcs vertices) (edgeCount : ℕ) :
    Shape ⟨SegmentedCsr.distribute segments arcs, vertices, edgeCount⟩ ∧
      ∀ u : VertexId, u.val < vertices →
        row ⟨SegmentedCsr.distribute segments arcs, vertices, edgeCount⟩ u = targets arcs u := by
  have hlen : (SegmentedCsr.distribute segments arcs).length = segments.length := by
    unfold SegmentedCsr.distribute
    rw [List.length_map]
    exact (length_foldl_set (fun arc : VertexId × VertexId => arc.1.val / kVerticesPerSegment)
      (fun cells arc => placeLocal (cells.getD (arc.1.val / kVerticesPerSegment) default) arc)
      _ arcs).trans (by simp)
  have hsize : ∀ i, i < segments.length →
      (prefixOffsets (segments.getD i default)).edges.length =
        (runningSums 0 (segments.getD i default).offsets).getD
          (segments.getD i default).vertexCount 0 := fun i hi => by
    have hhist := (h.histogram i hi).length_eq
    generalize segments.getD i default = segment at hhist ⊢
    simp only [prefixOffsets, length_resize, List.getLastD_eq_getLast?, List.getD_eq_getElem?_getD,
      List.getLast?_eq_getElem?, length_runningSums, hhist, Nat.add_sub_cancel]
  have hshape : Shape ⟨SegmentedCsr.distribute segments arcs, vertices, edgeCount⟩ := by
    refine ⟨by rw [hlen, h.segments_length], fun i hi => ?_⟩
    have hi' : i < segments.length := hlen ▸ hi
    have hhist := h.histogram i hi'
    obtain ⟨hcells, -, -⟩ := place_spec ((hsize i hi').symm ▸ hhist.room) _ List.prefix_rfl
    rw [getD_distribute hi' (h.first i hi')]
    refine ⟨h.first i hi', h.count i hi', ?_, ?_⟩
    · simp only [prefixOffsets, length_runningSums]
      exact hhist.length_eq
    · exact (hsize i hi').symm.trans hcells.symm
  refine ⟨hshape, fun u hu => ?_⟩
  have hi : u.val / kVerticesPerSegment < segments.length := by
    rw [← hlen]
    exact hshape.index_lt hu
  have hk : u.val % kVerticesPerSegment <
      (segments.getD (u.val / kVerticesPerSegment) default).vertexCount := by
    rw [h.count _ hi]
    simp only [kVerticesPerSegment]
    omega
  rw [hshape.row_eq u hu, getD_distribute hi (h.first _ hi), ← bucket_localItems]
  exact (h.histogram _ hi).slice_eq_bucket (hsize _ hi) hk

end VeloGraphX.SegmentedCsr
