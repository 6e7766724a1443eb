import Mathlib
import VeloGraphX.Storage.SegmentedCsrRows

/-!
# Bulk construction and transposition

`build` yields exactly the distinct simple arcs between existing vertices, in ascending
rows; `buildTransposeFrom` exchanges the endpoints of every arc. Both hold across segment
boundaries, and the transpose for every vertex count that the ids can address.
-/

namespace VeloGraphX

open PointUpdate SortedList CountingSort

section Unique

variable {α : Type*} [DecidableEq α]

/-- Dropping repeated neighbours loses no element. -/
theorem mem_unique (a : α) (list : List α) : a ∈ unique list ↔ a ∈ list := by
  induction list using unique.induct with
  | case1 => rfl
  | case2 b => rfl
  | case3 b rest ih =>
    rw [unique, if_pos rfl, ih]
    simp
  | case4 b c rest hne ih =>
    rw [unique, if_neg hne, List.mem_cons, ih, List.mem_cons (l := c :: rest)]

/-- Dropping repeated neighbours of a sorted list leaves it strictly ascending. -/
theorem pairwise_unique {r : α → α → Prop} (hasymm : ∀ a b, r a b → r b a → a = b)
    (list : List α) (h : list.Pairwise r) :
    (unique list).Pairwise fun a b => r a b ∧ a ≠ b := by
  induction list using unique.induct with
  | case1 => exact List.Pairwise.nil
  | case2 b => exact List.pairwise_singleton _ _
  | case3 b rest ih =>
    rw [unique, if_pos rfl]
    exact ih (List.pairwise_cons.mp h).2
  | case4 b c rest hne ih =>
    obtain ⟨hb, hrest⟩ := List.pairwise_cons.mp h
    rw [unique, if_neg hne]
    refine List.pairwise_cons.mpr ⟨fun a ha => ?_, ih hrest⟩
    have ha' := (mem_unique a _).mp ha
    refine ⟨hb a ha', fun heq => ?_⟩
    subst heq
    rcases List.mem_cons.mp ha' with heq | hmem
    · exact hne heq
    · exact hne (hasymm b c (hb c List.mem_cons_self) ((List.pairwise_cons.mp hrest).1 b hmem))

end Unique

/-- Any two arcs are comparable. -/
instance : Std.Total arcLe := ⟨fun a b => by
  simp only [arcLe, Fin.lt_def, Fin.le_def, Fin.ext_iff]
  omega⟩

/-- The order of arcs is transitive. -/
instance : IsTrans (VertexId × VertexId) arcLe := ⟨fun a b c hab hbc => by
  simp only [arcLe, Fin.lt_def, Fin.le_def, Fin.ext_iff] at *
  omega⟩

/-- Sorted arcs ascend in the lexicographic order. -/
theorem pairwise_sortArcs (arcs : List (VertexId × VertexId)) :
    (sortArcs arcs).Pairwise arcLe := List.pairwise_insertionSort arcLe arcs

/-- Distinct sorted arcs ascend strictly. -/
theorem pairwise_unique_sortArcs (arcs : List (VertexId × VertexId)) :
    (unique (sortArcs arcs)).Pairwise fun a b => a.1 < b.1 ∨ a.1 = b.1 ∧ a.2 < b.2 := by
  have h := pairwise_unique (r := arcLe)
    (fun a b hab hba => by
      simp only [arcLe, Fin.lt_def, Fin.le_def, Fin.ext_iff] at hab hba
      exact Prod.ext (Fin.ext (by omega)) (Fin.ext (by omega)))
    (sortArcs arcs) (pairwise_sortArcs arcs)
  refine h.imp fun {a b} hab => ?_
  obtain ⟨hlt | ⟨heq, hle⟩, hne⟩ := hab
  · exact Or.inl hlt
  · exact Or.inr ⟨heq, lt_of_le_of_ne hle fun heq' => hne (Prod.ext heq heq')⟩

namespace SegmentedCsr

/-- A source's targets among ascending arcs ascend. -/
theorem ascending_targets {arcs : List (VertexId × VertexId)}
    (h : arcs.Pairwise fun a b => a.1 < b.1 ∨ a.1 = b.1 ∧ a.2 < b.2) (u : VertexId) :
    Ascending id (targets arcs u) := by
  refine List.pairwise_map.mpr ((h.filter _).imp_of_mem fun {a b} ha hb hab => ?_)
  have hau : a.1 = u := by simpa using (List.mem_filter.mp ha).2
  have hbu : b.1 = u := by simpa using (List.mem_filter.mp hb).2
  rcases hab with hlt | ⟨-, hlt⟩
  · exact absurd hlt (by rw [hau, hbu]; exact lt_irrefl u)
  · exact hlt

/-- The targets of a source are the arcs that leave it. -/
theorem mem_targets {arcs : List (VertexId × VertexId)} {u v : VertexId} :
    v ∈ targets arcs u ↔ (u, v) ∈ arcs := by
  simp [targets]

/-- Counting one arc in its own segment. -/
def countLocal (segment : Segment) (u : VertexId) : Segment :=
  let loc := u - segment.firstVertex
  { segment with offsets := segment.offsets.set (loc + 1) (segment.offsets.getD (loc + 1) 0 + 1) }

/-- Counting leaves everything but the counts and turns zeros into key counts. -/
theorem foldl_countLocal (arcs : List (VertexId × VertexId)) (segment : Segment) :
    ∃ counts, arcs.foldl (fun segment arc => countLocal segment arc.1) segment =
        { segment with offsets := counts } ∧
      counts.length = segment.offsets.length ∧
      ∀ k, k + 1 < segment.offsets.length → counts.getD (k + 1) 0 =
        segment.offsets.getD (k + 1) 0 +
          keyCount (arcs.map fun arc => (arc.1 - segment.firstVertex, arc.2)) k := by
  induction arcs generalizing segment with
  | nil => exact ⟨segment.offsets, rfl, rfl, fun k _ => by simp [keyCount]⟩
  | cons arc rest ih =>
    obtain ⟨counts, hfold, hlen, hcount⟩ := ih (countLocal segment arc.1)
    have hlen' : (countLocal segment arc.1).offsets.length = segment.offsets.length := by
      simp [countLocal]
    refine ⟨counts, by rw [List.foldl_cons, hfold]; rfl, hlen.trans hlen', fun k hk => ?_⟩
    rw [hcount k (by omega)]
    have hfirst : (countLocal segment arc.1).firstVertex = segment.firstVertex := rfl
    simp only [hfirst, List.map_cons, keyCount, List.countP_cons, decide_eq_true_eq]
    by_cases hkey : arc.1 - segment.firstVertex = k
    · subst hkey
      simp only [countLocal, if_true]
      rw [getD_set hk, if_pos rfl]
      omega
    · simp only [countLocal]
      rw [getD_set_ne (by omega), if_neg hkey]
      rfl

/-- Local items of one segment have keys below its vertex count. -/
theorem localItems_key_lt {arcs : List (VertexId × VertexId)} {vertices i : ℕ}
    (h : ∀ arc ∈ arcs, arc.1.val < vertices) :
    ∀ item ∈ localItems arcs i,
      item.1 < min kVerticesPerSegment (vertices - i * kVerticesPerSegment) := by
  intro item hitem
  obtain ⟨arc, harc, rfl⟩ := List.mem_map.mp hitem
  obtain ⟨hmem, hindex⟩ := List.mem_filter.mp harc
  have hlt := h arc hmem
  have hsegment : arc.1.val / kVerticesPerSegment = i := of_decide_eq_true hindex
  simp only [kVerticesPerSegment] at hsegment ⊢
  omega

/-- Every arc belongs to exactly one source. -/
theorem sum_length_targets (arcs : List (VertexId × VertexId)) :
    ∑ u, (targets arcs u).length = arcs.length := by
  induction arcs with
  | nil => simp [targets]
  | cons arc rest ih =>
    have hcons : ∀ u, (targets (arc :: rest) u).length =
        (targets rest u).length + if arc.1 = u then 1 else 0 := fun u => by
      by_cases hu : arc.1 = u <;> simp [targets, hu]
    simp only [hcons, Finset.sum_add_distrib, ih, Finset.sum_ite_eq, Finset.mem_univ, if_true,
      List.length_cons]

/-- A pass over blank segments that only fills their counts, with how often each source has an arc,
leaves counted segments. -/
theorem counted_of_counts {segments : List Segment} {arcs : List (VertexId × VertexId)}
    {vertices : ℕ} (h : ∀ arc ∈ arcs, arc.1.val < vertices)
    (hlen : segments.length = (clear vertices).segments.length)
    (hcounts : ∀ i, i < (clear vertices).segments.length → ∃ counts,
      segments.getD i default =
        { (clear vertices).segments.getD i default with offsets := counts } ∧
      counts.length = ((clear vertices).segments.getD i default).offsets.length ∧
      ∀ k, k < min kVerticesPerSegment (vertices - i * kVerticesPerSegment) →
        counts.getD (k + 1) 0 = keyCount (localItems arcs i) k) :
    Counted segments arcs vertices := by
  obtain ⟨hshape, hvertices, hblank⟩ := clear_spec vertices
  have hseg : ∀ i, i < segments.length →
      SegmentShape ((clear vertices).segments.getD i default) i vertices := fun i hi => by
    have hsegment := hshape.segment i (hlen ▸ hi)
    rwa [hvertices] at hsegment
  refine ⟨by rw [hlen, hshape.segments_length, hvertices], h, fun i hi => ?_, fun i hi => ?_,
    fun i hi => ?_, fun i hi => ?_⟩ <;> obtain ⟨counts, heq, hclen, hcount⟩ := hcounts i (hlen ▸ hi) <;>
    rw [heq]
  · exact (hseg i hi).first
  · exact (hseg i hi).count
  · exact (hblank i).1
  · refine ⟨hclen.trans (hseg i hi).offsets_length, ?_, fun k hk => hcount k ?_⟩
    · rw [(hseg i hi).count]
      exact localItems_key_lt h
    · rwa [(hseg i hi).count] at hk

/-- The counting pass over the arcs fills the segments' histograms. -/
theorem counted_countArc {arcs : List (VertexId × VertexId)} {vertices : ℕ}
    (h : ∀ arc ∈ arcs, arc.1.val < vertices) :
    Counted (arcs.foldl (fun segments arc => countArc segments arc.1) (clear vertices).segments)
      arcs vertices := by
  obtain ⟨hshape, hcount, hblank⟩ := clear_spec vertices
  have hcell := getD_foldl_set (fun arc : VertexId × VertexId => arc.1.val / kVerticesPerSegment)
    (fun segment arc => countLocal segment arc.1) default (clear vertices).segments arcs
  refine counted_of_counts h (length_foldl_set (fun arc : VertexId × VertexId =>
    arc.1.val / kVerticesPerSegment) (fun cells arc => countLocal (cells.getD
      (arc.1.val / kVerticesPerSegment) default) arc.1) _ arcs) fun i hi => ?_
  have hseg := hshape.segment i hi
  obtain ⟨counts, hfold, hclen, hccount⟩ := foldl_countLocal
    (arcs.filter fun arc => decide (arc.1.val / kVerticesPerSegment = i))
    ((clear vertices).segments.getD i default)
  refine ⟨counts, (hcell i hi).trans hfold, hclen, fun k hk => ?_⟩
  rw [hcount] at hseg
  rw [hseg.first] at hccount
  rw [hccount k (by rw [hseg.offsets_length, hseg.count]; omega), (hblank i).2, Nat.zero_add]
  rfl

/-- After the distribution the row of any vertex is its targets. -/
theorem Counted.rows {segments : List Segment} {arcs : List (VertexId × VertexId)}
    {vertices : ℕ} (h : Counted segments arcs vertices) (edgeCount : ℕ) :
    Shape ⟨SegmentedCsr.distribute segments arcs, vertices, edgeCount⟩ ∧
      ∀ u : VertexId,
        row ⟨SegmentedCsr.distribute segments arcs, vertices, edgeCount⟩ u = targets arcs u := by
  obtain ⟨hshape, hrow⟩ := h.distribute edgeCount
  refine ⟨hshape, fun u => ?_⟩
  by_cases hu : u.val < vertices
  · exact hrow u hu
  · rw [row_of_le (not_lt.mp hu)]
    refine (List.eq_nil_iff_forall_not_mem.mpr fun v hv => hu ?_).symm
    exact h.source_lt _ (mem_targets.mp hv)

/-- What a bulk-built base holds: ascending rows of exactly the arcs kept. -/
structure Holds (csr : SegmentedCsr) (vertices : ℕ) (arc : VertexId → VertexId → Prop) :
    Prop where
  shape : csr.Shape
  vertexCount : csr.vertexCount = vertices
  ascending : ∀ u, Ascending id (csr.row u)
  mem_row : ∀ u v, v ∈ csr.row u ↔ arc u v
  edgeCount : csr.edgeCount = ∑ u, (csr.row u).length

/-- Equivalent descriptions of the arcs are interchangeable. -/
theorem Holds.congr {csr : SegmentedCsr} {vertices : ℕ} {arc arc' : VertexId → VertexId → Prop}
    (h : Holds csr vertices arc) (hiff : ∀ u v, arc u v ↔ arc' u v) : Holds csr vertices arc' :=
  ⟨h.shape, h.vertexCount, h.ascending, fun u v => (h.mem_row u v).trans (hiff u v), h.edgeCount⟩

/-- `build` holds the distinct simple arcs between existing vertices and counts them. -/
theorem build_spec (vertices : ℕ) (arcs : List (VertexId × VertexId)) :
    Holds (build vertices arcs) vertices
      fun u v => (u, v) ∈ arcs ∧ u ≠ v ∧ u.val < vertices ∧ v.val < vertices := by
  have hkept : ∀ u v, (u, v) ∈ unique (sortArcs (arcs.filter (keepArc vertices))) ↔
      (u, v) ∈ arcs ∧ u ≠ v ∧ u.val < vertices ∧ v.val < vertices := fun u v => by
    rw [mem_unique, sortArcs, List.mem_insertionSort, List.mem_filter]
    simp [keepArc, and_assoc]
  have hsorted := pairwise_unique_sortArcs (arcs.filter (keepArc vertices))
  unfold build
  dsimp only
  generalize unique (sortArcs (arcs.filter (keepArc vertices))) = kept at hkept hsorted ⊢
  have hcounted := counted_countArc fun arc harc => ((hkept arc.1 arc.2).mp harc).2.2.1
  rw [(clear_spec vertices).2.1]
  obtain ⟨hshape, hrows⟩ := hcounted.rows kept.length
  refine ⟨hshape, rfl, fun u => ?_, fun u v => ?_, ?_⟩
  · rw [hrows]
    exact ascending_targets hsorted u
  · rw [hrows, mem_targets, hkept]
  · simp only [hrows]
    exact (sum_length_targets kept).symm

/-- The transposition stays within its arrays exactly when every vertex has an id. -/
theorem transposeInBounds_iff (source : SegmentedCsr) :
    source.transposeInBounds = true ↔ source.vertexCount ≤ 2 ^ 32 := by
  obtain ⟨hshape, hcount, -⟩ := clear_spec source.vertexCount
  have hoffsets : ∀ v, v < source.vertexCount →
      ((clear source.vertexCount).segments.getD (v / kVerticesPerSegment) default).firstVertex =
          v / kVerticesPerSegment * kVerticesPerSegment ∧
        ((clear source.vertexCount).segments.getD (v / kVerticesPerSegment)
            default).offsets.length =
          min kVerticesPerSegment
            (source.vertexCount - v / kVerticesPerSegment * kVerticesPerSegment) + 1 := by
    intro v hv
    have hsegment := hshape.segment _ (hshape.index_lt (hcount.symm ▸ hv))
    rw [hcount] at hsegment
    exact ⟨hsegment.first, by rw [hsegment.offsets_length, hsegment.count]⟩
  unfold transposeInBounds
  simp only [List.all_eq_true, List.mem_range, decide_eq_true_eq, hcount, Fin.val_ofNat]
  constructor
  · intro hbounds
    by_contra hmany
    -- the first vertex without an id is looked up in the first segment
    have hfirst := hbounds (2 ^ 32) (by omega)
    obtain ⟨hzero, hlength⟩ := hoffsets 0 (by omega)
    rw [Nat.mod_self, hzero, hlength] at hfirst
    simp only [kVerticesPerSegment] at hfirst
    omega
  · intro hids v hv
    obtain ⟨hfirst, hlength⟩ := hoffsets v hv
    rw [Nat.mod_eq_of_lt (by omega), hfirst, hlength]
    simp only [kVerticesPerSegment]
    omega

section Transpose

variable {source : SegmentedCsr}

/-- The order in which a base lists its arcs. -/
theorem pairwise_transposedArcs (hcount : source.vertexCount ≤ 2 ^ 32)
    (hrows : ∀ u, Ascending id (source.row u)) :
    (transposedArcs source).Pairwise fun a b => a.2 < b.2 ∨ a.2 = b.2 ∧ a.1 < b.1 := by
  refine List.pairwise_flatMap.mpr ⟨fun u _ => ?_, ?_⟩
  · exact List.pairwise_map.mpr ((hrows _).imp fun hab => Or.inr ⟨rfl, hab⟩)
  · refine List.pairwise_lt_range.imp_of_mem fun {u u'} hu hu' hlt x hx y hy => Or.inl ?_
    obtain ⟨_, -, rfl⟩ := List.mem_map.mp hx
    obtain ⟨_, -, rfl⟩ := List.mem_map.mp hy
    rw [List.mem_range] at hu hu'
    simp only [Fin.lt_def, Fin.ofNat]
    rw [Nat.mod_eq_of_lt (by omega), Nat.mod_eq_of_lt (by omega)]
    exact hlt

/-- Every arc is listed once, with its endpoints exchanged. -/
theorem mem_transposedArcs {u v : VertexId} :
    (v, u) ∈ transposedArcs source ↔ v ∈ source.row u := by
  simp only [transposedArcs, List.mem_flatMap, List.mem_range, List.mem_map, Prod.mk.injEq]
  refine ⟨fun ⟨_, _, _, hv, heq, hu⟩ => ?_, fun hv => ?_⟩
  · rw [← heq, ← hu]
    exact hv
  · have hu : u.val < source.vertexCount := by
      by_contra hle
      rw [row_of_le (not_lt.mp hle)] at hv
      exact absurd hv (List.not_mem_nil)
    have hcast : Fin.ofNat (2 ^ 32) u.val = u := Fin.ext (Nat.mod_eq_of_lt u.isLt)
    exact ⟨u, hu, v, hcast.symm ▸ hv, rfl, hcast⟩

/-- Transposition keeps the number of arcs. -/
theorem length_transposedArcs (hcount : source.vertexCount ≤ 2 ^ 32) :
    (transposedArcs source).length = ∑ u, (source.row u).length := by
  have hblocks := length_flatMap_range hcount (fun u => (source.row u).map fun v => (v, u))
    fun u hu => by rw [row_of_le hu, List.map_nil]
  simp only [List.length_map] at hblocks
  exact hblocks

/-- The in-degree of a vertex counts the listed arcs that enter it. -/
theorem getD_indegrees {v : ℕ} (hv : v < source.vertexCount) :
    (indegrees source).getD v 0 =
      (transposedArcs source).countP fun arc => decide (arc.1.val = v) := by
  have hfold := getD_foldl_set (fun arc : VertexId × VertexId => arc.1.val)
    (fun indegree _ => indegree + 1) 0 (List.replicate source.vertexCount 0)
    (transposedArcs source) v (by rw [List.length_replicate]; exact hv)
  refine hfold.trans ?_
  rw [List.countP_eq_length_filter, List.getD_eq_getElem _ _ (by rw [List.length_replicate]; exact hv),
    List.getElem_replicate]
  generalize (transposedArcs source).filter (fun arc => decide (arc.1.val = v)) = arcs
  have hcount : ∀ n, arcs.foldl (fun indegree _ => indegree + 1) n = n + arcs.length := by
    induction arcs with
    | nil => exact fun n => rfl
    | cons arc rest ih =>
      intro n
      rw [List.foldl_cons, ih, List.length_cons]
      omega
  rw [hcount, Nat.zero_add]

/-- The local items of a segment with a given key are the arcs of one source. -/
theorem keyCount_localItems (arcs : List (VertexId × VertexId)) (i k : ℕ)
    (hk : k < kVerticesPerSegment) :
    keyCount (localItems arcs i) k =
      arcs.countP fun arc => decide (arc.1.val = i * kVerticesPerSegment + k) := by
  have hsplit : ∀ u : ℕ, u - i * kVerticesPerSegment = k ∧ u / kVerticesPerSegment = i ↔
      u = i * kVerticesPerSegment + k := by
    intro u
    simp only [kVerticesPerSegment] at hk ⊢
    omega
  have hkeys : keyCount (localItems arcs i) k =
      (arcs.filter fun arc => decide (arc.1.val / kVerticesPerSegment = i)).countP fun arc =>
        decide (arc.1.val - i * kVerticesPerSegment = k) := List.countP_map
  rw [hkeys, List.countP_filter]
  refine List.countP_congr fun arc _ => ?_
  rw [Bool.and_eq_true, decide_eq_true_eq, decide_eq_true_eq, decide_eq_true_eq]
  exact hsplit arc.1.val

/-- Setting one in-degree in its own segment. -/
def setLocal (indegree : List ℕ) (segment : Segment) (v : ℕ) : Segment :=
  { segment with
    offsets := segment.offsets.set (v - segment.firstVertex + 1) (indegree.getD v 0) }

/-- Setting in-degrees leaves everything but the counts and fills the cells of the vertices set. -/
theorem foldl_setLocal (indegree : List ℕ) (vertices : List ℕ) (segment : Segment)
    (hfirst : ∀ v ∈ vertices, segment.firstVertex ≤ v) :
    ∃ counts, vertices.foldl (setLocal indegree) segment = { segment with offsets := counts } ∧
      counts.length = segment.offsets.length ∧
      ∀ k, k + 1 < segment.offsets.length → counts.getD (k + 1) 0 =
        if segment.firstVertex + k ∈ vertices then indegree.getD (segment.firstVertex + k) 0
        else segment.offsets.getD (k + 1) 0 := by
  induction vertices generalizing segment with
  | nil => exact ⟨segment.offsets, rfl, rfl, fun k _ => by simp⟩
  | cons v rest ih =>
    have hv := hfirst v List.mem_cons_self
    obtain ⟨counts, hfold, hlen, hcount⟩ := ih (setLocal indegree segment v)
      fun v hv => hfirst v (List.mem_cons_of_mem _ hv)
    have hlen' : (setLocal indegree segment v).offsets.length = segment.offsets.length := by
      simp [setLocal]
    refine ⟨counts, by rw [List.foldl_cons, hfold]; rfl, hlen.trans hlen', fun k hk => ?_⟩
    rw [hcount k (by omega)]
    have hfirst' : (setLocal indegree segment v).firstVertex = segment.firstVertex := rfl
    rw [hfirst']
    by_cases hmem : segment.firstVertex + k ∈ rest
    · rw [if_pos hmem, if_pos (List.mem_cons_of_mem _ hmem)]
    · rw [if_neg hmem]
      simp only [setLocal]
      by_cases hkey : v = segment.firstVertex + k
      · subst hkey
        rw [if_pos List.mem_cons_self, Nat.add_sub_cancel_left, getD_set hk, if_pos rfl]
      · rw [getD_set_ne (by omega), if_neg fun h => ?_]
        exact (List.mem_cons.mp h).elim (fun h => hkey h.symm) hmem

/-- The vertices of the loop that lie in a segment: the 32-bit counter can hold each of them. -/
theorem mem_segment_range {vertices : ℕ} (hcount : vertices ≤ 2 ^ 32) {i v : ℕ} :
    v ∈ (List.range vertices).filter (fun v =>
      decide ((Fin.ofNat (2 ^ 32) v).val / kVerticesPerSegment = i)) ↔
        v < vertices ∧ v / kVerticesPerSegment = i := by
  rw [List.mem_filter, List.mem_range, decide_eq_true_eq]
  refine and_congr_right fun hv => ?_
  rw [Fin.val_ofNat, Nat.mod_eq_of_lt (lt_of_lt_of_le hv hcount)]

/-- The in-degrees fill the segments' histograms. -/
theorem counted_setIndegree (hcount : source.vertexCount ≤ 2 ^ 32)
    (htarget : ∀ u, ∀ v ∈ source.row u, v.val < source.vertexCount) :
    Counted ((List.range source.vertexCount).foldl (setIndegree (indegrees source))
      (clear source.vertexCount).segments) (transposedArcs source) source.vertexCount := by
  obtain ⟨hshape, hvertices, -⟩ := clear_spec source.vertexCount
  have hsource : ∀ arc ∈ transposedArcs source, arc.1.val < source.vertexCount :=
    fun arc harc => htarget arc.2 arc.1 (mem_transposedArcs.mp harc)
  have hcell := getD_foldl_set (fun v : ℕ => (Fin.ofNat (2 ^ 32) v).val / kVerticesPerSegment)
    (setLocal (indegrees source)) default (clear source.vertexCount).segments
    (List.range source.vertexCount)
  refine counted_of_counts hsource (length_foldl_set (fun v : ℕ =>
    (Fin.ofNat (2 ^ 32) v).val / kVerticesPerSegment) (fun cells v => setLocal (indegrees source)
      (cells.getD ((Fin.ofNat (2 ^ 32) v).val / kVerticesPerSegment) default) v) _ _) fun i hi => ?_
  have hseg := hshape.segment i hi
  rw [hvertices] at hseg
  obtain ⟨counts, hfold, hclen, hccount⟩ := foldl_setLocal (indegrees source)
    ((List.range source.vertexCount).filter fun v =>
      decide ((Fin.ofNat (2 ^ 32) v).val / kVerticesPerSegment = i))
    ((clear source.vertexCount).segments.getD i default) fun v hv => by
      have hsegment := ((mem_segment_range hcount).mp hv).2
      rw [hseg.first]
      simp only [kVerticesPerSegment] at hsegment ⊢
      omega
  refine ⟨counts, (hcell i hi).trans hfold, hclen, fun k hk => ?_⟩
  have hlocal : i * kVerticesPerSegment + k < source.vertexCount ∧
      (i * kVerticesPerSegment + k) / kVerticesPerSegment = i := by
    simp only [kVerticesPerSegment] at hk ⊢
    omega
  rw [hccount k (by rw [hseg.offsets_length, hseg.count]; omega), hseg.first,
    if_pos ((mem_segment_range hcount).mpr hlocal), getD_indegrees (by omega),
    keyCount_localItems _ _ _ (by omega)]

/-- The transpose holds every arc of its source the other way round. -/
theorem buildTransposeFrom_spec {vertices : ℕ} {arc : VertexId → VertexId → Prop}
    (h : Holds source vertices arc) (hcount : vertices ≤ 2 ^ 32)
    (htarget : ∀ u v, arc u v → v.val < vertices) :
    Holds (buildTransposeFrom source) vertices fun v u => arc u v := by
  have hvertices := h.vertexCount
  subst hvertices
  have hcounted := counted_setIndegree hcount fun u v hv => htarget u v ((h.mem_row u v).mp hv)
  unfold buildTransposeFrom
  dsimp only
  rw [(clear_spec source.vertexCount).2.1]
  obtain ⟨hshape, htargets⟩ := hcounted.rows source.edgeCount
  refine ⟨hshape, rfl, fun v => ?_, fun v u => ?_, ?_⟩
  · rw [htargets]
    refine List.pairwise_map.mpr
      (((pairwise_transposedArcs hcount h.ascending).filter _).imp_of_mem fun {a b} ha hb hab => ?_)
    have hav : a.1 = v := by simpa using (List.mem_filter.mp ha).2
    have hbv : b.1 = v := by simpa using (List.mem_filter.mp hb).2
    rcases hab with hlt | ⟨-, hlt⟩
    · exact hlt
    · exact absurd hlt (by rw [hav, hbv]; exact lt_irrefl v)
  · rw [htargets, mem_targets, mem_transposedArcs, h.mem_row]
  · simp only [htargets, sum_length_targets, length_transposedArcs hcount]
    exact h.edgeCount

end Transpose

/-- Growing a base changes what it holds in no way but the number of vertices. -/
theorem Holds.resizeVertices {csr : SegmentedCsr} {vertices : ℕ} {arc : VertexId → VertexId → Prop}
    (h : Holds csr vertices arc) (n : ℕ) : Holds (csr.resizeVertices n) (max vertices n) arc := by
  obtain ⟨hgrown, hcount⟩ := h.shape.resizeVertices n
  refine ⟨hgrown.shape, hcount.trans (by rw [h.vertexCount]), fun u => ?_, fun u v => ?_, ?_⟩
  · rw [hgrown.row]
    exact h.ascending u
  · rw [hgrown.row]
    exact h.mem_row u v
  · rw [hgrown.edgeCount, h.edgeCount]
    exact Finset.sum_congr rfl fun u _ => by rw [hgrown.row]

/-- So do several growths. -/
theorem Holds.resizeAll {csr : SegmentedCsr} {vertices : ℕ} {arc : VertexId → VertexId → Prop}
    (h : Holds csr vertices arc) (sizes : List ℕ) :
    Holds (sizes.foldl SegmentedCsr.resizeVertices csr) (sizes.foldl max vertices) arc := by
  induction sizes generalizing csr vertices with
  | nil => exact h
  | cons n rest ih => exact ih (h.resizeVertices n)

/-- Two bases that hold the same arcs have the same rows. -/
theorem Holds.row_eq {csr csr' : SegmentedCsr} {vertices : ℕ} {arc : VertexId → VertexId → Prop}
    (h : Holds csr vertices arc) (h' : Holds csr' vertices arc) (u : VertexId) :
    csr.row u = csr'.row u :=
  eq_of_mem_iff (h.ascending u) (h'.ascending u) fun v =>
    (h.mem_row u v).trans (h'.mem_row u v).symm

/-- They have the same number of edges too. -/
theorem Holds.edgeCount_eq {csr csr' : SegmentedCsr} {vertices : ℕ}
    {arc : VertexId → VertexId → Prop} (h : Holds csr vertices arc)
    (h' : Holds csr' vertices arc) : csr.edgeCount = csr'.edgeCount := by
  rw [h.edgeCount, h'.edgeCount]
  exact Finset.sum_congr rfl fun u _ => by rw [h.row_eq h' u]

/-- A base that is built from a list of arcs and grown has the distinct simple arcs of the list
between the vertices it was built for, in ascending rows, which its edge count adds up; its transpose
has the same arcs the other way round, and the transpose of that is the base again. -/
theorem built_rows (vertices : ℕ) (hvertices : vertices ≤ 2 ^ 32)
    (arcs : List (VertexId × VertexId)) (sizes : List ℕ) (hsizes : ∀ n ∈ sizes, n ≤ 2 ^ 32) :
    let csr := sizes.foldl resizeVertices (build vertices arcs)
    let transpose := buildTransposeFrom csr
    let again := buildTransposeFrom transpose
    csr.vertexCount = sizes.foldl max vertices ∧
      (∀ u, (csr.row u).Pairwise (· < ·) ∧ ∀ v, v ∈ csr.row u ↔
        (u, v) ∈ arcs ∧ u ≠ v ∧ u.val < vertices ∧ v.val < vertices) ∧
      csr.edgeCount = ∑ u, (csr.row u).length ∧
      transpose.vertexCount = csr.vertexCount ∧
      (∀ v, (transpose.row v).Pairwise (· < ·) ∧ ∀ u, u ∈ transpose.row v ↔ v ∈ csr.row u) ∧
      transpose.edgeCount = ∑ v, (transpose.row v).length ∧
      again.vertexCount = csr.vertexCount ∧ again.edgeCount = csr.edgeCount ∧
      ∀ u, again.row u = csr.row u := by
  intro csr transpose again
  have hbounds : vertices ≤ sizes.foldl max vertices ∧ sizes.foldl max vertices ≤ 2 ^ 32 :=
    List.foldlRecOn (motive := fun count => vertices ≤ count ∧ count ≤ 2 ^ 32) sizes max
      ⟨le_rfl, hvertices⟩ fun count hcount n hn =>
        ⟨le_max_of_le_left hcount.1, max_le hcount.2 (hsizes n hn)⟩
  obtain ⟨hlow, hhigh⟩ := hbounds
  have hcsr := (build_spec vertices arcs).resizeAll sizes
  have htranspose := buildTransposeFrom_spec hcsr hhigh fun u v hv => hv.2.2.2.trans_le hlow
  have hagain := buildTransposeFrom_spec htranspose hhigh fun v u hv => hv.2.2.1.trans_le hlow
  exact ⟨hcsr.vertexCount, fun u => ⟨hcsr.ascending u, hcsr.mem_row u⟩, hcsr.edgeCount,
    htranspose.vertexCount.trans hcsr.vertexCount.symm,
    fun v => ⟨htranspose.ascending v, fun u =>
      (htranspose.mem_row v u).trans (hcsr.mem_row u v).symm⟩,
    htranspose.edgeCount, hagain.vertexCount.trans hcsr.vertexCount.symm,
    hagain.edgeCount_eq hcsr, hagain.row_eq hcsr⟩

/-- The case of three arcs, one of them a loop, and a later vertex. -/
theorem built_rows_three :
    let csr := [5].foldl resizeVertices (build 3 [(2, 0), (1, 1), (0, 2)])
    csr.vertexCount = 5 ∧ (2 ∈ csr.row 0) ∧ (buildTransposeFrom csr).vertexCount = 5 := by
  have h := built_rows 3 (by norm_num) [(2, 0), (1, 1), (0, 2)] [5] (by simp)
  dsimp only at h ⊢
  exact ⟨h.1, ((h.2.1 0).2 2).mpr (by decide), h.2.2.2.1.trans h.1⟩

end SegmentedCsr

end VeloGraphX
