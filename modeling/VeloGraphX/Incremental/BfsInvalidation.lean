import Mathlib
import VeloGraphX.Incremental.BfsRepair
import VeloGraphX.Lib.ListBounds

/-!
# Incremental breadth-first distances: invalidation

On the graph before a batch, a vertex is affected when each of its shortest parents is lost:
the connecting edge is deleted, or the parent is itself affected. The engine counts lost
parents and compares with the number of shortest parents; every lost parent is counted once.
A vertex that is not affected keeps a shortest path made of surviving arcs.
-/

namespace VeloGraphX

open FuelLoop PointUpdate ShortestPath GraphAccess

/-- The arc from `p` to `v` is the last one of a shortest path. -/
def Tight (arcs : ArcSet) (d : VertexId → ℕ) (p v : VertexId) : Prop :=
  (p, v) ∈ arcs ∧ d v ≠ unreachable ∧ d p + 1 = d v

/-- The shortest parents of a vertex. -/
def parents (arcs : ArcSet) (d : VertexId → ℕ) (v : VertexId) : Set VertexId :=
  {p | Tight arcs d p v}

/-- No vertex is its own shortest parent, so parents are counted without overflow. -/
theorem ncard_parents_lt (arcs : ArcSet) (d : VertexId → ℕ) (v : VertexId) :
    (parents arcs d v).ncard < 2 ^ 32 := by
  have hself : v ∉ parents arcs d v := fun h => absurd h.2.2 (Nat.succ_ne_self _)
  have hssubset : parents arcs d v ⊂ Set.univ :=
    Set.ssubset_univ_iff.mpr fun heq => hself (heq ▸ Set.mem_univ v)
  have hlt := Set.ncard_lt_ncard hssubset
  rwa [Set.ncard_univ, Nat.card_eq_fintype_card, Fintype.card_fin] at hlt

/-- `is_shortest_parent` on levelled distances. -/
theorem isShortestParent_iff {n : ℕ} {levels : Levels} (h : Leveled n levels) (u v : VertexId) :
    isShortestParent levels.dist u v = true ↔
      levels.labels v ≠ unreachable ∧ levels.labels u + 1 = levels.labels v := by
  have hlabel : ∀ x : VertexId, ¬ x.val < n → levels.labels x = unreachable := fun x hx =>
    label_of_le (h.length_eq.trans_le (not_lt.mp hx))
  have hle := h.le v
  unfold isShortestParent
  simp only [Bool.and_eq_true, decide_eq_true_eq, h.length_eq]
  constructor
  · rintro ⟨⟨⟨⟨hu, hv⟩, hfu⟩, hfv⟩, heq⟩
    rw [h.getD_eq hu] at hfu heq
    rw [h.getD_eq hv] at hfv heq
    rw [addU32_one (lt_of_le_of_ne (h.le u) hfu)] at heq
    exact ⟨hfv, heq⟩
  · rintro ⟨hfv, heq⟩
    have hv : v.val < n := by
      by_contra hout
      exact hfv (hlabel v hout)
    have hu : u.val < n := by
      by_contra hout
      have := hlabel u hout
      omega
    rw [h.getD_eq hu, h.getD_eq hv, addU32_one (by omega)]
    exact ⟨⟨⟨⟨hu, hv⟩, by omega⟩, hfv⟩, heq⟩

variable {G : Type} [GraphAccess G] {g : G} {arcs : ArcSet} {levels : Levels} {source : VertexId}

/-- The count that `shortest_parent_count` computes, over whatever the in-row holds. -/
def inRowCount (g : G) (dist : List ℕ) (v : VertexId) : ℕ :=
  (forEachInNeighbor g v).foldl
    (fun count p => if isShortestParent dist p v then addU32 count 1 else count) 0

/-- Where the in-rows are the transpose of the out-rows this is the number of shortest parents. -/
theorem count_parents (htransposes : Transposes g arcs) {n : ℕ} (h : Leveled n levels)
    (v : VertexId) : inRowCount g levels.dist v = (parents arcs levels.labels v).ncard := by
  have hset : parents arcs levels.labels v =
      (((forEachInNeighbor g v).filter fun p => isShortestParent levels.dist p v).toFinset :
        Set VertexId) := Set.ext fun p => by
    simp only [List.coe_toFinset, List.mem_filter, Set.mem_ofPred_eq, isShortestParent_iff h,
      htransposes.mem_inNeighbor]
    rfl
  have hcount : (forEachInNeighbor g v).countP (isShortestParent levels.dist · v) =
      (parents arcs levels.labels v).ncard := by
    rw [hset, Set.ncard_coe_finset, List.toFinset_card_of_nodup ((htransposes.nodup v).filter _),
      List.countP_eq_length_filter]
  have hlt := ncard_parents_lt arcs levels.labels v
  refine (ListBounds.foldl_count (isShortestParent levels.dist · v) _ ?_).trans ?_
  · rwa [hcount, Nat.zero_add]
  · rw [hcount, Nat.zero_add]

/-- What the invalidation keeps: `lost` is the set of lost arcs counted so far. -/
structure Losing (n : ℕ) (arcs : ArcSet) (d : VertexId → ℕ) (lost : ArcSet)
    (state : Invalidation) : Prop where
  affected_length : state.work.affected.length = n
  lost_length : state.work.lostParentCount.length = n
  counts_length : state.work.shortestParentCount.length = n
  tight : ∀ p v, (p, v) ∈ lost → Tight arcs d p v
  lost_eq : ∀ v, v ∉ state.affectedVertices →
    state.work.lostParentCount.getD v 0 = {p | (p, v) ∈ lost}.ncard
  some_left : ∀ v, v ∉ state.affectedVertices → {p | (p, v) ∈ lost}.Nonempty →
    {p | (p, v) ∈ lost}.ncard < (parents arcs d v).ncard
  all_lost : ∀ v ∈ state.affectedVertices, (parents arcs d v).Nonempty ∧
    ∀ p ∈ parents arcs d v, (p, v) ∈ lost
  flags : ∀ v : VertexId, state.work.affected.getD v 0 ≠ 0 ↔ v ∈ state.affectedVertices
  nodup : state.affectedVertices.Nodup
  invalidate_eq : state.invalidate = state.affectedVertices
  last_eq : state.lastAffectedVertices = state.affectedVertices.length
  counts : ∀ v : VertexId, state.work.shortestParentCount.getD v 0 = 0 ∨
    state.work.shortestParentCount.getD v 0 = (parents arcs d v).ncard
  touched : ∀ v : VertexId, state.work.lostParentCount.getD v 0 ≠ 0 ∨
    state.work.shortestParentCount.getD v 0 ≠ 0 → v ∈ state.work.touchedLossVertices

/-- The same for a count of the shortest parents that need not be right: a vertex is affected once
it has lost as many parents as the count says. -/
structure Counting (n : ℕ) (arcs : ArcSet) (d support : VertexId → ℕ) (lost : ArcSet)
    (state : Invalidation) : Prop where
  affected_length : state.work.affected.length = n
  lost_length : state.work.lostParentCount.length = n
  counts_length : state.work.shortestParentCount.length = n
  tight : ∀ p v, (p, v) ∈ lost → Tight arcs d p v
  lost_eq : ∀ v, v ∉ state.affectedVertices →
    state.work.lostParentCount.getD v 0 = {p | (p, v) ∈ lost}.ncard
  some_left : ∀ v, v ∉ state.affectedVertices → {p | (p, v) ∈ lost}.Nonempty →
    support v = 0 ∨ {p | (p, v) ∈ lost}.ncard < support v
  all_lost : ∀ v ∈ state.affectedVertices, {p | (p, v) ∈ lost}.Nonempty ∧ support v ≠ 0 ∧
    support v ≤ {p | (p, v) ∈ lost}.ncard
  flags : ∀ v : VertexId, state.work.affected.getD v 0 ≠ 0 ↔ v ∈ state.affectedVertices
  nodup : state.affectedVertices.Nodup
  invalidate_eq : state.invalidate = state.affectedVertices
  last_eq : state.lastAffectedVertices = state.affectedVertices.length
  counts : ∀ v : VertexId, state.work.shortestParentCount.getD v 0 = 0 ∨
    state.work.shortestParentCount.getD v 0 = support v
  touched : ∀ v : VertexId, state.work.lostParentCount.getD v 0 ≠ 0 ∨
    state.work.shortestParentCount.getD v 0 ≠ 0 → v ∈ state.work.touchedLossVertices

/-- With the right count a vertex is affected when all its parents are lost. -/
theorem Counting.losing {n : ℕ} {d support : VertexId → ℕ} {lost : ArcSet} {state : Invalidation}
    (h : Counting n arcs d support lost state)
    (hsupport : ∀ v, support v = (parents arcs d v).ncard) : Losing n arcs d lost state := by
  have hsubset : ∀ v, {p | (p, v) ∈ lost} ⊆ parents arcs d v := fun v p hp => h.tight p v hp
  refine ⟨h.affected_length, h.lost_length, h.counts_length, h.tight, h.lost_eq,
    fun v hv hsome => ?_, fun v hv => ?_, h.flags, h.nodup, h.invalidate_eq, h.last_eq,
    fun v => ?_, h.touched⟩
  · have hpositive := (Set.ncard_pos (Set.toFinite _)).mpr (hsome.mono (hsubset v))
    have hleft := h.some_left v hv hsome
    rw [hsupport] at hleft
    exact hleft.resolve_left hpositive.ne'
  · obtain ⟨hsome, -, hfull⟩ := h.all_lost v hv
    rw [hsupport] at hfull
    have hall := Set.eq_of_subset_of_ncard_le (hsubset v) hfull
    exact ⟨hsome.mono (hsubset v), fun p hp => hall.ge hp⟩
  · rw [← hsupport]
    exact h.counts v

/-- Every vertex with a marked cell is listed. -/
structure Marked (n : ℕ) (state : Invalidation) : Prop where
  affected_length : state.work.affected.length = n
  lost_length : state.work.lostParentCount.length = n
  counts_length : state.work.shortestParentCount.length = n
  affected : ∀ v : VertexId, state.work.affected.getD v 0 ≠ 0 → v ∈ state.affectedVertices
  touched : ∀ v : VertexId, state.work.lostParentCount.getD v 0 ≠ 0 ∨
    state.work.shortestParentCount.getD v 0 ≠ 0 → v ∈ state.work.touchedLossVertices

/-- What is lost or affected is listed. -/
theorem Losing.marked {n : ℕ} {d : VertexId → ℕ} {lost : ArcSet} {state : Invalidation}
    (h : Losing n arcs d lost state) : Marked n state :=
  ⟨h.affected_length, h.lost_length, h.counts_length, fun v => (h.flags v).mp, h.touched⟩

/-- The number of shortest parents, from the cache or counted. -/
theorem shortestParentCount_spec {n : ℕ} (h : Leveled n levels) {lost : ArcSet}
    {state : Invalidation}
    (hcounting : Counting n arcs levels.labels (inRowCount g levels.dist) lost state)
    {v : VertexId} (hv : v.val < n) (hsource : v ≠ source)
    (hfinite : levels.labels v ≠ unreachable) :
    (shortestParentCount g levels.dist source state.work.shortestParentCount v).1 =
        inRowCount g levels.dist v ∧
      (shortestParentCount g levels.dist source state.work.shortestParentCount v).2.length =
        state.work.shortestParentCount.length ∧
      ∀ x : VertexId,
        (shortestParentCount g levels.dist source state.work.shortestParentCount v).2.getD x 0 =
          if x = v then inRowCount g levels.dist v
          else state.work.shortestParentCount.getD x 0 := by
  have hskip : ¬ (decide (levels.dist.length ≤ v.val) || decide (v = source) ||
      decide (levels.dist.getD v 0 = unreachable)) = true := by
    rw [h.length_eq, h.getD_eq hv]
    simp only [Bool.or_eq_true, decide_eq_true_eq, not_or, not_le]
    exact ⟨⟨hv, hsource⟩, hfinite⟩
  unfold shortestParentCount
  rw [if_neg hskip]
  split
  · rename_i hcached
    have heq := (hcounting.counts v).resolve_left hcached
    refine ⟨heq, rfl, fun x => ?_⟩
    by_cases hx : x = v
    · rw [if_pos hx, hx]
      exact heq
    · rw [if_neg hx]
  · dsimp only
    refine ⟨rfl, List.length_set, fun x => ?_⟩
    rw [getD_set (hv.trans_eq hcounting.counts_length.symm)]
    simp only [Fin.ext_iff]
    rfl

section Record

variable {n : ℕ} {d support : VertexId → ℕ} {lost : ArcSet} {state : Invalidation} {p v : VertexId}

/-- Other vertices lose no parent. -/
theorem lostParents_insert_of_ne {x : VertexId} (hx : x ≠ v) :
    {q | (q, x) ∈ insert (p, v) lost} = {q | (q, x) ∈ lost} :=
  Set.ext fun q => by simp [hx]

/-- The vertex loses one more parent. -/
theorem ncard_lostParents_insert (hnew : (p, v) ∉ lost) :
    {q | (q, v) ∈ insert (p, v) lost}.ncard = {q | (q, v) ∈ lost}.ncard + 1 := by
  have hat : {q | (q, v) ∈ insert (p, v) lost} = insert p {q | (q, v) ∈ lost} :=
    Set.ext fun q => by simp
  rw [hat]
  exact Set.ncard_insert_of_notMem hnew

/-- Only arcs of shortest paths are lost. -/
theorem Counting.tight_insert (hcounting : Counting n arcs d support lost state)
    (htight : Tight arcs d p v) (q x : VertexId) (hmem : (q, x) ∈ insert (p, v) lost) :
    Tight arcs d q x := by
  rcases Set.mem_insert_iff.mp hmem with heq | hmem
  · obtain ⟨rfl, rfl⟩ := Prod.mk.inj heq
    exact htight
  · exact hcounting.tight q x hmem

/-- The lost parents are shortest parents. -/
theorem Counting.lostParents_subset (hcounting : Counting n arcs d support lost state)
    (htight : Tight arcs d p v) : {q | (q, v) ∈ insert (p, v) lost} ⊆ parents arcs d v :=
  fun q hq => hcounting.tight_insert htight q v hq

/-- The affected vertices have still lost as many parents as were counted. -/
theorem Counting.all_lost_insert (hcounting : Counting n arcs d support lost state) {x : VertexId}
    (hx : x ∈ state.affectedVertices) : {q | (q, x) ∈ insert (p, v) lost}.Nonempty ∧
      support x ≠ 0 ∧ support x ≤ {q | (q, x) ∈ insert (p, v) lost}.ncard := by
  have hsubset : {q | (q, x) ∈ lost} ⊆ {q | (q, x) ∈ insert (p, v) lost} :=
    fun q hq => Set.mem_insert_of_mem _ hq
  obtain ⟨hsome, hpositive, hfull⟩ := hcounting.all_lost x hx
  exact ⟨hsome.mono hsubset, hpositive, hfull.trans (Set.ncard_le_ncard hsubset)⟩

/-- The other vertices have still a parent left. -/
theorem Counting.some_left_insert (hcounting : Counting n arcs d support lost state) {x : VertexId}
    (hx : x ∉ state.affectedVertices) (hxv : x ≠ v)
    (hsome : {q | (q, x) ∈ insert (p, v) lost}.Nonempty) :
    support x = 0 ∨ {q | (q, x) ∈ insert (p, v) lost}.ncard < support x := by
  rw [lostParents_insert_of_ne hxv] at hsome ⊢
  exact hcounting.some_left x hx hsome

/-- An affected vertex loses no more. -/
theorem Counting.record_affected (hcounting : Counting n arcs d support lost state)
    (htight : Tight arcs d p v) (haffected : v ∈ state.affectedVertices) :
    Counting n arcs d support (insert (p, v) lost) state := by
  have hne : ∀ x, x ∉ state.affectedVertices → x ≠ v := by
    rintro x hx rfl
    exact hx haffected
  refine ⟨hcounting.affected_length, hcounting.lost_length, hcounting.counts_length,
    hcounting.tight_insert htight, fun x hx => ?_,
    fun x hx => hcounting.some_left_insert hx (hne x hx), fun x hx => hcounting.all_lost_insert hx,
    hcounting.flags, hcounting.nodup, hcounting.invalidate_eq, hcounting.last_eq, hcounting.counts,
    hcounting.touched⟩
  rw [lostParents_insert_of_ne (hne x hx)]
  exact hcounting.lost_eq x hx

/-- The counters of a workspace agree with the lost arcs. -/
structure Tallied (n : ℕ) (support : VertexId → ℕ) (lost : ArcSet)
    (affectedVertices : List VertexId) (work : Workspace) : Prop where
  lost_length : work.lostParentCount.length = n
  counts_length : work.shortestParentCount.length = n
  lost_eq : ∀ v, v ∉ affectedVertices →
    work.lostParentCount.getD v 0 = {p | (p, v) ∈ lost}.ncard
  counts : ∀ v : VertexId, work.shortestParentCount.getD v 0 = 0 ∨
    work.shortestParentCount.getD v 0 = support v
  touched : ∀ v : VertexId, work.lostParentCount.getD v 0 ≠ 0 ∨
    work.shortestParentCount.getD v 0 ≠ 0 → v ∈ work.touchedLossVertices

/-- Where a parent is left the vertex is not affected. -/
theorem Counting.record_some_left (hcounting : Counting n arcs d support lost state)
    (htight : Tight arcs d p v) {work : Workspace} (haffected : work.affected = state.work.affected)
    (htallied : Tallied n support (insert (p, v) lost) state.affectedVertices work)
    (hleft : support v = 0 ∨ {q | (q, v) ∈ insert (p, v) lost}.ncard < support v) :
    Counting n arcs d support (insert (p, v) lost) { state with work := work } := by
  refine ⟨(congrArg List.length haffected).trans hcounting.affected_length, htallied.lost_length,
    htallied.counts_length, hcounting.tight_insert htight, htallied.lost_eq, fun x hx hsome => ?_,
    fun x hx => hcounting.all_lost_insert hx, fun x => ?_, hcounting.nodup, hcounting.invalidate_eq,
    hcounting.last_eq, htallied.counts, htallied.touched⟩
  · by_cases hxv : x = v
    · rw [hxv]
      exact hleft
    · exact hcounting.some_left_insert hx hxv hsome
  · rw [haffected]
    exact hcounting.flags x

/-- Where no parent is left the vertex becomes affected. -/
theorem Counting.record_all_lost (hcounting : Counting n arcs d support lost state)
    (htight : Tight arcs d p v) (hv : v.val < n) (hnew : v ∉ state.affectedVertices)
    {work : Workspace}
    (haffected : work.affected = state.work.affected.set v 1)
    (htallied : Tallied n support (insert (p, v) lost) state.affectedVertices work)
    (hpositive : support v ≠ 0) (hfull : support v ≤ {q | (q, v) ∈ insert (p, v) lost}.ncard) :
    Counting n arcs d support (insert (p, v) lost)
      { work := work
        affectedVertices := state.affectedVertices ++ [v]
        invalidate := state.invalidate ++ [v]
        lastAffectedVertices := state.lastAffectedVertices + 1 } := by
  refine ⟨?_, htallied.lost_length, htallied.counts_length, hcounting.tight_insert htight,
    fun x hx => ?_, fun x hx => ?_, fun x hx => ?_, fun x => ?_, ?_, ?_, ?_, htallied.counts,
    htallied.touched⟩
  · rw [haffected, List.length_set]
    exact hcounting.affected_length
  · rw [List.mem_append, not_or] at hx
    exact htallied.lost_eq x hx.1
  · rw [List.mem_append, List.mem_singleton, not_or] at hx
    exact hcounting.some_left_insert hx.1 hx.2
  · rcases List.mem_append.mp hx with hx | hx
    · exact hcounting.all_lost_insert hx
    · rw [List.mem_singleton.mp hx]
      exact ⟨⟨p, Set.mem_insert _ _⟩, hpositive, hfull⟩
  · rw [haffected, getD_set (hv.trans_eq hcounting.affected_length.symm), List.mem_append,
      List.mem_singleton]
    by_cases hx : x = v
    · rw [if_pos (congrArg Fin.val hx)]
      exact iff_of_true one_ne_zero (Or.inr hx)
    · rw [if_neg fun heq => hx (Fin.ext heq), hcounting.flags x]
      exact ⟨Or.inl, fun hor => hor.resolve_right hx⟩
  · exact List.nodup_append'.mpr ⟨hcounting.nodup, List.nodup_singleton v, by simpa using hnew⟩
  · exact congrArg (· ++ [v]) hcounting.invalidate_eq
  · rw [List.length_append, hcounting.last_eq]
    rfl

/-- The counters after one more lost parent. -/
theorem Counting.tallied_insert (hcounting : Counting n arcs d support lost state) (hv : v.val < n)
    (affected : List ℕ) {counts : List ℕ}
    (hlength : counts.length = state.work.shortestParentCount.length)
    (hcounts : ∀ x : VertexId, counts.getD x 0 =
      if x = v then support v else state.work.shortestParentCount.getD x 0) :
    Tallied n support (insert (p, v) lost) state.affectedVertices
      ⟨affected, state.work.lostParentCount.set v {q | (q, v) ∈ insert (p, v) lost}.ncard, counts,
        if state.work.lostParentCount.getD v 0 = 0 then state.work.touchedLossVertices ++ [v]
        else state.work.touchedLossVertices⟩ := by
  have hcell : ∀ x : VertexId, (state.work.lostParentCount.set v
      {q | (q, v) ∈ insert (p, v) lost}.ncard).getD x 0 =
        if x = v then {q | (q, v) ∈ insert (p, v) lost}.ncard
        else state.work.lostParentCount.getD x 0 := fun x => by
    rw [getD_set (hv.trans_eq hcounting.lost_length.symm)]
    simp only [Fin.ext_iff]
  refine ⟨List.length_set.trans hcounting.lost_length, hlength.trans hcounting.counts_length,
    fun x hx => ?_, fun x => ?_, fun x hx => ?_⟩
  · rw [hcell x]
    by_cases hxv : x = v
    · rw [if_pos hxv, hxv]
    · rw [if_neg hxv, lostParents_insert_of_ne hxv]
      exact hcounting.lost_eq x hx
  · dsimp only
    rw [hcounts x]
    by_cases hxv : x = v
    · rw [if_pos hxv, hxv]
      exact Or.inr rfl
    · rw [if_neg hxv]
      exact hcounting.counts x
  · dsimp only at hx ⊢
    rw [hcell x, hcounts x] at hx
    by_cases hxv : x = v
    · by_cases hzero : state.work.lostParentCount.getD v 0 = 0
      · rw [if_pos hzero, hxv]
        exact List.mem_append_right _ (List.mem_singleton_self v)
      · rw [if_neg hzero, hxv]
        exact hcounting.touched v (Or.inl hzero)
    · rw [if_neg hxv, if_neg hxv] at hx
      split
      · exact List.mem_append_left _ (hcounting.touched x hx)
      · exact hcounting.touched x hx

end Record

/-- Counting one more lost parent. -/
theorem Counting.record {n : ℕ} (h : Leveled n levels)
    (hroot : ∀ p, ¬ Tight arcs levels.labels p source) {lost : ArcSet} {state : Invalidation}
    (hcounting : Counting n arcs levels.labels (inRowCount g levels.dist) lost state)
    {p v : VertexId}
    (htight : Tight arcs levels.labels p v) (hnew : (p, v) ∉ lost) :
    Counting n arcs levels.labels (inRowCount g levels.dist) (insert (p, v) lost)
        (recordParentLoss g levels.dist source state v) ∧
      state.invalidate <+: (recordParentLoss g levels.dist source state v).invalidate := by
  have hv : v.val < n := by
    by_contra hout
    exact htight.2.1 (label_of_le (h.length_eq.trans_le (not_lt.mp hout)))
  have hsource : v ≠ source := fun heq => hroot p (heq ▸ htight)
  unfold recordParentLoss
  dsimp only
  by_cases haffected : v ∈ state.affectedVertices
  · have hflag := (hcounting.flags v).mpr haffected
    rw [if_pos ((Bool.or_eq_true _ _).mpr (Or.inr (decide_eq_true hflag)))]
    exact ⟨hcounting.record_affected htight haffected, List.prefix_rfl⟩
  · have hskip : ¬ (decide (levels.dist.length ≤ v.val) || decide (v = source) ||
        decide (levels.dist.getD v 0 = unreachable) ||
        decide (state.work.affected.getD v 0 ≠ 0)) = true := by
      rw [h.length_eq, h.getD_eq hv]
      simp only [Bool.or_eq_true, decide_eq_true_eq, not_or, not_le]
      exact ⟨⟨⟨hv, hsource⟩, htight.2.1⟩, fun hflag => haffected ((hcounting.flags v).mp hflag)⟩
    have hcard := ncard_lostParents_insert hnew
    have hle := Set.ncard_le_ncard (hcounting.lostParents_subset htight)
    have hlt := ncard_parents_lt arcs levels.labels v
    have hadd : addU32 (state.work.lostParentCount.getD v 0) 1 =
        {q | (q, v) ∈ insert (p, v) lost}.ncard := by
      rw [hcounting.lost_eq v haffected, hcard]
      exact Nat.mod_eq_of_lt (by omega)
    obtain ⟨hsupport, hlength, hcounts⟩ :=
      shortestParentCount_spec h hcounting hv hsource htight.2.1
    rw [if_neg hskip, hadd, hsupport,
      getD_set (hv.trans_eq hcounting.lost_length.symm), if_pos rfl]
    split
    · rename_i hfull
      exact ⟨hcounting.record_all_lost htight hv haffected rfl
        (hcounting.tallied_insert hv _ hlength hcounts) hfull.1 hfull.2, List.prefix_append _ _⟩
    · rename_i hpartial
      have hleft : inRowCount g levels.dist v = 0 ∨
          {q | (q, v) ∈ insert (p, v) lost}.ncard < inRowCount g levels.dist v :=
        or_iff_not_imp_left.mpr fun hpositive => not_le.mp fun hge => hpartial ⟨hpositive, hge⟩
      exact ⟨hcounting.record_some_left htight rfl
        (hcounting.tallied_insert hv _ hlength hcounts) hleft, List.prefix_rfl⟩

/-- Counting the lost parents of a list of lost arcs. -/
theorem Counting.foldl {n : ℕ} (h : Leveled n levels)
    (hroot : ∀ p, ¬ Tight arcs levels.labels p source) {list : List (VertexId × VertexId)}
    (hnodup : list.Nodup) {lost : ArcSet} {state : Invalidation}
    (hlist : ∀ a ∈ list, Tight arcs levels.labels a.1 a.2 ∧ a ∉ lost)
    (hcounting : Counting n arcs levels.labels (inRowCount g levels.dist) lost state) :
    Counting n arcs levels.labels (inRowCount g levels.dist) (lost ∪ {a | a ∈ list})
      (list.foldl (fun state a => recordParentLoss g levels.dist source state a.2) state) := by
  induction list generalizing lost state with
  | nil =>
    have hnil : lost ∪ {a | a ∈ []} = lost := by simp
    rwa [hnil]
  | cons a rest ih =>
    obtain ⟨hhead, hrest⟩ := List.nodup_cons.mp hnodup
    obtain ⟨htight, hnew⟩ := hlist a List.mem_cons_self
    obtain ⟨hnext, -⟩ := hcounting.record h hroot htight hnew
    have hunion : lost ∪ {b | b ∈ a :: rest} = insert a lost ∪ {b | b ∈ rest} := by
      refine Set.ext fun b => ?_
      simp only [Set.mem_union, Set.mem_ofPred_eq, List.mem_cons, Set.mem_insert_iff]
      tauto
    rw [hunion]
    refine ih hrest (fun b hb => ⟨(hlist b (List.mem_cons_of_mem _ hb)).1, fun hmem => ?_⟩) hnext
    rcases Set.mem_insert_iff.mp hmem with rfl | hmem
    · exact hhead hb
    · exact (hlist b (List.mem_cons_of_mem _ hb)).2 hmem

/-- The shortest-path arcs among the deleted edges, in the order in which they are counted. -/
def lostArcs (directed : Bool) (dist : List ℕ) (existing : List (VertexId × VertexId)) :
    List (VertexId × VertexId) :=
  (existing.flatMap (offeredEdges directed)).filter fun a => isShortestParent dist a.1 a.2

/-- A self-loop is no shortest-path arc. -/
theorem isShortestParent_self {n : ℕ} (h : Leveled n levels) (u : VertexId) :
    isShortestParent levels.dist u u = false := by
  rw [Bool.eq_false_iff, ne_eq, isShortestParent_iff h]
  exact fun hand => Nat.succ_ne_self _ hand.2

/-- The shortest-path arcs of one deleted edge. -/
theorem filter_offeredEdges {n : ℕ} (h : Leveled n levels) (directed : Bool) (u v : VertexId) :
    (offeredEdges directed (u, v)).filter (fun a => isShortestParent levels.dist a.1 a.2) =
      (if isShortestParent levels.dist u v then [(u, v)] else []) ++
        if !directed && isShortestParent levels.dist v u then [(v, u)] else [] := by
  unfold offeredEdges
  dsimp only
  by_cases hloop : u = v
  · subst hloop
    rw [if_pos rfl, isShortestParent_self h, Bool.and_false]
    rfl
  · rw [if_neg hloop]
    cases directed <;> cases hforth : isShortestParent levels.dist u v <;>
      cases hback : isShortestParent levels.dist v u <;> simp [hforth, hback]

/-- The loop over the deleted edges counts the lost arcs one by one. -/
theorem foldl_recordDeletion {n : ℕ} (h : Leveled n levels)
    (existing : List (VertexId × VertexId)) (state : Invalidation) :
    existing.foldl (recordDeletion g levels.dist source) state =
      (lostArcs (isDirected g) levels.dist existing).foldl
        (fun state a => recordParentLoss g levels.dist source state a.2) state := by
  unfold lostArcs
  induction existing generalizing state with
  | nil => rfl
  | cons edge rest ih =>
    obtain ⟨u, v⟩ := edge
    rw [List.foldl_cons, ih, List.flatMap_cons, List.filter_append, List.foldl_append,
      filter_offeredEdges h, List.foldl_append]
    congr 1
    unfold recordDeletion
    dsimp only
    split <;> split <;> rfl

/-- The deletion candidates are the targets of the lost arcs. -/
theorem deletionCandidates_eq {n : ℕ} (h : Leveled n levels)
    (existing : List (VertexId × VertexId)) :
    deletionCandidates g levels.dist existing =
      (lostArcs (isDirected g) levels.dist existing).map Prod.snd := by
  unfold deletionCandidates lostArcs
  induction existing with
  | nil => rfl
  | cons edge rest ih =>
    obtain ⟨u, v⟩ := edge
    rw [List.flatMap_cons, List.flatMap_cons, List.filter_append, List.map_append, ih,
      filter_offeredEdges h, List.map_append]
    dsimp only
    congr 1
    cases isShortestParent levels.dist u v <;>
      cases !isDirected g && isShortestParent levels.dist v u <;> rfl

/-- What the deletions of a batch are, on the graph before it: the list names every arc of the
graph whose key is deleted, each once, and the key set answers for the keys. -/
structure Deleting (g : G) (arcs : ArcSet) (existing : List (VertexId × VertexId))
    (keys : ReusableKeySet) (deleted : Finset ℕ) : Prop where
  nodup : (existing.flatMap (offeredEdges (isDirected g))).Nodup
  mem_iff : ∀ a, a ∈ existing.flatMap (offeredEdges (isDirected g)) ↔
    a ∈ arcs ∧ bfsEdgeKey g a.1 a.2 ∈ deleted
  contains : ∀ key, Returns (fun fuel => keys.contains fuel key) (· = decide (key ∈ deleted))

/-- The arcs counted as lost when the first vertices of the queue have been expanded. -/
def lostBefore (g : G) (arcs : ArcSet) (d : VertexId → ℕ) (deleted : Finset ℕ)
    (expanded : List VertexId) : ArcSet :=
  {a | Tight arcs d a.1 a.2 ∧ (bfsEdgeKey g a.1 a.2 ∈ deleted ∨ a.1 ∈ expanded)}

variable {existing : List (VertexId × VertexId)} {keys : ReusableKeySet} {deleted : Finset ℕ}

/-- The lost arcs among the deleted edges. -/
theorem mem_lostArcs {n : ℕ} (h : Leveled n levels)
    (hdeleting : Deleting g arcs existing keys deleted)
    (a : VertexId × VertexId) : a ∈ lostArcs (isDirected g) levels.dist existing ↔
      a ∈ lostBefore g arcs levels.labels deleted [] := by
  unfold lostArcs lostBefore Tight
  simp only [List.mem_filter, hdeleting.mem_iff, isShortestParent_iff h, Set.mem_ofPred_eq,
    List.not_mem_nil, or_false]
  tauto

/-- A workspace without leftovers. -/
structure Clean (n : ℕ) (work : Workspace) : Prop where
  affected_length : work.affected.length = n
  lost_length : work.lostParentCount.length = n
  counts_length : work.shortestParentCount.length = n
  affected : ∀ v : VertexId, work.affected.getD v 0 = 0
  lostParentCount : ∀ v : VertexId, work.lostParentCount.getD v 0 = 0
  shortestParentCount : ∀ v : VertexId, work.shortestParentCount.getD v 0 = 0

/-- Before anything is counted nothing is lost. -/
theorem Clean.counting {n : ℕ} {work : Workspace} (hclean : Clean n work)
    (d support : VertexId → ℕ) : Counting n arcs d support ∅ { work := work } := by
  refine ⟨hclean.affected_length, hclean.lost_length, hclean.counts_length,
    fun p v hmem => absurd hmem (Set.notMem_empty _), fun v _ => ?_, fun v _ hsome => ?_,
    fun v hv => absurd hv List.not_mem_nil, fun v => ?_, List.nodup_nil, rfl, rfl,
    fun v => Or.inl (hclean.shortestParentCount v), fun v hv => ?_⟩
  · exact (hclean.lostParentCount v).trans (by simp)
  · obtain ⟨p, hp⟩ := hsome
    exact absurd hp (Set.notMem_empty _)
  · exact iff_of_false (not_not.mpr (hclean.affected v)) List.not_mem_nil
  · exact absurd hv (not_or.mpr ⟨not_not.mpr (hclean.lostParentCount v),
      not_not.mpr (hclean.shortestParentCount v)⟩)

/-- Before anything is counted no vertex has lost a parent. -/
theorem Clean.losing {n : ℕ} {work : Workspace} (hclean : Clean n work) (d : VertexId → ℕ) :
    Losing n arcs d ∅ { work := work } :=
  (hclean.counting d fun v => (parents arcs d v).ncard).losing fun _ => rfl

/-- The loop over the deleted edges counts the deleted shortest-path arcs. -/
theorem counting_existing {n : ℕ} (h : Leveled n levels)
    (hroot : ∀ p, ¬ Tight arcs levels.labels p source)
    (hdeleting : Deleting g arcs existing keys deleted) {work : Workspace} (hclean : Clean n work) :
    Counting n arcs levels.labels (inRowCount g levels.dist)
      (lostBefore g arcs levels.labels deleted [])
      (existing.foldl (recordDeletion g levels.dist source) { work := work }) := by
  have hfold := (hclean.counting levels.labels (inRowCount g levels.dist)).foldl h hroot
    (hdeleting.nodup.filter _)
    (fun a ha => ⟨((mem_lostArcs h hdeleting a).mp ha).1, Set.notMem_empty a⟩)
  rw [foldl_recordDeletion h]
  have hset : ∅ ∪ {a | a ∈ lostArcs (isDirected g) levels.dist existing} =
      lostBefore g arcs levels.labels deleted [] := by
    rw [Set.empty_union]
    exact Set.ext fun a => mem_lostArcs h hdeleting a
  exact hset ▸ hfold

/-- The shortest-path arcs out of a vertex, except those to the targets still to be looked at. -/
def expandedArcs (arcs : ArcSet) (d : VertexId → ℕ) (u : VertexId) (rest : List VertexId) :
    ArcSet :=
  {a | a.1 = u ∧ Tight arcs d a.1 a.2 ∧ a.2 ∉ rest}

/-- Looking at one more target. -/
theorem expandedArcs_cons {d : VertexId → ℕ} {u v : VertexId} {rest : List VertexId}
    (hv : v ∉ rest) : (Tight arcs d u v →
        expandedArcs arcs d u rest = insert (u, v) (expandedArcs arcs d u (v :: rest))) ∧
      (¬ Tight arcs d u v → expandedArcs arcs d u rest = expandedArcs arcs d u (v :: rest)) := by
  refine ⟨fun htight => Set.ext fun a => ?_, fun hnot => Set.ext fun a => ?_⟩ <;>
    obtain ⟨p, x⟩ := a <;> unfold expandedArcs <;>
    simp only [Set.mem_insert_iff, Set.mem_ofPred_eq, Prod.mk.injEq, List.mem_cons, not_or]
  · by_cases hx : x = v
    · subst hx
      refine ⟨fun hand => Or.inl ⟨hand.1, rfl⟩, fun hor => ?_⟩
      rcases hor with ⟨rfl, -⟩ | ⟨-, -, hne, -⟩
      · exact ⟨rfl, htight, hv⟩
      · exact absurd rfl hne
    · tauto
  · refine and_congr_right fun hp => and_congr_right fun htight => ?_
    subst hp
    exact ⟨fun hrest => ⟨fun hx => hnot (hx ▸ htight), hrest⟩, And.right⟩

/-- An arc that was counted with the deleted edges is not counted again. -/
theorem union_expandedArcs_of_deleted {d : VertexId → ℕ} {u v : VertexId}
    {expanded rest : List VertexId} (hv : v ∉ rest) (hdeleted : bfsEdgeKey g u v ∈ deleted) :
    lostBefore g arcs d deleted expanded ∪ expandedArcs arcs d u rest =
      lostBefore g arcs d deleted expanded ∪ expandedArcs arcs d u (v :: rest) := by
  obtain ⟨hinsert, hsame⟩ := @expandedArcs_cons arcs d u v rest hv
  by_cases htight : Tight arcs d u v
  · have hcounted : (u, v) ∈ lostBefore g arcs d deleted expanded ∪
        expandedArcs arcs d u (v :: rest) := Or.inl ⟨htight, Or.inl hdeleted⟩
    rw [hinsert htight, Set.union_insert, Set.insert_eq_of_mem hcounted]
  · rw [hsame htight]

/-- A vertex that is not reached loses no parent. -/
theorem recordParentLoss_of_unreached {n : ℕ} (h : Leveled n levels) {v : VertexId} (hv : v.val < n)
    (hlabel : levels.labels v = unreachable) (state : Invalidation) :
    recordParentLoss g levels.dist source state v = state := by
  unfold recordParentLoss
  dsimp only
  refine if_pos ((Bool.or_eq_true _ _).mpr (Or.inl ((Bool.or_eq_true _ _).mpr
    (Or.inr (decide_eq_true ?_)))))
  exact (h.getD_eq hv).trans hlabel

/-- Before the first target is looked at nothing is expanded. -/
theorem expandedArcs_start (hserves : Serves g arcs) (d : VertexId → ℕ) (u : VertexId) :
    expandedArcs arcs d u (forEachNeighbor g u) = ∅ := by
  refine Set.eq_empty_iff_forall_notMem.mpr fun a ha => ha.2.2 ?_
  exact (hserves.mem_neighbor _ _).mpr (ha.1 ▸ ha.2.1.1)

/-- When all targets have been looked at the vertex is expanded. -/
theorem lostBefore_append (d : VertexId → ℕ) (expanded : List VertexId) (u : VertexId) :
    lostBefore g arcs d deleted (expanded ++ [u]) =
      lostBefore g arcs d deleted expanded ∪ expandedArcs arcs d u [] := by
  refine Set.ext fun a => ?_
  unfold lostBefore expandedArcs
  simp only [Set.mem_union, Set.mem_ofPred_eq, List.mem_append, List.mem_singleton,
    List.not_mem_nil, not_false_iff, and_true]
  tauto

/-- The callback of the loop counts the arc it is given as lost, unless it was counted with the
deleted edges or is no shortest-path arc. -/
theorem invalidateArc_spec (hserves : Serves g arcs)
    (h : Leveled (vertexCount g) levels) (hroot : ∀ p, ¬ Tight arcs levels.labels p source)
    (hdeleting : Deleting g arcs existing keys deleted) {u v : VertexId} {expanded : List VertexId}
    (hu : u ∉ expanded) (hfinite : levels.labels u < unreachable) (hlt : u.val < vertexCount g)
    (hmem : v ∈ forEachNeighbor g u) {rest : List VertexId} (hv : v ∉ rest) {state : Invalidation}
    (hcounting : Counting (vertexCount g) arcs levels.labels (inRowCount g levels.dist)
      (lostBefore g arcs levels.labels deleted expanded ∪
        expandedArcs arcs levels.labels u (v :: rest)) state) :
    Returns (fun fuel => invalidateArc g levels.dist source keys u fuel state v) fun state' =>
      Counting (vertexCount g) arcs levels.labels (inRowCount g levels.dist)
        (lostBefore g arcs levels.labels deleted expanded ∪
          expandedArcs arcs levels.labels u rest) state' ∧
        state.invalidate <+: state'.invalidate := by
  have harc := (hserves.mem_neighbor u v).mp hmem
  have hwithin := (hserves.simple.within u v harc).2
  obtain ⟨hinsert, hsame⟩ := @expandedArcs_cons arcs levels.labels u v rest hv
  unfold invalidateArc
  by_cases hlevel : levels.labels v = levels.labels u + 1
  · have hgo : ¬ (decide (levels.dist.length ≤ v.val) ||
        decide (levels.dist.getD v 0 ≠ addU32 (levels.dist.getD u 0) 1)) = true := by
      rw [h.length_eq, h.getD_eq hwithin, h.getD_eq hlt, addU32_one hfinite, hlevel]
      simpa using hwithin
    simp only [if_neg hgo]
    refine Returns.map ((hdeleting.contains _).mono fun found hfound => ?_)
    subst hfound
    by_cases hdeleted : bfsEdgeKey g u v ∈ deleted
    · -- counted with the deleted edges
      rw [if_pos (decide_eq_true hdeleted)]
      rw [union_expandedArcs_of_deleted hv hdeleted]
      exact ⟨hcounting, List.prefix_rfl⟩
    · rw [if_neg (by simpa using hdeleted)]
      by_cases hreached : levels.labels v = unreachable
      · rw [recordParentLoss_of_unreached h hwithin hreached,
          hsame fun htight => htight.2.1 hreached]
        exact ⟨hcounting, List.prefix_rfl⟩
      · have htight : Tight arcs levels.labels u v := ⟨harc, hreached, hlevel.symm⟩
        have hnew : (u, v) ∉ lostBefore g arcs levels.labels deleted expanded ∪
            expandedArcs arcs levels.labels u (v :: rest) := by
          rintro (⟨-, hdel | hexp⟩ | ⟨-, -, hrest⟩)
          · exact hdeleted hdel
          · exact hu hexp
          · exact hrest List.mem_cons_self
        rw [hinsert htight, Set.union_insert]
        exact hcounting.record h hroot htight hnew
  · have hskip : (decide (levels.dist.length ≤ v.val) ||
        decide (levels.dist.getD v 0 ≠ addU32 (levels.dist.getD u 0) 1)) = true := by
      rw [h.length_eq, h.getD_eq hwithin, h.getD_eq hlt, addU32_one hfinite]
      simpa using Or.inr hlevel
    simp only [if_pos hskip]
    rw [hsame fun htight => hlevel htight.2.2.symm]
    exact Returns.pure ⟨hcounting, List.prefix_rfl⟩

/-- The end of a shortest path is a reached vertex of the graph, and not the source. -/
theorem Tight.valid {n : ℕ} (h : Leveled n levels)
    (hroot : ∀ p, ¬ Tight arcs levels.labels p source)
    {p v : VertexId} (htight : Tight arcs levels.labels p v) :
    v.val < n ∧ levels.labels v ≠ unreachable ∧ v ≠ source := by
  refine ⟨?_, htight.2.1, fun heq => hroot p (heq ▸ htight)⟩
  by_contra hout
  exact htight.2.1 (label_of_le (h.length_eq.trans_le (not_lt.mp hout)))

/-- No shortest path ends with an arc into the source. -/
theorem not_tight_source {d : VertexId → ℕ} (hzero : d source = 0) (p : VertexId) :
    ¬ Tight arcs d p source := by
  rintro ⟨-, -, hlevel⟩
  rw [hzero] at hlevel
  exact Nat.succ_ne_zero _ hlevel

/-- Affected vertices are reached vertices of the graph, and not the source. -/
theorem Counting.valid {n : ℕ} (h : Leveled n levels)
    (hroot : ∀ p, ¬ Tight arcs levels.labels p source) {support : VertexId → ℕ} {lost : ArcSet}
    {state : Invalidation} (hcounting : Counting n arcs levels.labels support lost state)
    {v : VertexId} (hv : v ∈ state.affectedVertices) :
    v.val < n ∧ levels.labels v ≠ unreachable ∧ v ≠ source := by
  obtain ⟨⟨p, hp⟩, -⟩ := hcounting.all_lost v hv
  exact (hcounting.tight p v hp).valid h hroot

/-- The same where the count is right. -/
theorem Losing.valid {n : ℕ} (h : Leveled n levels) (hsourceLevel : levels.labels source = 0)
    {lost : ArcSet} {state : Invalidation} (hlosing : Losing n arcs levels.labels lost state)
    {v : VertexId} (hv : v ∈ state.affectedVertices) :
    v.val < n ∧ levels.labels v ≠ unreachable ∧ v ≠ source := by
  obtain ⟨p, htight⟩ := (hlosing.all_lost v hv).1
  exact htight.valid h (not_tight_source hsourceLevel)

/-- There are no more affected vertices than vertices. -/
theorem Counting.length_le {n : ℕ} (h : Leveled n levels)
    (hroot : ∀ p, ¬ Tight arcs levels.labels p source) {support : VertexId → ℕ} {lost : ArcSet}
    {state : Invalidation} (hcounting : Counting n arcs levels.labels support lost state) :
    state.affectedVertices.length ≤ n := by
  have hcard := Finset.card_le_card_of_injOn (s := state.affectedVertices.toFinset)
    (t := Finset.range n) Fin.val
    (fun v hv => by simpa using (hcounting.valid h hroot (List.mem_toFinset.mp hv)).1)
    (fun u _ v _ heq => Fin.ext heq)
  rwa [List.toFinset_card_of_nodup hcounting.nodup, Finset.card_range] at hcard

/-- One turn of the loop expands the vertex at the head of the queue. -/
theorem invalidateTurn_spec (hserves : Serves g arcs)
    (h : Leveled (vertexCount g) levels) (hroot : ∀ p, ¬ Tight arcs levels.labels p source)
    (hdeleting : Deleting g arcs existing keys deleted) {state : Invalidation} {head : ℕ}
    (hcounting : Counting (vertexCount g) arcs levels.labels (inRowCount g levels.dist)
      (lostBefore g arcs levels.labels deleted (state.invalidate.take head)) state)
    (hgo : head < state.invalidate.length) :
    Returns (fun fuel => invalidateTurn g levels.dist source keys fuel (state, head)) fun after =>
      after.2 = head + 1 ∧ head + 1 ≤ after.1.invalidate.length ∧
        Counting (vertexCount g) arcs levels.labels (inRowCount g levels.dist)
          (lostBefore g arcs levels.labels deleted (after.1.invalidate.take after.2)) after.1 := by
  have hhead : state.invalidate.getD head 0 = state.invalidate[head] := List.getD_eq_getElem _ _ hgo
  have hmem : state.invalidate[head] ∈ state.affectedVertices := by
    rw [← hcounting.invalidate_eq]
    exact List.getElem_mem hgo
  obtain ⟨hlt, hfinite, -⟩ := hcounting.valid h hroot hmem
  have hnew : state.invalidate[head] ∉ state.invalidate.take head := by
    have hnodup := hcounting.invalidate_eq ▸ hcounting.nodup
    rw [List.mem_take_iff_getElem]
    rintro ⟨i, hi, heq⟩
    have := (List.Nodup.getElem_inj_iff hnodup).mp heq
    omega
  have hskip : ¬ (decide (levels.dist.length ≤ state.invalidate[head].val) ||
      decide (levels.dist.getD state.invalidate[head] 0 = unreachable)) = true := by
    rw [h.length_eq, h.getD_eq hlt]
    simpa using ⟨hlt, hfinite⟩
  unfold invalidateTurn
  dsimp only
  rw [hhead]
  simp only [if_neg hskip]
  refine Returns.map ((returns_foldRun (fun rest after =>
    (rest <:+ forEachNeighbor g state.invalidate[head]) ∧
    Counting (vertexCount g) arcs levels.labels (inRowCount g levels.dist)
      (lostBefore g arcs levels.labels deleted (state.invalidate.take head) ∪
        expandedArcs arcs levels.labels state.invalidate[head] rest) after ∧
      state.invalidate <+: after.invalidate) (fun v rest after hinv => ?_) _ _
    ⟨List.suffix_rfl, ?_, List.prefix_rfl⟩).mono fun after hafter => ?_)
  · obtain ⟨hsuffix, hbefore, hgrown⟩ := hinv
    have hnodup := (hserves.nodup state.invalidate[head]).sublist hsuffix.sublist
    refine (invalidateArc_spec hserves h hroot hdeleting hnew
      (lt_of_le_of_ne (h.le _) hfinite) hlt (hsuffix.subset List.mem_cons_self)
      (List.nodup_cons.mp hnodup).1 hbefore).mono fun next hnext => ?_
    exact ⟨(List.suffix_cons v rest).trans hsuffix, hnext.1, hgrown.trans hnext.2⟩
  · rw [expandedArcs_start hserves, Set.union_empty]
    exact hcounting
  · obtain ⟨-, hexpanded, hgrown⟩ := hafter
    have hlength := hgrown.length_le
    have hsame : after.invalidate.take (head + 1) =
        state.invalidate.take head ++ [state.invalidate[head]] := by
      obtain ⟨more, hmore⟩ := hgrown
      rw [← hmore, List.take_append_of_le_length hgo, List.take_append_getElem hgo]
    refine ⟨rfl, by dsimp only; omega, ?_⟩
    dsimp only
    rw [hsame, lostBefore_append]
    exact hexpanded

/-- `compute_affected_prebatch` ends. If it stays within the limit, the arcs counted as lost are
exactly the shortest-path arcs that are deleted or leave an affected vertex. -/
theorem computeAffected_counts (hserves : Serves g arcs) (h : Leveled (vertexCount g) levels)
    (hroot : ∀ p, ¬ Tight arcs levels.labels p source)
    (hdeleting : Deleting g arcs existing keys deleted) {work : Workspace}
    (hclean : Clean (vertexCount g) work) (limit : ℕ) :
    Returns (fun fuel => computeAffected g levels.dist source limit keys existing fuel work)
      fun result =>
        (∃ lost, Counting (vertexCount g) arcs levels.labels (inRowCount g levels.dist) lost
          result.1) ∧
        (result.2 = true → Counting (vertexCount g) arcs levels.labels (inRowCount g levels.dist)
          (lostBefore g arcs levels.labels deleted result.1.affectedVertices) result.1) := by
  have hstart := counting_existing h hroot hdeleting hclean
  unfold computeAffected
  dsimp only
  refine Returns.map ((returns_while
    (fun m (state : Invalidation × ℕ) => m + state.2 = vertexCount g ∧
      state.2 ≤ state.1.invalidate.length ∧
      Counting (vertexCount g) arcs levels.labels (inRowCount g levels.dist)
        (lostBefore g arcs levels.labels deleted (state.1.invalidate.take state.2)) state.1)
    (fun m state hinv hgo => ?_)
    (s := (existing.foldl (recordDeletion g levels.dist source) { work := work }, 0))
    ⟨Nat.add_zero _, Nat.zero_le _, hstart⟩).mono ?_)
  · obtain ⟨state, head⟩ := state
    obtain ⟨hm, -, hcounting⟩ := hinv
    have hlt : head < state.invalidate.length :=
      of_decide_eq_true (Bool.and_eq_true _ _ ▸ hgo).1
    have hle : state.invalidate.length ≤ vertexCount g :=
      (congrArg List.length hcounting.invalidate_eq).trans_le (hcounting.length_le h hroot)
    refine (invalidateTurn_spec hserves h hroot hdeleting hcounting hlt).mono
      fun after hafter => ?_
    obtain ⟨hnext, hlen, hcounting'⟩ := hafter
    have hm : m + head = vertexCount g := hm
    exact ⟨m - 1, by omega, by omega, hnext ▸ hlen, hcounting'⟩
  · rintro ⟨state, head⟩ ⟨⟨m, -, hle, hcounting⟩, hexit⟩
    refine ⟨⟨_, hcounting⟩, fun hwithin => ?_⟩
    have hend : head = state.invalidate.length := by
      have hlimit : state.lastAffectedVertices ≤ limit := of_decide_eq_true hwithin
      rw [Bool.and_eq_false_iff, decide_eq_false_iff_not, decide_eq_false_iff_not] at hexit
      dsimp only at hexit hle
      omega
    have hall := hcounting
    dsimp only at hall
    rwa [hend, List.take_length, hcounting.invalidate_eq] at hall

/-- Where the in-rows are the transpose of the out-rows the parents are counted right. -/
theorem computeAffected_spec (hserves : Serves g arcs) (htransposes : Transposes g arcs)
    (h : Leveled (vertexCount g) levels) (hsourceLevel : levels.labels source = 0)
    (hdeleting : Deleting g arcs existing keys deleted) {work : Workspace}
    (hclean : Clean (vertexCount g) work) (limit : ℕ) :
    Returns (fun fuel => computeAffected g levels.dist source limit keys existing fuel work)
      fun result =>
        (∃ lost, Losing (vertexCount g) arcs levels.labels lost result.1) ∧
        (result.2 = true → Losing (vertexCount g) arcs levels.labels
          (lostBefore g arcs levels.labels deleted result.1.affectedVertices) result.1) := by
  have hsupport := count_parents htransposes h
  refine (computeAffected_counts hserves h (not_tight_source hsourceLevel) hdeleting hclean
    limit).mono fun result hresult => ?_
  obtain ⟨⟨lost, hcounting⟩, hlocal⟩ := hresult
  exact ⟨⟨lost, hcounting.losing hsupport⟩, fun hwithin => (hlocal hwithin).losing hsupport⟩

end VeloGraphX
