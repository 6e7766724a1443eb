import Mathlib
import VeloGraphX.Incremental.BfsReached
import VeloGraphX.Incremental.BfsRuns

/-!
# Incremental breadth-first distances: the affected vertices

The vertices a batch pushes away from the source are those all of whose shortest parents are lost:
the arc from the parent is deleted, or the parent is pushed away itself. The engine learns the
number of shortest parents from the in-row and the lost ones from the out-rows, so what it lists
are these vertices exactly when the in-rows hold enough shortest parents, and no more than there
are.
-/

namespace VeloGraphX

open FuelLoop ShortestPath LastWrite ArcSet GraphAccess

/-- The arcs that a batch leaves: the last operation on them is no removal. -/
def leftArcs (directed : Bool) (arcs : ArcSet) (updates : List EdgeUpdate) : ArcSet :=
  {a | a ∈ arcs ∧ (requests directed updates a.1 a.2).getLast? ≠ some false}

/-- The vertices that are farther from the source, or cut off from it, when some arcs are left. -/
def farther (source : VertexId) (n : ℕ) (arcs left : ArcSet) : Set VertexId :=
  {v | v ≠ source ∧ ∃ c, IsLeast {c | Walk (startAt source n) (unitArc arcs) v c} c ∧
    ∀ c', Walk (startAt source n) (unitArc left) v c' → c < c'}

/-- The shortest parents of a vertex. -/
def shortestParents (arcs : ArcSet) (dist : List ℕ) (v : VertexId) : Set VertexId :=
  {p | (p, v) ∈ arcs ∧ isShortestParent dist p v = true}

/-- The shortest parents that are lost: the arc is deleted, or the parent is in the given set. -/
def lostParents (arcs left : ArcSet) (dist : List ℕ) (pushed : Set VertexId) (v : VertexId) :
    Set VertexId :=
  {p | p ∈ shortestParents arcs dist v ∧ ((p, v) ∉ left ∨ p ∈ pushed)}

/-- The number of shortest parents in the in-row of a vertex, on 32 bits. -/
def inRowParents {G : Type} [GraphAccess G] (g : G) (dist : List ℕ) (v : VertexId) : ℕ :=
  (forEachInNeighbor g v).countP (isShortestParent dist · v) % 2 ^ 32

/-- The in-rows hold the shortest parents as far as it matters: of a vertex that is pushed away at
least one and not more than there are, of any other vertex that loses some more than it loses,
or none. -/
structure ParentsCounted {G : Type} [GraphAccess G] (g : G) (arcs left : ArcSet) (dist : List ℕ)
    (pushed : Set VertexId) : Prop where
  of_pushed : ∀ v ∈ pushed, 0 < inRowParents g dist v ∧
    inRowParents g dist v ≤ (shortestParents arcs dist v).ncard
  of_kept : ∀ v, v ∉ pushed → (lostParents arcs left dist pushed v).Nonempty →
    inRowParents g dist v = 0 ∨
      (lostParents arcs left dist pushed v).ncard < inRowParents g dist v

/-- A vertex loses as many shortest parents as its in-row holds, and at least one. -/
def Outnumbered {G : Type} [GraphAccess G] (g : G) (arcs left : ArcSet) (dist : List ℕ)
    (pushed : Set VertexId) (v : VertexId) : Prop :=
  (lostParents arcs left dist pushed v).Nonempty ∧ inRowParents g dist v ≠ 0 ∧
    inRowParents g dist v ≤ (lostParents arcs left dist pushed v).ncard

section Left

variable {G : Type} [GraphAccess G] {g : G} {arcs : ArcSet}

/-- The last operation on an arc is a removal when its key is deleted. -/
theorem getLast?_requests_iff {u v : VertexId} (hne : u ≠ v) (updates : List EdgeUpdate) :
    (requests (isDirected g) updates u v).getLast? = some false ↔
      bfsEdgeKey g u v ∈ finalKeys g updates false := by
  have hlocates := @locates_finalEntry G _ g u v hne
  have hlast : (requests (isDirected g) updates u v).getLast? = some false ↔
      lastWrite (writeOn (isDirected g) u v) updates true = false := by
    unfold lastWrite requests
    cases (updates.filterMap (writeOn (isDirected g) u v)).getLast? <;> simp
  rw [hlast, mem_finalKeys]
  constructor
  · intro hfalse
    have hwritten : ∃ op ∈ updates, (writeOn (isDirected g) u v op).isSome := by
      rcases lastWrite_eq_or (writeOn (isDirected g) u v) updates true with
        ⟨-, hkeep⟩ | ⟨op, hop, hwrite⟩
      · exact absurd (hkeep.symm.trans hfalse) (by decide)
      · exact ⟨op, hop, by rw [hwrite]; rfl⟩
    obtain ⟨kept, hkept, hsome⟩ := hlocates.exists_kept hwritten
    have hend := hlocates.lastWrite_eq hkept (writeOn_eq_add hsome) true
    exact ⟨kept, hkept, hend.symm.trans hfalse, (isSome_writeOn_iff hne kept).mp hsome⟩
  · rintro ⟨op, hop, hremoves, hkey⟩
    have hwrite := writeOn_eq_add ((isSome_writeOn_iff hne op).mpr hkey)
    exact (hlocates.lastWrite_eq hop hwrite true).trans hremoves

/-- The arcs a batch leaves are those whose keys it does not delete. -/
theorem leftArcs_eq (hloopless : Loopless arcs) (updates : List EdgeUpdate) :
    leftArcs (isDirected g) arcs updates = survivors g arcs (finalKeys g updates false) := by
  refine Set.ext fun a => and_congr_right fun hmem => ?_
  obtain ⟨u, v⟩ := a
  have hne : u ≠ v := by
    rintro rfl
    exact hloopless u hmem
  exact not_congr (getLast?_requests_iff hne updates)

/-- The count over the in-row. -/
theorem inRowCount_eq (g : G) (dist : List ℕ) (v : VertexId) :
    inRowCount g dist v = inRowParents g dist v :=
  (ListBounds.foldl_count_mod _ _ (by norm_num)).trans (by rw [Nat.zero_add]; rfl)

/-- The shortest parents by label. -/
theorem shortestParents_eq {n : ℕ} {levels : Levels} (h : Leveled n levels) (v : VertexId) :
    shortestParents arcs levels.dist v = parents arcs levels.labels v :=
  Set.ext fun p => and_congr_right fun _ => isShortestParent_iff h p v

end Left

section Pushed

variable {arcs left : ArcSet} {levels : Levels} {source : VertexId} {n : ℕ}

/-- A source that is reached is a vertex, at distance zero. -/
theorem source_of_reached {d : VertexId → ℕ}
    (h : Exact (startAt source n) (unitArc arcs) unreachable d) (hfinite : d source < unreachable) :
    source ∈ startAt source n ∧ d source = 0 := by
  obtain ⟨start, hstart⟩ := (h.walk source hfinite).start_nonempty
  have hsource : source ∈ startAt source n := hstart.1 ▸ hstart
  exact ⟨hsource, Nat.le_zero.mp (h.le_walk source 0 (.nil hsource))⟩

/-- No shortest path ends with an arc into the source, whether it is a vertex or not. -/
theorem not_tight_root {d : VertexId → ℕ}
    (h : Exact (startAt source n) (unitArc arcs) unreachable d) (p : VertexId) :
    ¬ Tight arcs d p source := by
  intro htight
  have hfinite := lt_of_le_of_ne (h.le_cap source) htight.2.1
  exact not_tight_source (source_of_reached h hfinite).2 p htight

/-- A reached vertex is pushed away when no walk of its old length is left. -/
theorem mem_farther_iff {d : VertexId → ℕ}
    (h : Exact (startAt source n) (unitArc arcs) unreachable d) (hleft : left ⊆ arcs) {v : VertexId}
    (hfinite : d v < unreachable) :
    v ∈ farther source n arcs left ↔ ¬ Walk (startAt source n) (unitArc left) v (d v) := by
  have hmono : ∀ u w v, unitArc left u w v → unitArc arcs u w v := fun u w v harc =>
    ⟨harc.1, hleft harc.2⟩
  have hlonger := @Exact.lt_walk_iff _ _ _ _ _ _ h hmono v
  constructor
  · rintro ⟨-, c, hc, hwalks⟩
    rw [hc.unique (h.isLeast hfinite)] at hwalks
    exact hlonger.mp hwalks
  · intro hnone
    refine ⟨?_, d v, h.isLeast hfinite, hlonger.mpr hnone⟩
    rintro rfl
    obtain ⟨hstart, hzero⟩ := source_of_reached h hfinite
    rw [hzero] at hnone
    exact hnone (.nil hstart)

/-- With fewer than `2 ^ 32` vertices a vertex that is pushed away was reached. -/
theorem reached_of_farther {d : VertexId → ℕ}
    (h : Exact (startAt source n) (unitArc arcs) unreachable d) (hwithin : Within n arcs)
    (hcount : n < 2 ^ 32) {v : VertexId} (hv : v ∈ farther source n arcs left) :
    d v < unreachable := by
  obtain ⟨-, c, hc, -⟩ := hv
  have hlt := lt_count_of_walk hwithin h hc.1
  unfold unreachable
  omega

/-- A reached vertex is pushed away when it has lost all its shortest parents, and had some. -/
theorem mem_farther_iff_lost (hleveled : Leveled n levels)
    (h : Exact (startAt source n) (unitArc arcs) unreachable levels.labels) (hleft : left ⊆ arcs)
    {v : VertexId} (hfinite : levels.labels v < unreachable) :
    v ∈ farther source n arcs left ↔
      (lostParents arcs left levels.dist (farther source n arcs left) v).Nonempty ∧
        shortestParents arcs levels.dist v ⊆
          lostParents arcs left levels.dist (farther source n arcs left) v := by
  have hmono : ∀ u w v, unitArc left u w v → unitArc arcs u w v := fun u w v harc =>
    ⟨harc.1, hleft harc.2⟩
  have hlost : ∀ p, p ∈ lostParents arcs left levels.dist (farther source n arcs left) v ↔
      Tight arcs levels.labels p v ∧
        ((p, v) ∉ left ∨ ¬ Walk (startAt source n) (unitArc left) p (levels.labels p)) := by
    intro p
    unfold lostParents
    rw [shortestParents_eq hleveled]
    refine and_congr_right fun htight => or_congr_right (mem_farther_iff h hleft ?_)
    have hlevel := htight.2.2
    omega
  by_cases hstart : v ∈ startAt source n
  · have hzero : levels.labels v = 0 := Nat.le_zero.mp (h.le_walk v 0 (.nil hstart))
    refine iff_of_false (fun hfar => hfar.1 hstart.1) ?_
    rintro ⟨⟨p, hp⟩, -⟩
    exact not_tight_source hzero p ((hlost p).mp hp).1
  · rw [mem_farther_iff h hleft hfinite, h.walk_left_iff hmono hstart, shortestParents_eq hleveled]
    constructor
    · intro hnone
      have hall : parents arcs levels.labels v ⊆
          lostParents arcs left levels.dist (farther source n arcs left) v := by
        intro p htight
        refine (hlost p).mpr ⟨htight, ?_⟩
        by_contra hkept
        rw [not_or, not_not, not_not] at hkept
        exact hnone ⟨p, 1, ⟨rfl, hkept.1⟩, htight.2.2, hkept.2⟩
      obtain ⟨p, htight⟩ := exists_tight h hfinite hstart
      exact ⟨⟨p, hall htight⟩, hall⟩
    · rintro ⟨-, hall⟩ ⟨p, w, ⟨rfl, harc⟩, hlevel, hwalk⟩
      rcases ((hlost p).mp (hall ⟨hleft harc, hfinite.ne, hlevel⟩)).2 with hgone | hpushed
      · exact hgone harc
      · exact hpushed hwalk

/-- Lost parents depend on which shortest parents are pushed away. -/
theorem lostParents_congr {dist : List ℕ} {pushed pushed' : Set VertexId} {v : VertexId}
    (h : ∀ p ∈ shortestParents arcs dist v, p ∈ pushed ↔ p ∈ pushed') :
    lostParents arcs left dist pushed v = lostParents arcs left dist pushed' v :=
  Set.ext fun p => and_congr_right fun hp => or_congr_right (h p hp)

variable {G : Type} [GraphAccess G] {g : G}

/-- The in-rows hold the shortest parents when the vertices that are pushed away are those that lose
as many parents as their in-row holds. -/
theorem parentsCounted_iff (hleveled : Leveled n levels)
    (h : Exact (startAt source n) (unitArc arcs) unreachable levels.labels) (hleft : left ⊆ arcs) :
    ParentsCounted g arcs left levels.dist (farther source n arcs left) ↔
      ∀ v, v ∈ farther source n arcs left ↔
        Outnumbered g arcs left levels.dist (farther source n arcs left) v := by
  have hlost : ∀ v, lostParents arcs left levels.dist (farther source n arcs left) v ⊆
      shortestParents arcs levels.dist v := fun v p hp => hp.1
  constructor
  · intro hcounted v
    refine ⟨fun hv => ?_, fun hlosing => ?_⟩
    · obtain ⟨hpositive, hle⟩ := hcounted.of_pushed v hv
      -- a shortest parent shows that the vertex is reached
      have hreached : levels.labels v < unreachable := by
        obtain ⟨p, hp⟩ := (Set.ncard_pos (Set.toFinite _)).mp (hpositive.trans_le hle)
        rw [shortestParents_eq hleveled] at hp
        exact lt_of_le_of_ne (hleveled.le v) hp.2.1
      obtain ⟨hsome, hall⟩ := (mem_farther_iff_lost hleveled h hleft hreached).mp hv
      exact ⟨hsome, hpositive.ne', hle.trans (Set.ncard_le_ncard hall (Set.toFinite _))⟩
    · obtain ⟨hsome, hpositive, hle⟩ := hlosing
      by_contra hv
      rcases hcounted.of_kept v hv hsome with hzero | hlt
      · exact hpositive hzero
      · exact absurd hle (not_le.mpr hlt)
  · intro hpushed
    refine ⟨fun v hv => ?_, fun v hv hsome => ?_⟩
    · obtain ⟨-, hpositive, hle⟩ := (hpushed v).mp hv
      exact ⟨Nat.pos_of_ne_zero hpositive,
        hle.trans (Set.ncard_le_ncard (hlost v) (Set.toFinite _))⟩
    · by_contra hcount
      rw [not_or, not_lt] at hcount
      exact hv ((hpushed v).mpr ⟨hsome, hcount⟩)

/-- Which parents of a vertex are in the set decides whether it is, so by induction on the distance
there is only one such set. -/
theorem eq_of_outnumbered (hleveled : Leveled n levels) {pushed pushed' : Set VertexId}
    (h : ∀ v, v ∈ pushed ↔ Outnumbered g arcs left levels.dist pushed v)
    (h' : ∀ v, v ∈ pushed' ↔ Outnumbered g arcs left levels.dist pushed' v) : pushed = pushed' := by
  refine Set.ext fun v => ?_
  induction hlabel : levels.labels v using Nat.strong_induction_on generalizing v with
  | _ label ih =>
    have hparents : ∀ p ∈ shortestParents arcs levels.dist v, p ∈ pushed ↔ p ∈ pushed' := by
      intro p hp
      rw [shortestParents_eq hleveled] at hp
      have hlevel := hp.2.2
      exact ih (levels.labels p) (by omega) p rfl
    rw [h, h', Outnumbered, Outnumbered, lostParents_congr hparents]

/-- Where the in-rows are the transpose of the out-rows the shortest parents are counted right. -/
theorem parentsCounted_of_transposes (htransposes : Transposes g arcs) (hleveled : Leveled n levels)
    (h : Exact (startAt source n) (unitArc arcs) unreachable levels.labels) (hleft : left ⊆ arcs)
    (hreached : ∀ v ∈ farther source n arcs left, levels.labels v < unreachable) :
    ParentsCounted g arcs left levels.dist (farther source n arcs left) := by
  have hcount : ∀ v, inRowParents g levels.dist v = (shortestParents arcs levels.dist v).ncard := by
    intro v
    rw [← inRowCount_eq, count_parents htransposes hleveled, shortestParents_eq hleveled]
  refine ⟨fun v hv => ?_, fun v hv hsome => Or.inr ?_⟩
  · obtain ⟨⟨p, hp⟩, -⟩ := (mem_farther_iff_lost hleveled h hleft (hreached v hv)).mp hv
    rw [hcount]
    exact ⟨(Set.ncard_pos (Set.toFinite _)).mpr ⟨p, hp.1⟩, le_rfl⟩
  · obtain ⟨p, hp⟩ := id hsome
    have hfinite : levels.labels v < unreachable := by
      have htight := hp.1
      rw [shortestParents_eq hleveled] at htight
      exact lt_of_le_of_ne (hleveled.le v) htight.2.1
    rw [hcount]
    refine Set.ncard_lt_ncard (Set.ssubset_iff_subset_ne.mpr ⟨fun p hp => hp.1, fun heq => hv ?_⟩)
    exact (mem_farther_iff_lost hleveled h hleft hfinite).mpr ⟨hsome, heq.ge⟩

end Pushed

section Affected

variable {G : Type} [GraphAccess G] {g : G} {arcs : ArcSet} {levels : Levels} {source : VertexId}
  {n : ℕ} {deleted : Finset ℕ} {state : Invalidation}

/-- A vertex is listed when it has lost as many parents as the count says. -/
theorem Counting.mem_affected_iff {d support : VertexId → ℕ} {lost : ArcSet}
    (h : Counting n arcs d support lost state) (v : VertexId) : v ∈ state.affectedVertices ↔
      {p | (p, v) ∈ lost}.Nonempty ∧ support v ≠ 0 ∧ support v ≤ {p | (p, v) ∈ lost}.ncard := by
  refine ⟨h.all_lost v, fun hfull => ?_⟩
  by_contra hnot
  rcases h.some_left v hnot hfull.1 with hzero | hlt
  · exact hfull.2.1 hzero
  · exact absurd hfull.2.2 (not_le.mpr hlt)

/-- The parents counted as lost at the end are lost to deleted arcs or to listed vertices. -/
theorem lostBefore_eq (hleveled : Leveled n levels) (affected : List VertexId) (v : VertexId) :
    {p | (p, v) ∈ lostBefore g arcs levels.labels deleted affected} =
      lostParents arcs (survivors g arcs deleted) levels.dist {x | x ∈ affected} v := by
  refine Set.ext fun p => ?_
  unfold lostParents
  rw [shortestParents_eq hleveled]
  refine and_congr_right fun htight => or_congr_left ?_
  have hmem : (p, v) ∈ arcs := htight.1
  exact ⟨fun hdeleted hkept => hkept.2 hdeleted, fun hgone => not_not.mp fun hnot =>
    hgone ⟨hmem, hnot⟩⟩

/-- When the invalidation ends, a vertex is listed when it has lost as many parents as its in-row
holds. -/
theorem Counting.affected_iff_outnumbered (hleveled : Leveled n levels)
    (hcounting : Counting n arcs levels.labels (inRowCount g levels.dist)
      (lostBefore g arcs levels.labels deleted state.affectedVertices) state) (v : VertexId) :
    v ∈ {x | x ∈ state.affectedVertices} ↔ Outnumbered g arcs (survivors g arcs deleted) levels.dist
      {x | x ∈ state.affectedVertices} v := by
  unfold Outnumbered
  rw [← lostBefore_eq hleveled, ← inRowCount_eq]
  exact hcounting.mem_affected_iff v

/-- The listed vertices are those that are pushed away exactly when the in-rows hold the shortest
parents. -/
theorem affected_iff_parentsCounted (hleveled : Leveled n levels)
    (h : Exact (startAt source n) (unitArc arcs) unreachable levels.labels)
    (hcounting : Counting n arcs levels.labels (inRowCount g levels.dist)
      (lostBefore g arcs levels.labels deleted state.affectedVertices) state) :
    (∀ v, v ∈ state.affectedVertices ↔ v ∈ farther source n arcs (survivors g arcs deleted)) ↔
      ParentsCounted g arcs (survivors g arcs deleted) levels.dist
        (farther source n arcs (survivors g arcs deleted)) := by
  have hlisted := hcounting.affected_iff_outnumbered hleveled
  have hcounted := @parentsCounted_iff arcs (survivors g arcs deleted) levels source n G _ g hleveled
    h fun a ha => ha.1
  rw [hcounted]
  constructor
  · intro hsame
    have hset : {x | x ∈ state.affectedVertices} =
        farther source n arcs (survivors g arcs deleted) := Set.ext hsame
    exact hset ▸ hlisted
  · intro hpushed v
    exact Set.ext_iff.mp (eq_of_outnumbered hleveled hlisted hpushed) v

end Affected

section Fuel

/-- Probing with more fuel ends at the same slot. -/
theorem ReusableKeySet.steady_probe (set : ReusableKeySet) (key : ℕ) :
    Steady fun fuel => set.probe fuel key :=
  steady_while (fun slot => Steady.pure (some ((slot + 1) &&& set.mask))) _

/-- A key is found with more fuel too. -/
theorem ReusableKeySet.steady_contains (set : ReusableKeySet) (key : ℕ) :
    Steady fun fuel => set.contains fuel key := by
  unfold ReusableKeySet.contains
  split
  · exact Steady.pure _
  · exact (set.steady_probe key).map _

variable {G : Type} [GraphAccess G] (g : G)

/-- More fuel recomputes the same levels. -/
theorem steady_recomputeLevels (source : VertexId) :
    Steady fun fuel => recomputeLevels fuel g source := by
  unfold recomputeLevels
  dsimp only
  split
  · exact Steady.pure _
  · exact (steady_while (fun state => Steady.pure (some (visitTurn g state))) _).map _

/-- More fuel collects the same operations. -/
theorem steady_collectUpdate (state : FinalUpdates) (op : EdgeUpdate) :
    Steady fun fuel => collectUpdate g fuel state op := by
  refine ((state.seen.steady_probe _).map _).bind fun inserted => ?_
  dsimp only
  split
  · exact Steady.pure _
  · split
    · exact Steady.pure _
    · exact ((state.deletionKeys.steady_probe _).map _).map _

/-- More fuel lists the same affected vertices. -/
theorem steady_computeAffected (dist : List ℕ) (source : VertexId) (limit : ℕ)
    (keys : ReusableKeySet) (existing : List (VertexId × VertexId)) (work : Workspace) :
    Steady fun fuel => computeAffected g dist source limit keys existing fuel work := by
  refine (steady_while (fun state => ?_) _).map _
  unfold invalidateTurn
  dsimp only
  split
  · exact Steady.pure _
  · refine (steady_foldRun (fun state v => ?_) _ _).map _
    unfold invalidateArc
    split
    · exact Steady.pure _
    · exact (keys.steady_contains _).map _

/-- What is computed before the graph changes does not depend on the fuel. -/
theorem IncrementalBFS.steady_prebatch {D : Type} [DoubleArith D] (engine : IncrementalBFS G D)
    (batch : UpdateBatch) : Steady fun fuel => engine.prebatch fuel batch := by
  refine (steady_foldRun (fun state op => steady_collectUpdate _ state op) _ _).bind fun final => ?_
  unfold invalidated
  dsimp only
  split
  · exact Steady.pure _
  · exact steady_computeAffected _ _ _ _ _ _ _

end Fuel

namespace IncrementalBFS

variable {G D : Type} [GraphAccess G] {engine : IncrementalBFS G D} {arcs : ArcSet}

/-- The distances are the exact ones of the graph with the given arcs. -/
structure DistancesExact (engine : IncrementalBFS G D) (arcs : ArcSet) : Prop where
  length_eq : engine.levels.dist.length = vertexCount engine.graph
  least : ∀ v : VertexId, v.val < vertexCount engine.graph → ∀ c,
    IsLeast {c | Walk (startAt engine.source (vertexCount engine.graph)) (unitArc arcs) v c} c →
      engine.levels.dist.getD v 0 = c
  unreached : ∀ v : VertexId, v.val < vertexCount engine.graph →
    (∀ c, ¬ Walk (startAt engine.source (vertexCount engine.graph)) (unitArc arcs) v c) →
      engine.levels.dist.getD v 0 = unreachable

/-- Ids suffice for the length of every shortest path. -/
theorem le_unreachable_of_isLeast {start : Set VertexId} {v : VertexId} {c : ℕ}
    (hc : IsLeast {c | Walk start (unitArc arcs) v c} c) : c ≤ unreachable := by
  have hlt := lt_card_of_isLeast (fun u w v harc => harc.1)
    (S := Finset.univ) (fun v c _ => Finset.mem_univ v) hc
  rw [Finset.card_univ, Fintype.card_fin] at hlt
  unfold unreachable
  omega

/-- A label is the least walk length, or stands for having no walk. -/
theorem DistancesExact.label_eq (h : DistancesExact engine arcs)
    (hwithin : Within (vertexCount engine.graph) arcs) (v : VertexId) :
    IsLeast {c | Walk (startAt engine.source (vertexCount engine.graph)) (unitArc arcs) v c}
        (engine.levels.labels v) ∨
      (∀ c, ¬ Walk (startAt engine.source (vertexCount engine.graph)) (unitArc arcs) v c) ∧
        engine.levels.labels v = unreachable := by
  by_cases hv : v.val < vertexCount engine.graph
  · have hlabel : engine.levels.labels v = engine.levels.dist.getD v 0 :=
      label_eq_getD unreachable (hv.trans_eq h.length_eq.symm) 0
    by_cases hwalk : ∃ c, Walk (startAt engine.source (vertexCount engine.graph)) (unitArc arcs) v c
    · obtain ⟨c, hc⟩ := hwalk
      obtain ⟨least, hleast⟩ := exists_isLeast hc
      rw [hlabel, h.least v hv least hleast]
      exact Or.inl hleast
    · have hnone := fun c hc => hwalk ⟨c, hc⟩
      exact Or.inr ⟨hnone, hlabel.trans (h.unreached v hv hnone)⟩
  · refine Or.inr ⟨fun c hc => hv ?_, label_of_le (h.length_eq.trans_le (not_lt.mp hv))⟩
    exact walk_within (fun u w v harc => (hwithin u v harc.2).2) hc

/-- Exact distances are exact labels. -/
theorem DistancesExact.exact (h : DistancesExact engine arcs)
    (hwithin : Within (vertexCount engine.graph) arcs) :
    Exact (startAt engine.source (vertexCount engine.graph)) (unitArc arcs) unreachable
      engine.levels.labels := by
  refine ⟨fun v => ?_, fun v c hc => ?_, fun v hv => ?_⟩
  · rcases h.label_eq hwithin v with hleast | ⟨-, hcap⟩
    · exact le_unreachable_of_isLeast hleast
    · exact hcap.le
  · rcases h.label_eq hwithin v with hleast | ⟨hnone, -⟩
    · exact hleast.2 hc
    · exact absurd hc (hnone c)
  · rcases h.label_eq hwithin v with hleast | ⟨-, hcap⟩
    · exact hleast.1
    · exact absurd hcap hv.ne

/-- Exact distances are levels, with the count that belongs to them. -/
theorem DistancesExact.leveled (h : DistancesExact engine arcs)
    (hwithin : Within (vertexCount engine.graph) arcs) :
    ∃ levels : Levels, levels.dist = engine.levels.dist ∧
      Leveled (vertexCount engine.graph) levels ∧
        Exact (startAt engine.source (vertexCount engine.graph)) (unitArc arcs) unreachable
          levels.labels :=
  ⟨⟨engine.levels.dist, {x | engine.levels.labels x ≠ unreachable}.ncard⟩, rfl,
    ⟨h.length_eq, (h.exact hwithin).le_cap, rfl⟩, h.exact hwithin⟩

/-- The search for affected vertices ends. If it stays within the limit, the parents it has
counted as lost are those lost to deleted arcs or to the vertices it lists. -/
theorem Idle.invalidated_counts [DoubleArith D] (h : Idle engine) (hserves : Serves engine.graph arcs)
    {levels : Levels} (hdist : levels.dist = engine.levels.dist)
    (hleveled : Leveled (vertexCount engine.graph) levels)
    (hroot : ∀ p, ¬ Tight arcs levels.labels p engine.source) {bound : ℕ}
    {updates : List EdgeUpdate} {final : FinalUpdates}
    (hfinal : Collected engine.graph bound updates final) :
    Returns (fun fuel => engine.invalidated fuel final) fun result => result.2 = true →
      Counting (vertexCount engine.graph) arcs levels.labels (inRowCount engine.graph levels.dist)
        (lostBefore engine.graph arcs levels.labels (finalKeys engine.graph updates false)
          result.1.affectedVertices) result.1 := by
  have hdeleting := hfinal.deleting hserves
  unfold invalidated candidates
  rw [← hdist]
  dsimp only
  split
  · rename_i hnone
    refine Returns.pure fun _ => ?_
    dsimp only
    rw [lostBefore_of_no_candidates hleveled hdeleting (isEmpty_destutter.mp hnone)]
    exact h.prepared.counting _ _
  · exact (computeAffected_counts hserves hleveled hroot hdeleting h.prepared _).mono
      fun result hresult => hresult.2

/-- Exact labels are exact distances. -/
theorem distancesExact_of_exact (hleveled : Leveled (vertexCount engine.graph) engine.levels)
    (h : Exact (startAt engine.source (vertexCount engine.graph)) (unitArc arcs) unreachable
      engine.levels.labels) : DistancesExact engine arcs := by
  refine ⟨hleveled.length_eq, fun v hv c hc => ?_, fun v hv hnone => ?_⟩
  · rw [hleveled.getD_eq hv, h.eq_min hc]
    exact min_eq_left (le_unreachable_of_isLeast hc)
  · rw [hleveled.getD_eq hv]
    exact h.eq_cap hnone

/-- A new engine is in a reached state with exact distances. -/
theorem distancesExact_create {g : G} (hserves : Serves g arcs) (hcount : vertexCount g < unreachable)
    {source : VertexId} {fraction : D} {fuel : ℕ}
    (hrun : create fuel g source fraction = some engine) :
    engine.graph = g ∧ engine.source = source ∧ DistancesExact engine arcs := by
  obtain ⟨levels, hlevels, rfl⟩ := Option.map_eq_some_iff.mp hrun
  obtain ⟨hleveled, hexact⟩ :=
    (recomputeLevels_spec hserves hcount source).of_steady (steady_recomputeLevels g source) hlevels
  exact ⟨rfl, rfl, distancesExact_of_exact hleveled hexact⟩

/-- On the graph before a batch the engine lists the vertices that the deletions push away from the
source, each once, exactly when the in-rows hold the shortest parents. They do where the in-rows
are the transpose of the out-rows. -/
theorem affected_exact_iff [DoubleArith D] (hreached : Reached engine)
    (hserves : Serves engine.graph arcs) (hexact : DistancesExact engine arcs)
    (batch : UpdateBatch) :
    let left := leftArcs (isDirected engine.graph) arcs batch.updates
    let pushed := farther engine.source (vertexCount engine.graph) arcs left
    Returns (fun fuel => engine.prebatch fuel batch) (fun result => result.2 = true →
      ((result.1.affectedVertices.Nodup ∧ ∀ v, v ∈ result.1.affectedVertices ↔ v ∈ pushed) ↔
        ParentsCounted engine.graph arcs left engine.levels.dist pushed)) ∧
      (Transposes engine.graph arcs → vertexCount engine.graph < 2 ^ 32 →
        ParentsCounted engine.graph arcs left engine.levels.dist pushed) := by
  have hidle := hreached.idle
  have hwithin := hserves.simple.within
  obtain ⟨levels, hdist, hleveled, hlabels⟩ := hexact.leveled hwithin
  rw [leftArcs_eq hserves.simple.loopless, ← hdist]
  refine ⟨(collect_spec hidle.seen hidle.deletionKeys batch.updates).bind fun final hfinal => ?_,
    fun htransposes hcount => ?_⟩
  · refine (hidle.invalidated_counts hserves hdist hleveled (not_tight_root hlabels) hfinal).mono
      fun result hresult hwithinLimit => ?_
    have hcounting := hresult hwithinLimit
    rw [and_iff_right hcounting.nodup]
    exact affected_iff_parentsCounted hleveled hlabels hcounting
  · exact parentsCounted_of_transposes htransposes hleveled hlabels (fun a ha => ha.1)
      fun v hv => reached_of_farther hlabels hwithin hcount hv

/-- The deletion of the only arc of a graph: its head is the one affected vertex. -/
theorem affected_exact_delete : ∃ engine : IncrementalBFS (DynamicGraph ℚ) ℚ,
    engine.graph = (DynamicGraph.create 3 true).apply ⟨[⟨0, 1, true, 0⟩]⟩ ∧ engine.source = 0 ∧
      ∃ result, engine.prebatch 10 ⟨[⟨0, 1, false, 0⟩]⟩ = some result ∧ result.2 = true ∧
        result.1.affectedVertices = [1] ∧
        farther 0 3 {(0, 1)} (leftArcs true {(0, 1)} [⟨0, 1, false, 0⟩]) = {1} := by
  have heval : ((IncrementalBFS.create 10 ((DynamicGraph.create 3 true : DynamicGraph ℚ).apply
      ⟨[⟨0, 1, true, 0⟩]⟩) 0 (0.35 : ℚ)).bind fun engine =>
        (engine.prebatch 10 ⟨[⟨0, 1, false, 0⟩]⟩).map fun result =>
          (result.1.affectedVertices, result.2)) = some ([1], true) := by decide +kernel
  obtain ⟨engine, hcreate, hrest⟩ := Option.bind_eq_some_iff.mp heval
  obtain ⟨result, hprebatch, hvalues⟩ := Option.map_eq_some_iff.mp hrest
  obtain ⟨haffected, hwithin⟩ := Prod.mk.inj hvalues
  obtain ⟨hmirrored, hcount⟩ := DynamicGraph.mirrored_first ℚ
  change vertexCount ((DynamicGraph.create 3 true : DynamicGraph ℚ).apply _) = 3 at hcount
  have hserves := hmirrored.toRefines.serves
  have htransposes := hmirrored.transposes
  obtain ⟨hgraph, hsource, hexact⟩ :=
    distancesExact_create hserves (hcount.trans_lt (by decide)) hcreate
  rw [← hgraph] at hserves htransposes hcount
  have hdirected : isDirected engine.graph = true := by
    rw [hgraph]
    rfl
  obtain ⟨hiff, hcounted⟩ :=
    affected_exact_iff (.create hcreate) hserves hexact ⟨[⟨0, 1, false, 0⟩]⟩
  rw [hcount, hdirected, hsource] at hiff hcounted
  have hall := (hiff.of_steady (engine.steady_prebatch _) hprebatch hwithin).mpr
    (hcounted htransposes (by decide))
  refine ⟨engine, hgraph, hsource, result, hprebatch, hwithin, haffected, Set.ext fun v => ?_⟩
  rw [← hall.2 v, haffected, List.mem_singleton, Set.mem_singleton_iff]

/-- A directed graph whose reverse row `2` keeps the removed arc from `0`. -/
def staleParent : DynamicGraph ℚ :=
  Call.run (DynamicGraph.create 0 true) [.addEdge 3 0, .addEdge 3 1, .addEdge 0 2, .addEdge 1 2,
    .maybeCompact 0.25, .removeEdge 0 2]

/-- Only vertex `1` has an arc to `2`. -/
theorem mem_arcs_staleParent (hserves : Serves staleParent arcs) (p : VertexId) :
    (p, 2) ∈ arcs ↔ p = 1 := by
  rw [← hserves.mem_neighbor]
  constructor
  · intro hmem
    have hlt := (hserves.simple.within p 2 ((hserves.mem_neighbor p 2).mp hmem)).1
    have hcount : vertexCount staleParent = 4 := by decide +kernel
    have hrows : ∀ q : Fin 4, (2 : VertexId) ∈ forEachNeighbor staleParent (q.castLE (by decide)) →
        q = 1 := by decide +kernel
    have hone : p.val = 1 :=
      congrArg (fun q : Fin 4 => q.val) (hrows ⟨p.val, hlt.trans_eq hcount⟩ hmem)
    exact Fin.ext hone
  · rintro rfl
    decide +kernel

/-- Without the arc from `1` vertex `2` is cut off. -/
theorem mem_farther_staleParent (hserves : Serves staleParent arcs) {levels : Levels} {n : ℕ}
    (hdist : levels.dist = [1, 1, 2, 0]) (hleveled : Leveled n levels)
    (h : Exact (startAt 3 n) (unitArc arcs) unreachable levels.labels) :
    (2 : VertexId) ∈ farther 3 n arcs
      (leftArcs (isDirected staleParent) arcs [⟨1, 2, false, 0⟩]) := by
  have hgone : ∀ p, (p, (2 : VertexId)) ∈ arcs →
      (p, (2 : VertexId)) ∉ leftArcs (isDirected staleParent) arcs [⟨1, 2, false, 0⟩] := by
    rintro p hp ⟨-, hlast⟩
    obtain rfl := (mem_arcs_staleParent hserves p).mp hp
    exact hlast (by decide +kernel)
  have hmem := (mem_arcs_staleParent hserves 1).mpr rfl
  have hparent : isShortestParent levels.dist 1 2 = true := by
    rw [hdist]
    decide +kernel
  have hreached : levels.labels 2 < unreachable := by
    unfold Levels.labels
    rw [hdist]
    decide +kernel
  refine (mem_farther_iff_lost hleveled h (fun a ha => ha.1) hreached).mpr ⟨⟨1, ?_⟩, fun p hp => ?_⟩
  · exact ⟨⟨hmem, hparent⟩, Or.inl (hgone 1 hmem)⟩
  · exact ⟨hp, Or.inl (hgone p hp.1)⟩

/-- Vertex `2` has one shortest parent left, but its in-row still counts two: deleting the arc from
the one that is left does not make it affected. -/
theorem not_affected_exact :
    ¬ ∀ (calls : List (Call ℚ)) (engine : IncrementalBFS (DynamicGraph ℚ) ℚ) (arcs : ArcSet)
      (batch : UpdateBatch), engine.graph = Call.run (DynamicGraph.create 0 true) calls →
      Reached engine → Serves engine.graph arcs → DistancesExact engine arcs →
      Returns (fun fuel => engine.prebatch fuel batch) fun result => result.2 = true →
        result.1.affectedVertices.Nodup ∧ ∀ v, v ∈ result.1.affectedVertices ↔
          v ∈ farther engine.source (vertexCount engine.graph) arcs
            (leftArcs (isDirected engine.graph) arcs batch.updates) := by
  intro hclaim
  have heval : ((IncrementalBFS.create 10 staleParent 3 (0.35 : ℚ)).bind fun engine =>
      (engine.prebatch 10 ⟨[⟨1, 2, false, 0⟩]⟩).map fun result =>
        (engine.levels.dist, result.1.affectedVertices, result.2)) =
      some ([1, 1, 2, 0], [], true) := by decide +kernel
  obtain ⟨engine, hcreate, hrest⟩ := Option.bind_eq_some_iff.mp heval
  obtain ⟨result, hprebatch, hvalues⟩ := Option.map_eq_some_iff.mp hrest
  rw [Prod.mk.injEq, Prod.mk.injEq] at hvalues
  obtain ⟨hdist, hnone, hwithinLimit⟩ := hvalues
  have hcount : vertexCount staleParent < unreachable := by decide +kernel
  have hserves := ((@DynamicGraph.refines_create ℚ 0 true).1.run [.addEdge 3 0, .addEdge 3 1,
    .addEdge 0 2, .addEdge 1 2, .maybeCompact 0.25, .removeEdge 0 2]).1.serves
  change Serves staleParent _ at hserves
  generalize List.foldl _ _ _ = arcs at hserves
  obtain ⟨hgraph, hsource, hexact⟩ := distancesExact_create hserves hcount hcreate
  have hserves' := hserves
  rw [← hgraph] at hserves'
  have hall := (hclaim _ engine arcs ⟨[⟨1, 2, false, 0⟩]⟩ hgraph (.create hcreate) hserves'
    hexact).of_steady (engine.steady_prebatch _) hprebatch hwithinLimit
  obtain ⟨levels, hsame, hleveled, hlabels⟩ := hexact.leveled hserves'.simple.within
  rw [hsource] at hlabels
  have hfar := mem_farther_staleParent hserves (hsame.trans hdist) hleveled hlabels
  rw [hnone, hsource, hgraph] at hall
  rw [hgraph] at hfar
  exact List.not_mem_nil ((hall.2 2).mpr hfar)

end IncrementalBFS

end VeloGraphX
