import Mathlib
import VeloGraphX.Incremental.BfsApply

/-!
# Incremental breadth-first distances: between calls

The invalidation lists every vertex whose cells it marks, whatever the rows of the graph are, and
a call clears the cells of the listed vertices before it returns. So every state that is reached
between calls starts the next batch with a clean workspace and with key sets fit for reuse.
-/

namespace VeloGraphX

open FuelLoop PointUpdate GraphAccess

section Invalidation

variable {G : Type} [GraphAccess G] {g : G} {dist : List ℕ} {source : VertexId} {n : ℕ}
  {state : Invalidation}

/-- Nothing is marked in a clean workspace. -/
theorem Clean.marked {work : Workspace} (h : Clean n work) : Marked n { work := work } := by
  refine ⟨h.affected_length, h.lost_length, h.counts_length, fun v hv => ?_, fun v hv => ?_⟩
  · exact absurd (h.affected v) hv
  · cases hv with
    | inl hlost => exact absurd (h.lostParentCount v) hlost
    | inr hcount => exact absurd (h.shortestParentCount v) hcount

/-- `shortest_parent_count` writes at most the cell of its vertex. -/
theorem shortestParentCount_keeps (counts : List ℕ) (v : VertexId) :
    (shortestParentCount g dist source counts v).2.length = counts.length ∧
      ∀ i : ℕ, i ≠ v.val →
        (shortestParentCount g dist source counts v).2.getD i 0 = counts.getD i 0 := by
  unfold shortestParentCount
  split
  · exact ⟨rfl, fun _ _ => rfl⟩
  · split
    · exact ⟨rfl, fun _ _ => rfl⟩
    · exact ⟨List.length_set, fun i hi => getD_set_ne hi _ _⟩

/-- What recording a lost parent of a vertex may change: the lists only grow, and of the cells only
those of the vertex are marked, which is then listed. -/
structure Recorded (v : VertexId) (before after : Invalidation) : Prop where
  affected_length : after.work.affected.length = before.work.affected.length
  lost_length : after.work.lostParentCount.length = before.work.lostParentCount.length
  counts_length : after.work.shortestParentCount.length = before.work.shortestParentCount.length
  affectedVertices : before.affectedVertices ⊆ after.affectedVertices
  touchedVertices : before.work.touchedLossVertices ⊆ after.work.touchedLossVertices
  affected : ∀ i, after.work.affected.getD i 0 ≠ 0 →
    before.work.affected.getD i 0 ≠ 0 ∨ i = v.val ∧ v ∈ after.affectedVertices
  touched : ∀ i, after.work.lostParentCount.getD i 0 ≠ 0 ∨
      after.work.shortestParentCount.getD i 0 ≠ 0 →
    (before.work.lostParentCount.getD i 0 ≠ 0 ∨ before.work.shortestParentCount.getD i 0 ≠ 0) ∨
      i = v.val ∧ v ∈ after.work.touchedLossVertices

/-- `record_parent_loss` lists the vertex whose cells it marks. -/
theorem recorded_recordParentLoss (state : Invalidation) (v : VertexId) :
    Recorded v state (recordParentLoss g dist source state v) := by
  obtain ⟨hlength, hcell⟩ :=
    @shortestParentCount_keeps G _ g dist source state.work.shortestParentCount v
  unfold recordParentLoss
  dsimp only
  split
  · exact ⟨rfl, rfl, rfl, List.Subset.refl _, List.Subset.refl _, fun _ => Or.inl, fun _ => Or.inl⟩
  · generalize shortestParentCount g dist source state.work.shortestParentCount v = counted
      at hlength hcell ⊢
    obtain ⟨support, counts⟩ := counted
    generalize htouched : (if state.work.lostParentCount.getD v 0 = 0 then
      state.work.touchedLossVertices ++ [v] else state.work.touchedLossVertices) = touched
    have hkept : state.work.touchedLossVertices ⊆ touched := by
      rw [← htouched]
      split
      · exact List.subset_append_left _ _
      · exact List.Subset.refl _
    have hself : state.work.lostParentCount.getD v 0 ≠ 0 ∨ v ∈ touched := by
      rw [← htouched]
      split
      · exact Or.inr (List.mem_append_right _ (List.mem_singleton_self v))
      · exact Or.inl ‹_›
    have hmarks : ∀ i : ℕ, (state.work.lostParentCount.set v
        (addU32 (state.work.lostParentCount.getD v 0) 1)).getD i 0 ≠ 0 ∨ counts.getD i 0 ≠ 0 →
          (state.work.lostParentCount.getD i 0 ≠ 0 ∨
            state.work.shortestParentCount.getD i 0 ≠ 0) ∨ i = v.val ∧ v ∈ touched := by
      intro i hi
      by_cases hiv : i = v.val
      · subst hiv
        exact hself.elim (fun hlost => Or.inl (Or.inl hlost)) fun hmem => Or.inr ⟨rfl, hmem⟩
      · rw [getD_set_ne hiv, hcell i hiv] at hi
        exact Or.inl hi
    dsimp only
    split
    · refine ⟨List.length_set, List.length_set, hlength, List.subset_append_left _ _, hkept,
        fun i hi => ?_, hmarks⟩
      by_cases hiv : i = v.val
      · exact Or.inr ⟨hiv, List.mem_append_right _ (List.mem_singleton_self v)⟩
      · dsimp only at hi
        rw [getD_set_ne hiv] at hi
        exact Or.inl hi
    · exact ⟨rfl, List.length_set, hlength, List.Subset.refl _, hkept, fun _ => Or.inl, hmarks⟩

/-- What every recorded loss keeps, `compute_affected_prebatch` keeps, also when it stops early. -/
theorem computeAffected_keeps (inv : Invalidation → Prop)
    (hrecord : ∀ (state : Invalidation) (v : VertexId), inv state →
      inv (recordParentLoss g dist source state v))
    {work : Workspace} (hwork : inv { work := work }) {limit fuel : ℕ} {keys : ReusableKeySet}
    {existing : List (VertexId × VertexId)} {result : Invalidation × Bool}
    (hrun : computeAffected g dist source limit keys existing fuel work = some result) :
    inv result.1 := by
  have hdeletion : ∀ (state : Invalidation) (edge : VertexId × VertexId), inv state →
      inv (recordDeletion g dist source state edge) := by
    have hstep : ∀ (lost : Bool) (state : Invalidation) (v : VertexId), inv state →
        inv (if lost then recordParentLoss g dist source state v else state) := by
      intro lost state v h
      cases lost with
      | true => exact hrecord state v h
      | false => exact h
    exact fun state edge h => hstep _ _ _ (hstep _ _ _ h)
  have hstart : inv (existing.foldl (recordDeletion g dist source) { work := work }) :=
    List.foldlRecOn existing _ hwork fun state h edge _ => hdeletion state edge h
  have hturn : ∀ (state : Invalidation × ℕ) (fuel : ℕ) (next : Invalidation × ℕ), inv state.1 →
      invalidateTurn g dist source keys fuel state = some next → inv next.1 := by
    rintro ⟨state, head⟩ fuel next h hturn
    unfold invalidateTurn at hturn
    dsimp only at hturn
    split at hturn
    · exact Option.some.inj hturn ▸ h
    · obtain ⟨after, hfold, rfl⟩ := Option.map_eq_some_iff.mp hturn
      refine foldRun_keeps inv (fun v before after hbefore harc => ?_) h hfold
      unfold invalidateArc at harc
      split at harc
      · exact Option.some.inj harc ▸ hbefore
      · obtain ⟨deleted, -, rfl⟩ := Option.map_eq_some_iff.mp harc
        split
        · exact hbefore
        · exact hrecord before v hbefore
  unfold computeAffected at hrun
  obtain ⟨last, hloop, rfl⟩ := Option.map_eq_some_iff.mp hrun
  exact (whileLoop_keeps (fun state => inv state.1)
    (fun state hstate _ fuel next => hturn state fuel next hstate) hstart hloop).1

/-- Marked vertices stay listed when another loss is recorded. -/
theorem Marked.recordParentLoss (h : Marked n state) (v : VertexId) :
    Marked n (recordParentLoss g dist source state v) := by
  have hrecorded := @recorded_recordParentLoss G _ g dist source state v
  refine ⟨hrecorded.affected_length.trans h.affected_length,
    hrecorded.lost_length.trans h.lost_length, hrecorded.counts_length.trans h.counts_length,
    fun x hx => ?_, fun x hx => ?_⟩
  · rcases hrecorded.affected x hx with hbefore | ⟨hxv, hlisted⟩
    · exact hrecorded.affectedVertices (h.affected x hbefore)
    · exact Fin.ext hxv ▸ hlisted
  · rcases hrecorded.touched x hx with hbefore | ⟨hxv, hlisted⟩
    · exact hrecorded.touchedVertices (h.touched x hbefore)
    · exact Fin.ext hxv ▸ hlisted

/-- `compute_affected_prebatch` lists what it marks. -/
theorem Clean.computeAffected {work : Workspace} (h : Clean n work) {limit fuel : ℕ}
    {keys : ReusableKeySet} {existing : List (VertexId × VertexId)} {result : Invalidation × Bool}
    (hrun : computeAffected g dist source limit keys existing fuel work = some result) :
    Marked n result.1 :=
  computeAffected_keeps (Marked n) (fun _ v hstate => hstate.recordParentLoss v) h.marked hrun

end Invalidation

/-- `insert` keeps a set fit for reuse. -/
theorem ReusableKeySet.Reusable.insert {set : ReusableKeySet} (h : set.Reusable) {fuel key : ℕ}
    {result : Bool × ReusableKeySet} (hrun : set.insert fuel key = some result) :
    result.2.Reusable := by
  unfold ReusableKeySet.insert at hrun
  obtain ⟨slot, -, rfl⟩ := Option.map_eq_some_iff.mp hrun
  split
  · exact h
  · refine ⟨?_, ?_, fun other => ?_, h.generation_lt⟩
    · rw [List.length_set, List.length_set, h.length_eq]
    · rw [List.length_set, List.set_eq_nil_iff]
      exact h.size
    · by_cases hin : slot < set.stamps.length
      · dsimp only
        rw [getD_set hin]
        split
        · exact le_rfl
        · exact h.stamps_le other
      · dsimp only
        rw [List.set_eq_of_length_le (not_lt.mp hin)]
        exact h.stamps_le other

/-- The loop over a batch keeps both key sets fit for reuse. -/
theorem collect_keeps {G : Type} [GraphAccess G] {g : G} {fuel : ℕ} {ops : List EdgeUpdate}
    {first last : FinalUpdates} (hseen : first.seen.Reusable) (hkeys : first.deletionKeys.Reusable)
    (hrun : foldRun (collectUpdate g fuel) ops first = some last) :
    last.seen.Reusable ∧ last.deletionKeys.Reusable := by
  refine foldRun_keeps (fun final : FinalUpdates => final.seen.Reusable ∧
    final.deletionKeys.Reusable) (fun op final next hfinal hturn => ?_) ⟨hseen, hkeys⟩ hrun
  unfold collectUpdate at hturn
  obtain ⟨⟨fresh, seen⟩, hinsert, hrest⟩ := Option.bind_eq_some_iff.mp hturn
  have hseen' : seen.Reusable := hfinal.1.insert hinsert
  dsimp only at hrest
  split at hrest
  · exact Option.some.inj hrest ▸ ⟨hseen', hfinal.2⟩
  · split at hrest
    · exact Option.some.inj hrest ▸ ⟨hseen', hfinal.2⟩
    · obtain ⟨deletion, hdeletion, rfl⟩ := Option.map_eq_some_iff.mp hrest
      exact ⟨hseen', hfinal.2.insert hdeletion⟩

namespace IncrementalBFS

variable {G D : Type} [GraphAccess G] (engine : IncrementalBFS G D)

/-- The workspace with which `apply` starts on a batch. -/
def preparedWork : Workspace :=
  { engine.work.ensure (vertexCount engine.graph) with touchedLossVertices := [] }

/-- The loop over the batch in `apply`. -/
def collected (fuel : ℕ) (batch : UpdateBatch) : Option FinalUpdates :=
  foldRun (collectUpdate engine.graph fuel) batch.updates.reverse
    { seen := engine.seenFinalUpdates.reset batch.updates.length
      deletionKeys := engine.finalDeletionKeys.reset batch.updates.length }

/-- The deleted edges that the graph has. -/
def existingDeletions (final : FinalUpdates) : List (VertexId × VertexId) :=
  final.deletions.filter fun (u, v) => hasEdge engine.graph u v

/-- The deletion candidates, sorted and without repetitions. -/
def candidates (final : FinalUpdates) : List VertexId :=
  ((deletionCandidates engine.graph engine.levels.dist (engine.existingDeletions final)).insertionSort
    (· ≤ ·)).destutter (· ≠ ·)

/-- The affected vertices, which are looked for only if there is a deletion candidate, and whether
their number stays within the limit. -/
def invalidated [DoubleArith D] (fuel : ℕ) (final : FinalUpdates) : Option (Invalidation × Bool) :=
  let limit := max 1 (DoubleArith.toNat
    (DoubleArith.ofNat (vertexCount engine.graph) * engine.deletionFallbackFraction : D))
  if (engine.candidates final).isEmpty then some ({ work := engine.preparedWork }, true)
  else
    computeAffected engine.graph engine.levels.dist engine.source limit final.deletionKeys
      (engine.existingDeletions final) fuel engine.preparedWork

/-- What `apply` computes from a batch before it changes the graph. -/
def prebatch [DoubleArith D] (fuel : ℕ) (batch : UpdateBatch) : Option (Invalidation × Bool) :=
  (engine.collected fuel batch).bind (engine.invalidated fuel)

/-- `apply` in parts. -/
theorem apply_eq [DoubleArith D] (fuel : ℕ) (batch : UpdateBatch) : engine.apply fuel batch =
    if batch.empty then some { engine with
      lastDeletionCandidates := 0, lastAffectedVertices := 0, lastUsedFullRecompute := false }
    else (engine.collected fuel batch).bind fun final =>
      (engine.invalidated fuel final).bind fun result => finish { engine with
          graph := applyUpdates engine.graph batch
          seenFinalUpdates := final.seen
          finalDeletionKeys := final.deletionKeys
          lastDeletionCandidates := (engine.candidates final).length
          lastAffectedVertices := result.1.lastAffectedVertices
          lastUsedFullRecompute := false }
        fuel final.additions result.1 (!result.2) := rfl

variable {engine}

/-- What a state keeps between calls. -/
structure Idle (engine : IncrementalBFS G D) : Prop where
  clean : ∃ m ≤ vertexCount engine.graph, Clean m engine.work
  seen : engine.seenFinalUpdates.Reusable
  deletionKeys : engine.finalDeletionKeys.Reusable

/-- A workspace that is prepared for a batch is clean. -/
theorem Idle.prepared (h : Idle engine) : Clean (vertexCount engine.graph) engine.preparedWork := by
  obtain ⟨m, hle, hclean⟩ := h.clean
  have hensured := hclean.ensure hle
  exact ⟨hensured.affected_length, hensured.lost_length, hensured.counts_length, hensured.affected,
    hensured.lostParentCount, hensured.shortestParentCount⟩

/-- `recompute` leaves an idle state idle. -/
theorem Idle.recompute (h : Idle engine) {fuel : ℕ} {engine' : IncrementalBFS G D}
    (hrun : engine.recompute fuel = some engine') : Idle engine' := by
  obtain ⟨m, hle, hclean⟩ := h.clean
  obtain ⟨levels, -, rfl⟩ := Option.map_eq_some_iff.mp hrun
  exact ⟨⟨_, le_rfl, hclean.ensure hle⟩, h.seen, h.deletionKeys⟩

/-- The constructor makes an idle state. -/
theorem idle_create {g : G} {source : VertexId} {fraction : D} {fuel : ℕ}
    (hrun : create fuel g source fraction = some engine) : Idle engine :=
  Idle.recompute ⟨⟨0, Nat.zero_le _, clean_empty⟩, ReusableKeySet.reusable_empty,
    ReusableKeySet.reusable_empty⟩ hrun

/-- The end of `apply` clears what the invalidation has marked. -/
theorem idle_finish {n : ℕ} {state : Invalidation} (hmarked : Marked n state)
    (hle : n ≤ vertexCount engine.graph) (hseen : engine.seenFinalUpdates.Reusable)
    (hkeys : engine.finalDeletionKeys.Reusable) {fuel : ℕ}
    {additions : List (VertexId × VertexId)} {fallback : Bool} {engine' : IncrementalBFS G D}
    (hrun : engine.finish fuel additions state fallback = some engine') : Idle engine' := by
  have hclean := hmarked.clear hle
  unfold finish at hrun
  dsimp only at hrun
  split at hrun
  · obtain ⟨next, hnext, rfl⟩ := Option.map_eq_some_iff.mp hrun
    obtain ⟨levels, -, rfl⟩ := Option.map_eq_some_iff.mp hnext
    exact ⟨⟨_, le_rfl, hclean.ensure le_rfl⟩, hseen, hkeys⟩
  · obtain ⟨repaired, -, hrest⟩ := Option.bind_eq_some_iff.mp hrun
    obtain ⟨levels, -, rfl⟩ := Option.map_eq_some_iff.mp hrest
    exact ⟨⟨_, le_rfl, hclean⟩, hseen, hkeys⟩

/-- The search for affected vertices lists what it marks. -/
theorem Idle.marked [DoubleArith D] (h : Idle engine) {fuel : ℕ} {final : FinalUpdates}
    {result : Invalidation × Bool} (hrun : engine.invalidated fuel final = some result) :
    Marked (vertexCount engine.graph) result.1 := by
  unfold invalidated at hrun
  dsimp only at hrun
  split at hrun
  · exact Option.some.inj hrun ▸ h.prepared.marked
  · exact h.prepared.computeAffected hrun

/-- `apply` leaves an idle state idle. -/
theorem Idle.apply [DoubleArith D] (h : Idle engine) {batch : UpdateBatch}
    (hle : vertexCount engine.graph ≤ vertexCount (applyUpdates engine.graph batch)) {fuel : ℕ}
    {engine' : IncrementalBFS G D} (hrun : engine.apply fuel batch = some engine') :
    Idle engine' := by
  rw [apply_eq] at hrun
  split at hrun
  · exact Option.some.inj hrun ▸ ⟨h.clean, h.seen, h.deletionKeys⟩
  · obtain ⟨final, hfinal, hrest⟩ := Option.bind_eq_some_iff.mp hrun
    obtain ⟨result, hresult, hfinish⟩ := Option.bind_eq_some_iff.mp hrest
    obtain ⟨hseen, hkeys⟩ := collect_keeps (h.seen.reset _).toReusable
      (h.deletionKeys.reset _).toReusable hfinal
    exact idle_finish (h.marked hresult) hle hseen hkeys hfinish

/-- The states between calls: after the constructor, `apply` and `recompute`, and after a change of
the graph from outside. Graphs only ever gain vertices. -/
inductive Reached [DoubleArith D] : IncrementalBFS G D → Prop
  | create {g : G} {source : VertexId} {fraction : D} {fuel : ℕ} {engine : IncrementalBFS G D}
      (hrun : IncrementalBFS.create fuel g source fraction = some engine) : Reached engine
  | apply {engine engine' : IncrementalBFS G D} {batch : UpdateBatch} {fuel : ℕ}
      (hreached : Reached engine)
      (hgrows : vertexCount engine.graph ≤ vertexCount (applyUpdates engine.graph batch))
      (hrun : engine.apply fuel batch = some engine') : Reached engine'
  | recompute {engine engine' : IncrementalBFS G D} {fuel : ℕ} (hreached : Reached engine)
      (hrun : engine.recompute fuel = some engine') : Reached engine'
  | mutate {engine : IncrementalBFS G D} {g : G} (hreached : Reached engine)
      (hgrows : vertexCount engine.graph ≤ vertexCount g) : Reached { engine with graph := g }

/-- Every reached state is idle. -/
theorem Reached.idle [DoubleArith D] (h : Reached engine) : Idle engine := by
  induction h with
  | create hrun => exact idle_create hrun
  | apply _ hgrows hrun ih => exact ih.apply hgrows hrun
  | recompute _ hrun ih => exact ih.recompute hrun
  | mutate _ hgrows ih =>
    obtain ⟨m, hle, hclean⟩ := ih.clean
    exact ⟨⟨m, hle.trans hgrows, hclean⟩, ih.seen, ih.deletionKeys⟩

end IncrementalBFS

end VeloGraphX
