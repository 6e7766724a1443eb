import Mathlib
import VeloGraphX.Storage.TemporalGraph

/-!
# Sliding windows of the temporal graph

A replay keeps some of the recorded operations, in arrival order. The exclusive lower bound of a
sliding window is the end minus the width, clamped at zero: where it is clamped the updates of
timestamp zero fall out of a window that should contain them.
-/

namespace VeloGraphX

open ArcSet LastWrite

namespace TemporalGraph

variable {D : Type} [DoubleArith D] {vertices : ℕ} {directed : Bool} {batches : List UpdateBatch}
  {g : TemporalGraph D}

/-- The operations of a run in arrival order. -/
def arrivals (batches : List UpdateBatch) : List EdgeUpdate := batches.flatMap (·.updates)

/-- Empty batches bring no operations. -/
theorem arrivals_recorded (batches : List UpdateBatch) :
    arrivals (recorded batches) = arrivals batches := by
  induction batches with
  | nil => rfl
  | cons batch rest ih =>
    rw [recorded_cons]
    split
    · rename_i hempty
      rw [ih, arrivals, arrivals, List.flatMap_cons, List.isEmpty_iff.mp hempty, List.nil_append]
    · exact congrArg (batch.updates ++ ·) ih

/-- A replay does what the kept operations do to a fresh graph. -/
theorem Recorded.replay (h : Recorded vertices directed batches g) (keep : EdgeUpdate → Bool) :
    DynamicGraph.Refines (g.replay keep)
        (applyAll directed ∅ ((arrivals batches).filter keep)) ∧
      (g.replay keep).vertexCount = growAll vertices ((arrivals batches).filter keep) ∧
      (g.replay keep).directed = directed := by
  have hskip : g.replay keep = (g.history.map fun entry =>
      (⟨entry.batch.updates.filter keep⟩ : UpdateBatch)).foldl
        (fun graph batch => graph.apply batch) (.create vertices directed) := by
    rw [List.foldl_map, TemporalGraph.replay, h.initialVertices, h.directed_eq]
    refine List.foldl_ext _ _ _ fun snapshot entry _ => ?_
    dsimp only
    split
    · rename_i hempty
      have hnone : entry.batch.updates.filter keep = [] := List.isEmpty_iff.mp hempty
      rw [hnone]
      rfl
    · rfl
  have hkept : (g.history.map fun entry =>
      (⟨entry.batch.updates.filter keep⟩ : UpdateBatch)).flatMap (·.updates) =
        (arrivals batches).filter keep := by
    rw [← arrivals_recorded, ← h.history_eq, arrivals, List.flatMap_map, List.flatMap_map,
      List.filter_flatMap]
  obtain ⟨hcreated, hempty⟩ := @DynamicGraph.refines_create D vertices directed
  obtain ⟨hreplayed, hcount, hdirected, -⟩ := hcreated.foldl_apply (g.history.map fun entry =>
    (⟨entry.batch.updates.filter keep⟩ : UpdateBatch))
  rw [← hskip, hkept] at hreplayed hcount
  rw [← hskip] at hdirected
  rw [hempty] at hcount
  exact ⟨hreplayed, hcount, hdirected⟩

/-- Graphs that show the same vertices and rows. -/
def SameRows (g g' : DynamicGraph D) : Prop :=
  g.vertexCount = g'.vertexCount ∧ ∀ u, g.neighbors u = g'.neighbors u

omit [DoubleArith D] in
/-- Graphs show the same rows exactly when they represent the same arcs. -/
theorem sameRows_iff {g g' : DynamicGraph D} {arcs arcs' : ArcSet}
    (h : DynamicGraph.Refines g arcs) (h' : DynamicGraph.Refines g' arcs') :
    SameRows g g' ↔ g.vertexCount = g'.vertexCount ∧ ∀ u v, present arcs u v = present arcs' u v := by
  refine and_congr_right fun _ => ⟨fun hrows u v => ?_, fun hpresent u => ?_⟩
  · rw [Bool.eq_iff_iff, present_eq_true, present_eq_true, ← h.mem_neighbors, ← h'.mem_neighbors,
      hrows u]
  · refine SortedList.eq_of_mem_iff (h.ascending_neighbors u) (h'.ascending_neighbors u) fun v => ?_
    rw [h.mem_neighbors, h'.mem_neighbors, ← present_eq_true, hpresent, present_eq_true]

/-- An update lies in the window of a width that ends at a time, over unbounded integers. -/
def inWindow (endTimestamp windowWidth : UInt64) (update : EdgeUpdate) : Bool :=
  update.timestamp.toNat ≤ endTimestamp.toNat &&
    endTimestamp.toNat < update.timestamp.toNat + windowWidth.toNat

/-- A sliding window shows the replay of exactly the updates in it; one wider than its end shows
what the snapshot at its end does. -/
def WindowExact (D : Type) [DoubleArith D] (vertices : ℕ) (directed : Bool)
    (batches : List UpdateBatch) (endTimestamp windowWidth : UInt64) : Prop :=
  let g : TemporalGraph D := run vertices directed batches
  SameRows (g.slidingWindow endTimestamp windowWidth)
      ((DynamicGraph.create vertices directed).apply
        ⟨(arrivals batches).filter (inWindow endTimestamp windowWidth)⟩) ∧
    (endTimestamp < windowWidth →
      SameRows (g.slidingWindow endTimestamp windowWidth) (g.snapshotTime endTimestamp))

/-- Leaving out the updates of timestamp zero changes neither the vertices nor what is last asked
of any arc. -/
def ZeroRedundant (vertices : ℕ) (directed : Bool) (ops : List EdgeUpdate) : Prop :=
  let dated := ops.filter fun update => 0 < update.timestamp
  growAll vertices dated = growAll vertices ops ∧
    ∀ u v, lastWrite (writeOn directed u v) dated false = lastWrite (writeOn directed u v) ops false

/-- The replay of a window no wider than its end keeps the updates in the window. -/
theorem inWindow_of_le {endTimestamp windowWidth : UInt64} (hle : windowWidth ≤ endTimestamp)
    (update : EdgeUpdate) : inWindow endTimestamp windowWidth update =
      (decide (update.timestamp >
          if endTimestamp > windowWidth then endTimestamp - windowWidth else 0) &&
        decide (update.timestamp ≤ endTimestamp)) := by
  have hstart : (if endTimestamp > windowWidth then endTimestamp - windowWidth else 0).toNat =
      endTimestamp.toNat - windowWidth.toNat := by
    split
    · exact UInt64.toNat_sub_of_le _ _ hle
    · rename_i hnot
      have hge := UInt64.le_iff_toNat_le.mp (UInt64.not_lt.mp hnot)
      rw [Nat.sub_eq_zero_of_le hge]
      rfl
  have hle' := UInt64.le_iff_toNat_le.mp hle
  generalize (if endTimestamp > windowWidth then endTimestamp - windowWidth else 0) = start
    at hstart ⊢
  rw [Bool.eq_iff_iff]
  simp only [inWindow, Bool.and_eq_true, decide_eq_true_eq, gt_iff_lt, UInt64.lt_iff_toNat_lt,
    UInt64.le_iff_toNat_le, hstart]
  omega

/-- A window wider than its end contains everything up to its end. -/
theorem inWindow_of_lt {endTimestamp windowWidth : UInt64} (hlt : endTimestamp < windowWidth)
    (update : EdgeUpdate) :
    inWindow endTimestamp windowWidth update = decide (update.timestamp ≤ endTimestamp) := by
  have hlt' := UInt64.lt_iff_toNat_lt.mp hlt
  rw [Bool.eq_iff_iff]
  simp only [inWindow, Bool.and_eq_true, decide_eq_true_eq, UInt64.le_iff_toNat_le]
  omega

/-- A sliding window is exact exactly when it is no wider than its end or the updates of timestamp
zero, which the clamped lower bound excludes, are redundant. -/
theorem windowExact_iff (vertices : ℕ) (directed : Bool) (batches : List UpdateBatch)
    (endTimestamp windowWidth : UInt64) :
    WindowExact D vertices directed batches endTimestamp windowWidth ↔
      windowWidth ≤ endTimestamp ∨ ZeroRedundant vertices directed
        ((arrivals batches).filter fun update => update.timestamp ≤ endTimestamp) := by
  have h : Recorded vertices directed batches (run vertices directed batches : TemporalGraph D) :=
    recorded_run vertices directed batches
  obtain ⟨hcreated, hempty⟩ := @DynamicGraph.refines_create D vertices directed
  obtain ⟨hexact, hexactCount, -⟩ :=
    hcreated.apply ⟨(arrivals batches).filter (inWindow endTimestamp windowWidth)⟩
  rw [hempty] at hexactCount
  unfold WindowExact
  dsimp only
  generalize (run vertices directed batches : TemporalGraph D) = g at h ⊢
  obtain ⟨hwindow, hwindowCount, -⟩ := h.replay fun update => update.timestamp >
    (if endTimestamp > windowWidth then endTimestamp - windowWidth else 0) &&
      update.timestamp ≤ endTimestamp
  change DynamicGraph.Refines (g.slidingWindow endTimestamp windowWidth) _ at hwindow
  change (g.slidingWindow endTimestamp windowWidth).vertexCount = _ at hwindowCount
  rcases UInt64.le_or_lt windowWidth endTimestamp with hle | hlt
  · refine iff_of_true ⟨?_, fun hlt => absurd hlt (UInt64.not_lt.mpr hle)⟩ (Or.inl hle)
    rw [← funext (inWindow_of_le hle)] at hwindow hwindowCount
    exact (sameRows_iff hwindow hexact).mpr ⟨hwindowCount.trans hexactCount.symm, fun u v => rfl⟩
  · obtain ⟨hsnapshot, hsnapshotCount, -⟩ := h.replay fun update => update.timestamp ≤ endTimestamp
    change DynamicGraph.Refines (g.snapshotTime endTimestamp) _ at hsnapshot
    change (g.snapshotTime endTimestamp).vertexCount = _ at hsnapshotCount
    have hstart : (if endTimestamp > windowWidth then endTimestamp - windowWidth else 0) = 0 :=
      if_neg (UInt64.not_lt.mpr (UInt64.le_of_lt hlt))
    have hdated : ((arrivals batches).filter fun update => decide (update.timestamp > 0) &&
        decide (update.timestamp ≤ endTimestamp)) = ((arrivals batches).filter fun update =>
          update.timestamp ≤ endTimestamp).filter fun update => 0 < update.timestamp :=
      List.filter_filter.symm
    rw [hstart, hdated] at hwindow hwindowCount
    rw [funext (inWindow_of_lt hlt)] at hexact hexactCount
    have hnone : ∀ u v, present ∅ u v = false := fun u v =>
      Bool.eq_false_iff.mpr fun hpresent => Set.notMem_empty _ (present_eq_true.mp hpresent)
    rw [funext (inWindow_of_lt hlt), sameRows_iff hwindow hexact, sameRows_iff hwindow hsnapshot,
      hwindowCount, hexactCount, hsnapshotCount, or_iff_right (UInt64.not_le.mpr hlt)]
    simp only [present_applyAll, hnone]
    exact ⟨fun hexact => hexact.1, fun hredundant => ⟨hredundant, fun _ => hredundant⟩⟩

/-- A window of width 10 that ends at 5 shows nothing of an update of timestamp 0. -/
theorem not_windowExact : ¬ WindowExact ℚ 0 true [⟨[⟨0, 1, true, 0⟩]⟩] 5 10 := by
  intro hexact
  obtain ⟨⟨hcount, -⟩, -⟩ := hexact
  have h := @recorded_run ℚ _ 0 true [⟨[⟨0, 1, true, 0⟩]⟩]
  obtain ⟨hcreated, hempty⟩ := @DynamicGraph.refines_create ℚ 0 true
  have hwindow := (h.replay fun update => update.timestamp > 0 && update.timestamp ≤ 5).2.1
  have hreplay := (hcreated.apply
    ⟨(arrivals [⟨[⟨0, 1, true, 0⟩]⟩]).filter (inWindow 5 10)⟩).2.1
  rw [hempty] at hreplay
  exact absurd (hwindow.symm.trans (hcount.trans hreplay)) (by decide)

end TemporalGraph

end VeloGraphX
