import Mathlib
import VeloGraphX.Lib.ListBounds
import VeloGraphX.Storage.TemporalWindow

/-!
# Changes between two times

Every record carries the smallest and the largest timestamp of its batch, so a record outside the
requested interval is skipped without looking at its updates. Where the updates arrived in the
order of their timestamps, the changes lead from the earlier snapshot to the later one.
-/

namespace VeloGraphX

open ArcSet

/-- The recorded timestamps enclose those of the batch. -/
structure VersionedUpdateBatch.Encloses (entry : VersionedUpdateBatch) : Prop where
  min_le : ∀ update ∈ entry.batch.updates, entry.minTimestamp ≤ update.timestamp
  le_max : ∀ update ∈ entry.batch.updates, update.timestamp ≤ entry.maxTimestamp

namespace TemporalGraph

variable {D : Type} [DoubleArith D] {vertices : ℕ} {directed : Bool} {batches : List UpdateBatch}
  {g : TemporalGraph D}

omit [DoubleArith D] in
/-- `changes_between_times`. -/
def changesBetweenTimes (g : TemporalGraph D) (fromExclusive toInclusive : UInt64) :
    Except Exception (List EdgeUpdate) :=
  if fromExclusive > toInclusive then .error (.outOfRange "invalid timestamp range")
  else
    .ok ((g.history.filter fun entry =>
        !(decide (entry.maxTimestamp ≤ fromExclusive) ||
          decide (entry.minTimestamp > toInclusive))).flatMap fun entry =>
      entry.batch.updates.filter fun update =>
        decide (update.timestamp > fromExclusive) && decide (update.timestamp ≤ toInclusive))

/-- One call records enclosing timestamps. -/
theorem encloses_apply (h : ∀ entry ∈ g.history, entry.Encloses) (batch : UpdateBatch) :
    ∀ entry ∈ (g.apply batch).history, entry.Encloses := by
  unfold TemporalGraph.apply
  split
  · exact h
  · rename_i first rest hupdates
    intro entry hentry
    rcases List.mem_append.mp hentry with hmem | hnew
    · exact h entry hmem
    · rw [List.mem_singleton.mp hnew]
      constructor
      · exact (ListBounds.foldl_min_le (·.timestamp) batch.updates _).2
      · exact (ListBounds.le_foldl_max (fun _ _ => rfl) (·.timestamp) batch.updates _).2

/-- The record of every run carries enclosing timestamps. -/
theorem encloses_run (vertices : ℕ) (directed : Bool) (batches : List UpdateBatch) :
    ∀ entry ∈ (run vertices directed batches : TemporalGraph D).history, entry.Encloses := by
  have hfold : ∀ (rest : List UpdateBatch) (g : TemporalGraph D),
      (∀ entry ∈ g.history, entry.Encloses) →
        ∀ entry ∈ (rest.foldl TemporalGraph.apply g).history, entry.Encloses := by
    intro rest
    induction rest with
    | nil => exact fun _ h => h
    | cons batch rest ih => exact fun g h => ih (g.apply batch) (encloses_apply h batch)
  exact hfold batches _ fun entry hentry => absurd hentry List.not_mem_nil

/-- A record that is skipped holds no update of the interval. -/
theorem filter_eq_nil_of_skipped {entry : VersionedUpdateBatch} (h : entry.Encloses)
    {older newer : UInt64} (hskip : entry.maxTimestamp ≤ older ∨ newer < entry.minTimestamp) :
    entry.batch.updates.filter (fun update =>
      decide (older < update.timestamp) && decide (update.timestamp ≤ newer)) = [] := by
  refine List.filter_eq_nil_iff.mpr fun update hupdate => ?_
  rw [Bool.and_eq_true, decide_eq_true_eq, decide_eq_true_eq]
  rintro ⟨hlate, hearly⟩
  cases hskip with
  | inl hmax => exact UInt64.not_le.mpr hlate (UInt64.le_trans (h.le_max update hupdate) hmax)
  | inr hmin => exact UInt64.not_le.mpr hmin (UInt64.le_trans (h.min_le update hupdate) hearly)

/-- Skipping records loses no update of the interval. -/
theorem flatMap_filter_skipped {entries : List VersionedUpdateBatch}
    (h : ∀ entry ∈ entries, entry.Encloses) (older newer : UInt64) :
    ((entries.filter fun entry =>
        !(decide (entry.maxTimestamp ≤ older) || decide (entry.minTimestamp > newer))).flatMap
      fun entry => entry.batch.updates.filter fun update =>
        decide (update.timestamp > older) && decide (update.timestamp ≤ newer)) =
      (entries.flatMap (·.batch.updates)).filter fun update =>
        decide (older < update.timestamp) && decide (update.timestamp ≤ newer) := by
  induction entries with
  | nil => rfl
  | cons entry rest ih =>
    obtain ⟨hentry, hrest⟩ := List.forall_mem_cons.mp h
    rw [List.flatMap_cons, List.filter_append, ← ih hrest]
    by_cases hskip : entry.maxTimestamp ≤ older ∨ newer < entry.minTimestamp
    · rw [filter_eq_nil_of_skipped hentry hskip, List.nil_append, List.filter_cons_of_neg]
      cases hskip with
      | inl hmax => simp [hmax]
      | inr hmin => simp [hmin]
    · obtain ⟨hmax, hmin⟩ := not_or.mp hskip
      rw [List.filter_cons_of_pos, List.flatMap_cons]
      simp [hmax, hmin]

/-- The changes between two times are the recorded updates of the interval, in arrival order. -/
theorem Recorded.changesBetweenTimes (h : Recorded vertices directed batches g)
    (hencloses : ∀ entry ∈ g.history, entry.Encloses) {older newer : UInt64} (hle : older ≤ newer) :
    g.changesBetweenTimes older newer = .ok ((arrivals batches).filter fun update =>
      decide (older < update.timestamp) && decide (update.timestamp ≤ newer)) := by
  unfold TemporalGraph.changesBetweenTimes
  rw [if_neg (UInt64.not_lt.mpr hle), flatMap_filter_skipped hencloses, ← arrivals_recorded,
    arrivals, ← h.history_eq, List.flatMap_map]

/-- Where the updates arrived in the order of their timestamps, the earlier snapshot and the
changes between two times make the later snapshot. -/
theorem Recorded.sameRows_apply (h : Recorded vertices directed batches g)
    (hsorted : (arrivals batches).Pairwise fun first next => first.timestamp ≤ next.timestamp)
    {older newer : UInt64} (hle : older ≤ newer) :
    SameRows ((g.snapshotTime older).apply ⟨(arrivals batches).filter fun update =>
        decide (older < update.timestamp) && decide (update.timestamp ≤ newer)⟩)
      (g.snapshotTime newer) := by
  obtain ⟨hbefore, hcount, hdirected⟩ := h.replay fun update => decide (update.timestamp ≤ older)
  obtain ⟨hafter, hafterCount, -⟩ := h.replay fun update => decide (update.timestamp ≤ newer)
  obtain ⟨hchanged, hchangedCount, -⟩ := hbefore.apply ⟨(arrivals batches).filter fun update =>
    decide (older < update.timestamp) && decide (update.timestamp ≤ newer)⟩
  have hcut : (arrivals batches).filter (fun update => decide (update.timestamp ≤ older)) ++
      (arrivals batches).filter (fun update =>
        decide (older < update.timestamp) && decide (update.timestamp ≤ newer)) =
      (arrivals batches).filter fun update => decide (update.timestamp ≤ newer) := by
    simp only [UInt64.le_iff_toNat_le, UInt64.lt_iff_toNat_lt] at hsorted hle ⊢
    exact ListBounds.filter_le_append hsorted hle
  rw [hdirected, applyAll, applyAll, ← List.foldl_append, hcut] at hchanged
  rw [hcount, growAll, growAll, ← List.foldl_append, hcut] at hchangedCount
  exact ⟨hchangedCount.trans hafterCount.symm, hchanged.neighbors_eq hafter.toRepresents⟩

/-- The changes between two times are the recorded updates of the interval in arrival order, and
where updates arrive in the order of their timestamps they lead from snapshot to snapshot as a
single batch. -/
theorem times_replay (vertices : ℕ) (directed : Bool) (batches : List UpdateBatch)
    {older newer : UInt64} (hle : older ≤ newer) :
    let g : TemporalGraph D := run vertices directed batches
    let changes := (arrivals batches).filter fun update =>
      decide (older < update.timestamp) && decide (update.timestamp ≤ newer)
    g.history.flatMap (·.batch.updates) = arrivals batches ∧
      g.changesBetweenTimes older newer = .ok changes ∧
      ((arrivals batches).Pairwise (fun first next => first.timestamp ≤ next.timestamp) →
        SameRows ((g.snapshotTime older).apply ⟨changes⟩) (g.snapshotTime newer)) := by
  have h : Recorded vertices directed batches (run vertices directed batches : TemporalGraph D) :=
    recorded_run vertices directed batches
  refine ⟨?_, h.changesBetweenTimes (encloses_run vertices directed batches) hle,
    fun hsorted => h.sameRows_apply hsorted hle⟩
  rw [← arrivals_recorded, arrivals, ← h.history_eq, List.flatMap_map]

/-- The case of a batch that straddles both bounds. -/
theorem times_replay_straddling :
    let batches : List UpdateBatch :=
      [⟨[⟨0, 1, true, 3⟩, ⟨1, 2, true, 5⟩, ⟨0, 1, false, 6⟩]⟩, ⟨[⟨2, 3, true, 9⟩]⟩]
    let g : TemporalGraph ℚ := run 0 true batches
    g.changesBetweenTimes 3 6 = .ok [⟨1, 2, true, 5⟩, ⟨0, 1, false, 6⟩] ∧
      SameRows ((g.snapshotTime 3).apply ⟨[⟨1, 2, true, 5⟩, ⟨0, 1, false, 6⟩]⟩)
        (g.snapshotTime 6) := by
  have h := @times_replay ℚ _ 0 true
    [⟨[⟨0, 1, true, 3⟩, ⟨1, 2, true, 5⟩, ⟨0, 1, false, 6⟩]⟩, ⟨[⟨2, 3, true, 9⟩]⟩] 3 6 (by decide)
  exact ⟨h.2.1, h.2.2 (by decide)⟩

end TemporalGraph

end VeloGraphX
