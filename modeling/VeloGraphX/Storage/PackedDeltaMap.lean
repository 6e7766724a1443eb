import Mathlib
import VeloGraphX.Storage.PackedDeltaLayout

/-!
# The delta store as a map from arcs to presence

A well-formed store keeps its slices apart and ascending and its counters equal to the
totals over all vertices. On such a store every operation is described by the one arc
whose override it changes, which is how the dynamic graph uses it.
-/

namespace VeloGraphX.PackedDeltaStore

open Slice SortedList PointUpdate

/-- The arena layout, the order of every slice and the exactness of the counters. -/
structure WellFormed (s : PackedDeltaStore) : Prop where
  layout : s.Layout
  ascending : ∀ u, Ascending Entry.dst (s.row u)
  live_eq : s.liveEntries = ∑ u, (s.row u).length
  present_eq : s.presentEntries = ∑ u, (s.row u).countP Entry.present
  absent_eq : s.absentEntries = ∑ u, (s.row u).countP fun e => !e.present

variable {s s' : PackedDeltaStore} {u v : VertexId}

/-- Binary search over an ascending slice is a lookup. -/
theorem WellFormed.findEntry_eq (h : s.WellFormed) (u v : VertexId) :
    s.findEntry u v = lookup Entry.dst (s.row u) v :=
  getElem?_lowerBound (h.ascending u) v

/-- The override of an arc is the presence its entry records. -/
theorem WellFormed.overrideFor_eq (h : s.WellFormed) (u v : VertexId) :
    s.overrideFor u v = (lookup Entry.dst (s.row u) v).map Entry.present := by
  rw [overrideFor, h.findEntry_eq]

/-- An operation that rewrites one slice in order and keeps the counters in step. -/
theorem WellFormed.of_rowEffect (h : s.WellFormed) {row' : List Entry}
    (heffect : RowEffect s s' u row') (hascending : Ascending Entry.dst row')
    (hlive : s'.liveEntries + (s.row u).length = s.liveEntries + row'.length)
    (hpresent : s'.presentEntries + (s.row u).countP Entry.present =
      s.presentEntries + row'.countP Entry.present)
    (habsent : s'.absentEntries + (s.row u).countP (fun e => !e.present) =
      s.absentEntries + row'.countP fun e => !e.present) :
    s'.WellFormed ∧ ∀ w, s'.row w = if w = u then row' else s.row w := by
  have hrow : ∀ w, s'.row w = if w = u then row' else s.row w := fun w => by
    rw [row_eq_cells, heffect.cells, row_eq_cells]
    simp only [Fin.val_inj]
  have htotal : ∀ f : List Entry → ℕ,
      ∑ w, f (s'.row w) + f (s.row u) = ∑ w, f (s.row w) + f row' := fun f => by
    have hsum := sum_add_eq (f := fun w => f (s.row w)) (g := fun w => f (s'.row w)) u
      fun w hw => by rw [hrow, if_neg hw]
    rwa [hrow, if_pos rfl] at hsum
  refine ⟨⟨heffect.layout, fun w => ?_, ?_, ?_, ?_⟩, hrow⟩
  · rw [hrow]
    split
    · exact hascending
    · exact h.ascending w
  · have := htotal List.length
    have := h.live_eq
    omega
  · have := htotal (List.countP Entry.present)
    have := h.present_eq
    omega
  · have := htotal (List.countP fun e => !e.present)
    have := h.absent_eq
    omega

/-- What an operation on one arc guarantees: the arc's new override, and nothing else. -/
structure ArcEffect (s s' : PackedDeltaStore) (u v : VertexId) (override : Option Bool) :
    Prop where
  wellFormed : s'.WellFormed
  rows_length : s'.rows.length = s.rows.length
  overrideFor : ∀ w x, s'.overrideFor w x =
    if w = u ∧ x = v then override else s.overrideFor w x
  row_of_ne : ∀ w, w ≠ u → s'.row w = s.row w

/-- Rewriting one slice so that its lookups change at one destination only. -/
theorem WellFormed.arcEffect (h : s.WellFormed) {row' : List Entry} (entry : Option Entry)
    (hwf : s'.WellFormed) (hlen : s'.rows.length = s.rows.length)
    (hrow : ∀ w, s'.row w = if w = u then row' else s.row w)
    (hlookup : ∀ x, lookup Entry.dst row' x =
      if x = v then entry else lookup Entry.dst (s.row u) x) :
    ArcEffect s s' u v (entry.map Entry.present) := by
  refine ⟨hwf, hlen, fun w x => ?_, fun w hw => by rw [hrow, if_neg hw]⟩
  rw [hwf.overrideFor_eq, h.overrideFor_eq, hrow]
  by_cases hw : w = u
  · subst hw
    rw [if_pos rfl, hlookup]
    by_cases hx : x = v <;> simp [hx]
  · simp [hw]

/-- A slice's length and totals never exceed the counters. -/
theorem WellFormed.row_le (h : s.WellFormed) (u : VertexId) :
    (s.row u).length ≤ s.liveEntries ∧
      (s.row u).countP Entry.present ≤ s.presentEntries ∧
      (s.row u).countP (fun e => !e.present) ≤ s.absentEntries := by
  rw [h.live_eq, h.present_eq, h.absent_eq]
  exact ⟨le_sum (fun w => (s.row w).length) u, le_sum (fun w => (s.row w).countP _) u,
    le_sum (fun w => (s.row w).countP _) u⟩

/-- The metadata's count is the slice's length. -/
theorem WellFormed.count_eq (h : s.WellFormed) (u : VertexId) :
    (s.rowMeta u).count = (s.row u).length := by
  rw [row_eq_cells, h.layout.length_cells]

/-- Removing a found entry removes its override. -/
theorem WellFormed.removeAt (h : s.WellFormed) {old : Entry} (hold : s.findEntry u v = some old) :
    ArcEffect s (s.removeAt u (lowerBound Entry.dst (s.row u) v) old.present) u v none := by
  rw [h.findEntry_eq] at hold
  have hpos := lowerBound_lt_length (h.ascending u) hold
  have heffect := h.layout.removeAt old.present (by rw [h.count_eq]; exact hpos)
  rw [← row_eq_cells] at heffect
  have hlen := List.length_eraseIdx_of_lt hpos
  have hcount := fun p => countP_eraseIdx (h.ascending u) hold p
  obtain ⟨hlive, hpresent, habsent⟩ := h.row_le u
  obtain ⟨hwf, hrow⟩ := h.of_rowEffect heffect (ascending_eraseIdx (h.ascending u) _)
    (by simp only [PackedDeltaStore.removeAt]; omega)
    (by
      have := hcount Entry.present
      cases hp : old.present <;> simp only [PackedDeltaStore.removeAt, hp] at this ⊢ <;>
        simp at this ⊢ <;> omega)
    (by
      have := hcount fun e => !e.present
      cases hp : old.present <;> simp only [PackedDeltaStore.removeAt, hp] at this ⊢ <;>
        simp at this ⊢ <;> omega)
  exact h.arcEffect none hwf heffect.rows_length hrow
    fun x => lookup_eraseIdx (h.ascending u) hold x

/-- Turning a found entry over changes its override to the opposite. -/
theorem WellFormed.flipAt (h : s.WellFormed) {old : Entry} {present : Bool}
    (hold : s.findEntry u v = some old) (hne : old.present ≠ present) :
    ArcEffect s (s.flipAt u (lowerBound Entry.dst (s.row u) v) old present) u v
      (some present) := by
  rw [h.findEntry_eq] at hold
  obtain ⟨-, rfl⟩ := mem_of_lookup hold
  have hpos := lowerBound_lt_length (h.ascending u) hold
  have heffect := h.layout.flipAt old present (by rw [h.count_eq]; exact hpos)
  rw [← row_eq_cells] at heffect
  have hcount := fun p =>
    countP_set (b := { old with present := present }) (h.ascending u) hold p
  obtain ⟨hlive, hpresent, habsent⟩ := h.row_le u
  obtain ⟨hwf, hrow⟩ := h.of_rowEffect heffect
    (ascending_set (b := { old with present := present }) (h.ascending u) hold)
    (by simp only [PackedDeltaStore.flipAt, List.length_set])
    (by
      have := hcount Entry.present
      cases hp : old.present <;> cases hp' : present <;>
        simp only [PackedDeltaStore.flipAt, hp, hp'] at hne this ⊢ <;> simp at hne this ⊢ <;>
        omega)
    (by
      have := hcount fun e => !e.present
      cases hp : old.present <;> cases hp' : present <;>
        simp only [PackedDeltaStore.flipAt, hp, hp'] at hne this ⊢ <;> simp at hne this ⊢ <;>
        omega)
  exact h.arcEffect (some { old with present := present }) hwf heffect.rows_length hrow
    fun x => lookup_set (b := { old with present := present }) (h.ascending u) hold x

/-- Inserting an entry for an arc without one gives it that override. -/
theorem WellFormed.insertAt (h : s.WellFormed) (present : Bool) (hu : u.val < s.rows.length)
    (hnone : s.findEntry u v = none) :
    ArcEffect s (s.insertAt u v (lowerBound Entry.dst (s.row u) v) present) u v
      (some present) := by
  rw [h.findEntry_eq] at hnone
  have hpos := lowerBound_le_length Entry.dst (s.row u) v
  have hle : lowerBound Entry.dst (s.row u) v ≤ (s.rowMeta u).count := by
    rw [h.count_eq]
    exact hpos
  have heffect := h.layout.insertAt (v := v) present hu hle
  rw [← row_eq_cells] at heffect
  have hgrown := h.layout.ensureCapacity hu (Nat.le_add_right (s.rowMeta u).count 1)
  have hcount := fun p => countP_insertIdx (a := ⟨v, present⟩) (h.ascending u) hnone p
  obtain ⟨hwf, hrow⟩ := h.of_rowEffect heffect
    (ascending_insertIdx (a := ⟨v, present⟩) (h.ascending u) hnone)
    (by
      simp only [PackedDeltaStore.insertAt, hgrown.live, List.length_insertIdx_of_le_length hpos]
      omega)
    (by
      have := hcount Entry.present
      cases hp : present <;> simp only [PackedDeltaStore.insertAt, hgrown.present, hp] at this ⊢ <;>
        simp at this ⊢ <;> omega)
    (by
      have := hcount fun e => !e.present
      cases hp : present <;> simp only [PackedDeltaStore.insertAt, hgrown.absent, hp] at this ⊢ <;>
        simp at this ⊢ <;> omega)
  exact h.arcEffect (some ⟨v, present⟩) hwf heffect.rows_length hrow
    fun x => lookup_insertIdx (a := ⟨v, present⟩) (h.ascending u) hnone x

/-- Growing the metadata changes no slice. -/
@[simp] theorem row_resizeVertices (s : PackedDeltaStore) (n : ℕ) (u : VertexId) :
    (s.resizeVertices n).row u = s.row u := by
  rw [row_eq_cells, row_eq_cells, cells, cells, rowMeta_resizeVertices, arena_resizeVertices]

/-- Growing the metadata changes no override. -/
@[simp] theorem overrideFor_resizeVertices (s : PackedDeltaStore) (n : ℕ) (u v : VertexId) :
    (s.resizeVertices n).overrideFor u v = s.overrideFor u v := by
  simp only [overrideFor, findEntry, row_resizeVertices]

/-- Growing the metadata keeps a store well formed. -/
theorem WellFormed.resizeVertices (h : s.WellFormed) (n : ℕ) :
    (s.resizeVertices n).WellFormed := by
  have hcounters : (s.resizeVertices n).liveEntries = s.liveEntries ∧
      (s.resizeVertices n).presentEntries = s.presentEntries ∧
      (s.resizeVertices n).absentEntries = s.absentEntries := by
    unfold PackedDeltaStore.resizeVertices
    split <;> exact ⟨rfl, rfl, rfl⟩
  obtain ⟨hlive, hpresent, habsent⟩ := hcounters
  refine ⟨h.layout.resizeVertices n, fun u => ?_, ?_, ?_, ?_⟩
  · rw [row_resizeVertices]
    exact h.ascending u
  · simp only [row_resizeVertices, hlive, h.live_eq]
  · simp only [row_resizeVertices, hpresent, h.present_eq]
  · simp only [row_resizeVertices, habsent, h.absent_eq]

/-- An arc keeps its override when nothing about it changes. -/
theorem WellFormed.arcEffect_self (h : s.WellFormed) (u v : VertexId) :
    ArcEffect s s u v (s.overrideFor u v) := by
  refine ⟨h, rfl, fun w x => ?_, fun _ _ => rfl⟩
  split
  · obtain ⟨rfl, rfl⟩ := ‹w = u ∧ x = v›
    rfl
  · rfl

/-- Inserting or overwriting records the desired presence. -/
theorem WellFormed.upsert (h : s.WellFormed) (hu : u.val < s.rows.length) (present : Bool) :
    ArcEffect s (s.upsert u v present) u v (some present) := by
  unfold PackedDeltaStore.upsert
  cases hfound : s.findEntry u v with
  | none => exact h.insertAt present hu hfound
  | some old =>
    dsimp only
    split
    · have hself := h.arcEffect_self u v
      rwa [PackedDeltaStore.overrideFor, hfound, Option.map_some, ‹old.present = present›] at hself
    · exact h.flipAt hfound ‹_›

/-- Erasing leaves no override. -/
theorem WellFormed.erase (h : s.WellFormed) : ArcEffect s (s.erase u v) u v none := by
  have hself := h.arcEffect_self u v
  have hnone : (s.rowMeta u).count = 0 → s.overrideFor u v = none := fun hcount => by
    rw [h.overrideFor_eq, row_eq_cells, cells_eq_nil_of_count hcount]
    rfl
  unfold PackedDeltaStore.erase
  split
  · rwa [hnone (by rw [rowMeta_of_length_le ‹_›])] at hself
  · split
    · rwa [hnone ‹_›] at hself
    · cases hfound : s.findEntry u v with
      | none => rwa [PackedDeltaStore.overrideFor, hfound, Option.map_none] at hself
      | some old => exact h.removeAt hfound

/-- An effect after growing the metadata is an effect with longer metadata. -/
structure GrownArcEffect (s s' : PackedDeltaStore) (u v : VertexId) (override : Option Bool) :
    Prop where
  wellFormed : s'.WellFormed
  rows_length : s'.rows.length = max s.rows.length (u + 1)
  overrideFor : ∀ w x, s'.overrideFor w x =
    if w = u ∧ x = v then override else s.overrideFor w x
  row_of_ne : ∀ w, w ≠ u → s'.row w = s.row w

/-- Growing first does not show in an effect. -/
theorem ArcEffect.grown {override : Option Bool}
    (h : ArcEffect (s.resizeVertices (u + 1)) s' u v override) :
    GrownArcEffect s s' u v override := by
  refine ⟨h.wellFormed, ?_, fun w x => ?_, fun w hw => ?_⟩
  · rw [h.rows_length, length_rows_resizeVertices]
  · rw [h.overrideFor, overrideFor_resizeVertices]
  · rw [h.row_of_ne w hw, row_resizeVertices]

/-- The override an arc gets: none when the desired presence is the compact one. -/
def desiredOverride (desiredPresent basePresent : Bool) : Option Bool :=
  if desiredPresent = basePresent then none else some desiredPresent

/-- `set` records the desired presence relative to the compact row. -/
theorem WellFormed.set (h : s.WellFormed) (desiredPresent basePresent : Bool) :
    GrownArcEffect s (s.set u v desiredPresent basePresent) u v
      (desiredOverride desiredPresent basePresent) := by
  have hgrown := h.resizeVertices (u + 1)
  have hu : u.val < (s.resizeVertices (u + 1)).rows.length := by
    rw [length_rows_resizeVertices]
    omega
  unfold PackedDeltaStore.set desiredOverride
  dsimp only
  split
  · exact hgrown.erase.grown
  · exact (hgrown.upsert hu desiredPresent).grown

/-- `setIfChanged` reports a change of the effective presence and records it like `set`. -/
theorem WellFormed.setIfChanged (h : s.WellFormed) (desiredPresent basePresent : Bool) :
    if (s.overrideFor u v).getD basePresent = desiredPresent then
      s.setIfChanged u v desiredPresent basePresent = (false, s.resizeVertices (u + 1))
    else
      (s.setIfChanged u v desiredPresent basePresent).1 = true ∧
        GrownArcEffect s (s.setIfChanged u v desiredPresent basePresent).2 u v
          (desiredOverride desiredPresent basePresent) := by
  have hgrown := h.resizeVertices (u + 1)
  have hu : u.val < (s.resizeVertices (u + 1)).rows.length := by
    rw [length_rows_resizeVertices]
    omega
  rw [← overrideFor_resizeVertices s (u + 1)]
  unfold PackedDeltaStore.setIfChanged desiredOverride
  dsimp only
  cases hfound : (s.resizeVertices (u + 1)).findEntry u v with
  | none =>
    simp only [PackedDeltaStore.overrideFor, hfound, Option.map_none, Option.getD_none]
    split
    · rfl
    · rw [if_neg (Ne.symm ‹_›), if_neg (Ne.symm ‹_›)]
      exact ⟨rfl, (hgrown.insertAt desiredPresent hu hfound).grown⟩
  | some old =>
    simp only [PackedDeltaStore.overrideFor, hfound, Option.map_some, Option.getD_some]
    split
    · rfl
    · split
      · exact ⟨rfl, (hgrown.removeAt hfound).grown⟩
      · exact ⟨rfl, (hgrown.flipAt hfound ‹_›).grown⟩

/-- A store without slices is well formed once its counters are zero. -/
theorem wellFormed_of_cells_nil (hlayout : s.Layout) (hcells : ∀ i, s.cells i = [])
    (hlive : s.liveEntries = 0) (hpresent : s.presentEntries = 0) (habsent : s.absentEntries = 0) :
    s.WellFormed ∧ ∀ u, s.row u = [] := by
  have hrow : ∀ u, s.row u = [] := fun u => (row_eq_cells s u).trans (hcells u)
  refine ⟨⟨hlayout, fun u => ?_, ?_, ?_, ?_⟩, hrow⟩
  · rw [hrow]
    exact ascending_nil
  · simp [hrow, hlive]
  · simp [hrow, hpresent]
  · simp [hrow, habsent]

/-- Clearing empties every slice. -/
theorem clear_spec (s : PackedDeltaStore) : s.clear.WellFormed ∧ ∀ u, s.clear.row u = [] := by
  have hrows : s.clear.rows = s.rows.map fun _ => {} := rfl
  obtain ⟨hlayout, hcells⟩ := layout_of_map_default hrows
  exact wellFormed_of_cells_nil hlayout hcells rfl rfl rfl

/-- A store over fresh metadata only. -/
theorem resizeVertices_empty_spec (n : ℕ) :
    (resizeVertices {} n).WellFormed ∧ ∀ u, (resizeVertices {} n).row u = [] := by
  have hcells : ∀ i, cells {} i = [] := fun i => by simp [cells, rowMeta]
  have hlayout : Layout {} :=
    ⟨fun i => by simp [rowMeta], fun i => by simp [rowMeta], fun i j _ => by simp [rowMeta]⟩
  obtain ⟨hwf, hrow⟩ := wellFormed_of_cells_nil hlayout hcells rfl rfl rfl
  refine ⟨hwf.resizeVertices n, fun u => ?_⟩
  rw [row_resizeVertices]
  exact hrow u

/-- Taking entries out of a counter one by one. -/
theorem foldl_sub_eq (entries : List Entry) (p : Entry → Bool) (n : ℕ) :
    entries.foldl (fun n e => if p e then n - 1 else n) n = n - entries.countP p := by
  induction entries generalizing n with
  | nil => simp
  | cons e rest ih =>
    rw [List.foldl_cons, ih, List.countP_cons]
    cases p e
    · simp
    · simp only [if_true]
      omega

/-- Clearing one vertex's slice. -/
theorem WellFormed.clearRow (h : s.WellFormed) (u : VertexId) :
    (s.clearRow u).WellFormed ∧ (s.clearRow u).rows.length = s.rows.length ∧
      ∀ w, (s.clearRow u).row w = if w = u then [] else s.row w := by
  have heffect := h.layout.clearRow u
  obtain ⟨hlive, hpresent, habsent⟩ := h.row_le u
  have hcells : slice s.arena (s.rowMeta u).offset (s.rowMeta u).count = s.row u :=
    (row_eq_cells s u).symm
  have hcount := h.count_eq u
  have habs : (fun n e => if (e : Entry).present then n else n - 1) =
      fun n e => if (!(e : Entry).present) then n - 1 else n := by
    funext n e
    cases e.present <;> rfl
  obtain ⟨hwf, hrow⟩ := h.of_rowEffect heffect ascending_nil
    (by
      unfold PackedDeltaStore.clearRow
      dsimp only
      split <;> simp only [List.length_nil] <;> omega)
    (by
      unfold PackedDeltaStore.clearRow
      dsimp only
      split
      · rw [List.length_eq_zero_iff.mp (hcount.symm.trans ‹_›)]
      · simp only [hcells, foldl_sub_eq, List.countP_nil]
        omega)
    (by
      unfold PackedDeltaStore.clearRow
      dsimp only
      split
      · rw [List.length_eq_zero_iff.mp (hcount.symm.trans ‹_›)]
      · simp only [hcells, habs, foldl_sub_eq, List.countP_nil]
        omega)
  exact ⟨hwf, heffect.rows_length, hrow⟩

/-- Clearing the range of a single vertex. -/
theorem WellFormed.clearRange_single (h : s.WellFormed) (u : VertexId) :
    (s.clearRange u (u + 1)).WellFormed ∧
      (s.clearRange u (u + 1)).rows.length = s.rows.length ∧
      ∀ w, (s.clearRange u (u + 1)).row w = if w = u then [] else s.row w := by
  unfold PackedDeltaStore.clearRange
  dsimp only
  by_cases hu : u.val < s.rows.length
  · rw [show min (u.val + 1) s.rows.length - u = 1 by omega]
    exact h.clearRow u
  · rw [show min (u.val + 1) s.rows.length - u = 0 by omega]
    refine ⟨h, rfl, fun w => ?_⟩
    split
    · rename_i hw
      rw [hw]
      show s.row u = []
      rw [row_eq_cells, cells_eq_nil_of_count (by rw [rowMeta_of_length_le (not_lt.mp hu)])]
    · rfl

/-- A store whose counter is zero has no live entry at all. -/
theorem WellFormed.row_eq_nil_of_empty (h : s.WellFormed) (hempty : s.liveEntries = 0)
    (u : VertexId) : s.row u = [] := by
  have := (h.row_le u).1
  exact List.length_eq_zero_iff.mp (by omega)

/-- Repacking changes no slice. -/
theorem WellFormed.repack (h : s.WellFormed) :
    s.repack.WellFormed ∧ s.repack.rows.length = s.rows.length ∧
      ∀ u, s.repack.row u = s.row u := by
  obtain ⟨hlayout, hlen, hcells⟩ := h.layout.repack
  have hrow : ∀ u, s.repack.row u = s.row u := fun u => by
    rw [row_eq_cells, hcells u fun hzero => by rw [← row_eq_cells, h.row_eq_nil_of_empty hzero],
      row_eq_cells]
  have hcounters : s.repack.liveEntries = s.liveEntries ∧
      s.repack.presentEntries = s.presentEntries ∧ s.repack.absentEntries = s.absentEntries := by
    unfold PackedDeltaStore.repack
    split <;> exact ⟨rfl, rfl, rfl⟩
  obtain ⟨hlive, hpresent, habsent⟩ := hcounters
  refine ⟨⟨hlayout, fun u => ?_, ?_, ?_, ?_⟩, hlen, hrow⟩
  · rw [hrow]
    exact h.ascending u
  · simp only [hrow, hlive, h.live_eq]
  · simp only [hrow, hpresent, h.present_eq]
  · simp only [hrow, habsent, h.absent_eq]

end VeloGraphX.PackedDeltaStore
