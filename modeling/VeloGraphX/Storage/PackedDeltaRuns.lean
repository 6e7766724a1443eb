import Mathlib
import VeloGraphX.Storage.PackedDeltaMap

/-!
# Runs of the delta store

A sequence of calls on the store is compared with what it does to a map from arcs to presence. The
store answers as the map does and its counters count the map's entries, however its slices have been
moved about in the arena.
-/

namespace VeloGraphX

/-- The presence recorded for some of the arcs. -/
abbrev Overrides := VertexId → VertexId → Option Bool

namespace PackedDeltaStore

open Slice SortedList PointUpdate

/-- A call of the store's interface. -/
inductive Call
  | resizeVertices (vertices : ℕ)
  | set (u v : VertexId) (desiredPresent basePresent : Bool)
  | setIfChanged (u v : VertexId) (desiredPresent basePresent : Bool)
  | clearRange (first last : ℕ)
  | repack
  | clear
deriving DecidableEq

/-- One call on the store, with the answer of `set_if_changed`. -/
def exec (s : PackedDeltaStore) : Call → Option Bool × PackedDeltaStore
  | .resizeVertices vertices => (none, s.resizeVertices vertices)
  | .set u v desiredPresent basePresent => (none, s.set u v desiredPresent basePresent)
  | .setIfChanged u v desiredPresent basePresent =>
    let changed := s.setIfChanged u v desiredPresent basePresent
    (some changed.1, changed.2)
  | .clearRange first last => (none, s.clearRange first last)
  | .repack => (none, s.repack)
  | .clear => (none, s.clear)

/-- A sequence of calls, with the answers. -/
def run (s : PackedDeltaStore) : List Call → List (Option Bool) × PackedDeltaStore
  | [] => ([], s)
  | call :: rest => ((s.exec call).1 :: (run (s.exec call).2 rest).1, (run (s.exec call).2 rest).2)

end PackedDeltaStore

namespace Overrides

open PackedDeltaStore

variable (map : Overrides)

/-- Record or forget the presence of one arc. -/
def record (u v : VertexId) (override : Option Bool) : Overrides := fun w x =>
  if w = u ∧ x = v then override else map w x

/-- The presence of an arc, given its presence in the compact row. -/
def effective (u v : VertexId) (basePresent : Bool) : Bool := (map u v).getD basePresent

/-- What a call does to the map: a presence that agrees with the compact row is not recorded, and
`set_if_changed` does nothing where the effective presence is the desired one. -/
def exec : Call → Option Bool × Overrides
  | .resizeVertices _ => (none, map)
  | .set u v desiredPresent basePresent =>
    (none, map.record u v (desiredOverride desiredPresent basePresent))
  | .setIfChanged u v desiredPresent basePresent =>
    if map.effective u v basePresent = desiredPresent then (some false, map)
    else (some true, map.record u v (desiredOverride desiredPresent basePresent))
  | .clearRange first last =>
    (none, fun w x => if first ≤ w.val ∧ w.val < last then none else map w x)
  | .repack => (none, map)
  | .clear => (none, fun _ _ => none)

/-- A sequence of calls on the map, with the answers. -/
def run (map : Overrides) : List Call → List (Option Bool) × Overrides
  | [] => ([], map)
  | call :: rest => ((map.exec call).1 :: (run (map.exec call).2 rest).1, (run (map.exec call).2 rest).2)

end Overrides

namespace PackedDeltaStore

open Slice SortedList PointUpdate

variable {s s' : PackedDeltaStore} {u v : VertexId} {map : Overrides}

section Records

/-- The records of all vertices but one stay. -/
def KeepsOthers (s s' : PackedDeltaStore) (u : ℕ) : Prop := ∀ i, i ≠ u → s'.rowMeta i = s.rowMeta i

/-- Replacing one record keeps the others. -/
theorem keepsOthers_of_rows_set {u : ℕ} {m : Row} (hrows : s'.rows = s.rows.set u m) :
    KeepsOthers s s' u := fun i hi => by
  rw [rowMeta, hrows, getD_set_ne hi, rowMeta]

/-- Moving a slice keeps the records of the others. -/
theorem keepsOthers_ensureCapacity (s : PackedDeltaStore) (u : VertexId) (required : ℕ) :
    KeepsOthers s (s.ensureCapacity u required) u := by
  unfold ensureCapacity
  dsimp only
  split
  · exact fun _ _ => rfl
  · exact keepsOthers_of_rows_set rfl

/-- So does the insertion of an entry. -/
theorem keepsOthers_insertAt (s : PackedDeltaStore) (u v : VertexId) (pos : ℕ) (present : Bool) :
    KeepsOthers s (s.insertAt u v pos present) u := fun i hi =>
  (keepsOthers_of_rows_set rfl i hi).trans (keepsOthers_ensureCapacity s u _ i hi)

/-- Growing the metadata first changes none of them. -/
theorem keepsOthers_grown (h : KeepsOthers (s.resizeVertices (u + 1)) s' u) : KeepsOthers s s' u :=
  fun i hi => (h i hi).trans (rowMeta_resizeVertices s (u + 1) i)

/-- So does recording a desired presence. -/
theorem keepsOthers_set (s : PackedDeltaStore) (u v : VertexId) (desiredPresent basePresent : Bool) :
    KeepsOthers s (s.set u v desiredPresent basePresent) u := by
  refine keepsOthers_grown ?_
  unfold set
  dsimp only
  split
  · unfold erase
    repeat' split
    all_goals first | exact fun _ _ => rfl | exact keepsOthers_of_rows_set rfl
  · unfold upsert
    dsimp only
    cases (s.resizeVertices (u + 1)).findEntry u v with
    | none => exact keepsOthers_insertAt _ u v _ _
    | some old =>
      dsimp only
      split <;> exact fun _ _ => rfl

/-- And recording it with an answer. -/
theorem keepsOthers_setIfChanged (s : PackedDeltaStore) (u v : VertexId)
    (desiredPresent basePresent : Bool) :
    KeepsOthers s (s.setIfChanged u v desiredPresent basePresent).2 u := by
  refine keepsOthers_grown ?_
  unfold setIfChanged
  dsimp only
  cases (s.resizeVertices (u + 1)).findEntry u v with
  | none =>
    dsimp only
    split
    · exact fun _ _ => rfl
    · split
      · exact fun _ _ => rfl
      · exact keepsOthers_insertAt _ u v _ _
  | some old =>
    dsimp only
    split
    · exact fun _ _ => rfl
    · split
      · exact keepsOthers_of_rows_set rfl
      · exact fun _ _ => rfl

end Records

/-- The store holds the map, and no entry of a vertex beyond the ids. -/
structure Represents (s : PackedDeltaStore) (map : Overrides) : Prop where
  wellFormed : s.WellFormed
  beyond : ∀ i, 2 ^ 32 ≤ i → (s.rowMeta i).count = 0
  overrideFor : ∀ u v, s.overrideFor u v = map u v

/-- A store that has not been used holds nothing. -/
theorem represents_empty : Represents {} fun _ _ => none := by
  exact ⟨(resizeVertices_empty_spec 0).1, fun i _ => rfl, fun u v => rfl⟩

/-- Changing the override of one arc. -/
theorem Represents.record (h : s.Represents map) {override : Option Bool}
    (heffect : GrownArcEffect s s' u v override) (hothers : KeepsOthers s s' u) :
    s'.Represents (map.record u v override) := by
  refine ⟨heffect.wellFormed, fun i hi => ?_, fun w x => ?_⟩
  · rw [hothers i (by omega)]
    exact h.beyond i hi
  · rw [heffect.overrideFor, h.overrideFor]
    rfl

/-- Changing no slice. -/
theorem Represents.of_row (h : s.Represents map) (hwf : s'.WellFormed)
    (hbeyond : ∀ i, 2 ^ 32 ≤ i → (s'.rowMeta i).count = 0) (hrow : ∀ u, s'.row u = s.row u) :
    s'.Represents map := by
  refine ⟨hwf, hbeyond, fun u v => ?_⟩
  rw [hwf.overrideFor_eq, hrow, ← h.wellFormed.overrideFor_eq, h.overrideFor]

/-- Repacking. -/
theorem Represents.repack (h : s.Represents map) : s.repack.Represents map := by
  obtain ⟨hwf, -, hrow⟩ := h.wellFormed.repack
  refine h.of_row hwf (fun i hi => ?_) hrow
  have hnil : s.cells i = [] := cells_eq_nil_of_count (h.beyond i hi)
  have hcells := h.wellFormed.layout.repack.2.2 i fun _ => hnil
  rw [← hwf.layout.length_cells, hcells, hnil, List.length_nil]

/-- Clearing the slices of some indices. -/
theorem WellFormed.clearRows (h : s.WellFormed) (hbeyond : ∀ i, 2 ^ 32 ≤ i → (s.rowMeta i).count = 0)
    (indices : List ℕ) :
    (indices.foldl PackedDeltaStore.clearRow s).WellFormed ∧
      (∀ i, 2 ^ 32 ≤ i → ((indices.foldl PackedDeltaStore.clearRow s).rowMeta i).count = 0) ∧
      ∀ w : VertexId, (indices.foldl PackedDeltaStore.clearRow s).row w =
        if w.val ∈ indices then [] else s.row w := by
  induction indices generalizing s with
  | nil => exact ⟨h, hbeyond, fun w => (if_neg List.not_mem_nil).symm⟩
  | cons i rest ih =>
    by_cases hi : i < 2 ^ 32
    · obtain ⟨hwf, -, hrow⟩ := h.clearRow ⟨i, hi⟩
      have hothers : KeepsOthers s (s.clearRow i) i := by
        unfold PackedDeltaStore.clearRow
        dsimp only
        split
        · exact fun _ _ => rfl
        · exact keepsOthers_of_rows_set rfl
      obtain ⟨hwf', hbeyond', hrow'⟩ := ih hwf fun j hj => by
        rw [hothers j (by omega)]
        exact hbeyond j hj
      refine ⟨hwf', hbeyond', fun w => (hrow' w).trans ?_⟩
      rw [hrow]
      by_cases hrest : w.val ∈ rest
      · rw [if_pos hrest, if_pos (List.mem_cons_of_mem _ hrest)]
      · rw [if_neg hrest]
        refine if_congr ?_ rfl rfl
        rw [Fin.ext_iff, List.mem_cons, or_iff_left hrest]
    · have hself : s.clearRow i = s := if_pos (hbeyond i (not_lt.mp hi))
      rw [List.foldl_cons, hself]
      obtain ⟨hwf', hbeyond', hrow'⟩ := ih h hbeyond
      refine ⟨hwf', hbeyond', fun w => (hrow' w).trans ?_⟩
      have hw : w.val ≠ i := by omega
      exact if_congr (by rw [List.mem_cons, or_iff_right hw]) rfl rfl

/-- Clearing a range forgets the entries of its vertices. -/
theorem Represents.clearRange (h : s.Represents map) (first last : ℕ) :
    (s.clearRange first last).Represents fun w x =>
      if first ≤ w.val ∧ w.val < last then none else map w x := by
  obtain ⟨hwf, hbeyond, hrow⟩ := h.wellFormed.clearRows h.beyond
    (List.range' first (min last s.rows.length - first))
  refine ⟨hwf, hbeyond, fun w x => ?_⟩
  have heq : (s.clearRange first last).overrideFor w x =
      (lookup Entry.dst ((s.clearRange first last).row w) x).map Entry.present :=
    hwf.overrideFor_eq w x
  have hcleared : (s.clearRange first last).row w = if w.val ∈
      List.range' first (min last s.rows.length - first) then [] else s.row w := hrow w
  have hmem : w.val ∈ List.range' first (min last s.rows.length - first) ↔
      first ≤ w.val ∧ w.val < first + (min last s.rows.length - first) := List.mem_range'_1
  rw [heq, hcleared]
  by_cases hin : first ≤ w.val ∧ w.val < last
  · rw [if_pos hin]
    by_cases hold : w.val < s.rows.length
    · rw [if_pos (hmem.mpr (by omega))]
      rfl
    · rw [if_neg fun h => by have := hmem.mp h; omega, row_eq_cells,
        cells_eq_nil_of_count (by rw [rowMeta_of_length_le (not_lt.mp hold)])]
      rfl
  · rw [if_neg hin, if_neg fun h => by have := hmem.mp h; omega, ← h.wellFormed.overrideFor_eq,
      h.overrideFor]

/-- Growing the metadata. -/
theorem Represents.resizeVertices (h : s.Represents map) (vertices : ℕ) :
    (s.resizeVertices vertices).Represents map := by
  refine h.of_row (h.wellFormed.resizeVertices vertices) (fun i hi => ?_)
    (row_resizeVertices s vertices)
  rw [rowMeta_resizeVertices]
  exact h.beyond i hi

/-- Clearing everything. -/
theorem represents_clear (s : PackedDeltaStore) : s.clear.Represents fun _ _ => none := by
  obtain ⟨hwf, hrow⟩ := clear_spec s
  have hrows : s.clear.rows = s.rows.map fun _ => {} := rfl
  obtain ⟨hlayout, hcells⟩ := layout_of_map_default hrows
  refine ⟨hwf, fun i _ => ?_, fun u v => ?_⟩
  · rw [← hlayout.length_cells, hcells, List.length_nil]
  · rw [hwf.overrideFor_eq, hrow]
    rfl

/-- `set_if_changed` answers and records as the map does. -/
theorem Represents.setIfChanged (h : s.Represents map) (u v : VertexId)
    (desiredPresent basePresent : Bool) :
    some (s.setIfChanged u v desiredPresent basePresent).1 =
        (map.exec (.setIfChanged u v desiredPresent basePresent)).1 ∧
      (s.setIfChanged u v desiredPresent basePresent).2.Represents
        (map.exec (.setIfChanged u v desiredPresent basePresent)).2 := by
  have hothers := keepsOthers_setIfChanged s u v desiredPresent basePresent
  have hspec := @WellFormed.setIfChanged s u v h.wellFormed desiredPresent basePresent
  rw [h.overrideFor] at hspec
  unfold Overrides.exec Overrides.effective
  dsimp only
  split at hspec
  · rename_i hsame
    rw [if_pos hsame, hspec]
    exact ⟨rfl, h.resizeVertices (u + 1)⟩
  · rename_i hdiffer
    rw [if_neg hdiffer]
    exact ⟨congrArg some hspec.1, h.record hspec.2 hothers⟩

/-- Every call answers and acts as on the map. -/
theorem Represents.exec (h : s.Represents map) (call : Call) :
    (s.exec call).1 = (map.exec call).1 ∧ (s.exec call).2.Represents (map.exec call).2 := by
  cases call with
  | resizeVertices vertices => exact ⟨rfl, h.resizeVertices vertices⟩
  | set u v desiredPresent basePresent =>
    exact ⟨rfl, h.record (h.wellFormed.set desiredPresent basePresent)
      (keepsOthers_set s u v desiredPresent basePresent)⟩
  | setIfChanged u v desiredPresent basePresent =>
    exact h.setIfChanged u v desiredPresent basePresent
  | clearRange first last => exact ⟨rfl, h.clearRange first last⟩
  | repack => exact ⟨rfl, h.repack⟩
  | clear => exact ⟨rfl, represents_clear s⟩

/-- So does every sequence of calls. -/
theorem Represents.run (h : s.Represents map) (calls : List Call) :
    (s.run calls).1 = (map.run calls).1 ∧ (s.run calls).2.Represents (map.run calls).2 := by
  induction calls generalizing s map with
  | nil => exact ⟨rfl, h⟩
  | cons call rest ih =>
    obtain ⟨hanswer, hnext⟩ := h.exec call
    obtain ⟨hanswers, hlast⟩ := ih hnext
    refine ⟨?_, hlast⟩
    rw [PackedDeltaStore.run, Overrides.run, hanswer, hanswers]

/-- The store is the map: its slices are ascending, hold the map's entries, lie inside the arena and
keep apart with all their room, and its counters count the entries. -/
structure Stores (s : PackedDeltaStore) (map : Overrides) : Prop where
  overrideFor : ∀ u v, s.overrideFor u v = map u v
  ascending : ∀ u, (s.row u).Pairwise fun a b => a.dst < b.dst
  mem_row : ∀ u e, e ∈ s.row u ↔ map u e.dst = some e.present
  count_le : ∀ i, (s.rowMeta i).count ≤ (s.rowMeta i).capacity
  inside : ∀ i, (s.rowMeta i).capacity ≠ 0 →
    (s.rowMeta i).offset + (s.rowMeta i).capacity ≤ s.arena.length
  disjoint : ∀ i j, i ≠ j → (s.rowMeta i).capacity ≠ 0 → (s.rowMeta j).capacity ≠ 0 →
    (s.rowMeta i).offset + (s.rowMeta i).capacity ≤ (s.rowMeta j).offset ∨
      (s.rowMeta j).offset + (s.rowMeta j).capacity ≤ (s.rowMeta i).offset
  size : s.size = {arc : VertexId × VertexId | map arc.1 arc.2 ≠ none}.ncard
  additions : s.additions = {arc : VertexId × VertexId | map arc.1 arc.2 = some true}.ncard
  deletions : s.deletions = {arc : VertexId × VertexId | map arc.1 arc.2 = some false}.ncard

/-- An entry of a slice is an entry of the map. -/
theorem Represents.mem_row (h : s.Represents map) (u : VertexId) (e : Entry) :
    e ∈ s.row u ↔ map u e.dst = some e.present := by
  have hascending := h.wellFormed.ascending u
  rw [← h.overrideFor, h.wellFormed.overrideFor_eq, Option.map_eq_some_iff]
  constructor
  · exact fun he => ⟨e, lookup_of_mem hascending he, rfl⟩
  · rintro ⟨e', hlookup, hpresent⟩
    obtain ⟨hmem, hdst⟩ := mem_of_lookup hlookup
    cases e
    cases e'
    subst hdst hpresent
    exact hmem

/-- The entries of the slices with some property are as many as the map's. -/
theorem Represents.ncard_eq (h : s.Represents map) (p : Entry → Bool)
    {entries : Set (VertexId × VertexId)} (hentries : ∀ arc, arc ∈ entries ↔
      ∃ present, map arc.1 arc.2 = some present ∧ p ⟨arc.2, present⟩ = true) :
    ∑ u, (s.row u).countP p = entries.ncard := by
  have hrows : entries = {arc | arc.2 ∈ ((s.row arc.1).filter p).map Entry.dst} := by
    ext arc
    rw [hentries, Set.mem_ofPred_eq, List.mem_map]
    constructor
    · rintro ⟨present, hmap, hp⟩
      exact ⟨⟨arc.2, present⟩, List.mem_filter.mpr ⟨(h.mem_row arc.1 _).mpr hmap, hp⟩, rfl⟩
    · rintro ⟨e, he, hdst⟩
      obtain ⟨hmem, hp⟩ := List.mem_filter.mp he
      exact ⟨e.present, hdst ▸ (h.mem_row arc.1 e).mp hmem, hdst ▸ hp⟩
  rw [hrows, ncard_rows fun u => ((s.row u).filter p).map Entry.dst]
  · exact Finset.sum_congr rfl fun u _ => by rw [List.length_map, List.countP_eq_length_filter]
  · intro u
    exact (List.pairwise_map.mpr ((h.wellFormed.ascending u).filter p)).imp ne_of_lt

/-- A store that represents a map stores it. -/
theorem Represents.stores (h : s.Represents map) : s.Stores map := by
  refine ⟨h.overrideFor, h.wellFormed.ascending, h.mem_row, h.wellFormed.layout.count_le,
    h.wellFormed.layout.inside, h.wellFormed.layout.disjoint, ?_, ?_, ?_⟩
  · rw [size, h.wellFormed.live_eq, ← h.ncard_eq (fun _ => true) fun arc => by
      simp [Option.ne_none_iff_exists']]
    exact Finset.sum_congr rfl fun u _ => (congrFun List.countP_true (s.row u)).symm
  · rw [additions, h.wellFormed.present_eq]
    exact h.ncard_eq Entry.present fun arc => by simp
  · rw [deletions, h.wellFormed.absent_eq]
    exact h.ncard_eq (fun e => !e.present) fun arc => by simp

/-- What is recorded for an arc makes the desired presence its effective one. -/
theorem effective_record (map : Overrides) (u v : VertexId) (desiredPresent basePresent : Bool) :
    (map.record u v (desiredOverride desiredPresent basePresent)).effective u v basePresent =
      desiredPresent := by
  unfold Overrides.effective Overrides.record desiredOverride
  rw [if_pos ⟨rfl, rfl⟩]
  split
  · exact Eq.symm ‹_›
  · rfl

/-- `set_if_changed` says whether the effective presence changes, and makes it the desired one. -/
theorem effective_setIfChanged (map : Overrides) (u v : VertexId)
    (desiredPresent basePresent : Bool) :
    let after := map.exec (.setIfChanged u v desiredPresent basePresent)
    (after.1 = some true ↔
        after.2.effective u v basePresent ≠ map.effective u v basePresent) ∧
      after.2.effective u v basePresent = desiredPresent := by
  unfold Overrides.exec
  dsimp only
  split
  · rename_i hsame
    exact ⟨by simp, hsame⟩
  · rename_i hdiffer
    have heffective := effective_record map u v desiredPresent basePresent
    rw [heffective]
    exact ⟨iff_of_true rfl (Ne.symm hdiffer), rfl⟩

/-- After any calls on a new store it is the map that the calls make, and it has answered as the map
does. `set_if_changed` then says whether the effective presence of its arc changes, and makes it
what `set` would make it. -/
theorem run_stores (calls : List Call) :
    let store := PackedDeltaStore.run {} calls
    let map := Overrides.run (fun _ _ => none) calls
    store.1 = map.1 ∧ store.2.Stores map.2 ∧
      ∀ (u v : VertexId) (desiredPresent basePresent : Bool),
        let changed := store.2.setIfChanged u v desiredPresent basePresent
        let recorded := store.2.set u v desiredPresent basePresent
        (changed.1 = true ↔ (changed.2.overrideFor u v).getD basePresent ≠
          (store.2.overrideFor u v).getD basePresent) ∧
        (changed.2.overrideFor u v).getD basePresent =
          (recorded.overrideFor u v).getD basePresent := by
  intro store map
  obtain ⟨hanswers, hrepresents⟩ := represents_empty.run calls
  refine ⟨hanswers, hrepresents.stores, fun u v desiredPresent basePresent => ?_⟩
  obtain ⟨hanswer, hchanged⟩ := hrepresents.setIfChanged u v desiredPresent basePresent
  obtain ⟨-, hrecorded⟩ := hrepresents.exec (.set u v desiredPresent basePresent)
  obtain ⟨hiff, heffective⟩ := effective_setIfChanged map.2 u v desiredPresent basePresent
  have hset := effective_record map.2 u v desiredPresent basePresent
  have hanswer' : (store.2.setIfChanged u v desiredPresent basePresent).1 = true ↔
      (map.2.exec (.setIfChanged u v desiredPresent basePresent)).1 = some true := by
    rw [← hanswer, Option.some.injEq]
  have hafter := hchanged.overrideFor u v
  have hset' := hrecorded.overrideFor u v
  have hbefore := hrepresents.overrideFor u v
  dsimp only
  rw [hanswer', hiff]
  exact ⟨by rw [hafter, hbefore]; rfl, (congrArg (Option.getD · basePresent) hafter).trans
    (heffective.trans (hset.symm.trans (congrArg (Option.getD · basePresent) hset').symm))⟩

end PackedDeltaStore

end VeloGraphX
