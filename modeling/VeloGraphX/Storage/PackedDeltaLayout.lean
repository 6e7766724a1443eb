import Mathlib
import VeloGraphX.Storage.PackedDeltaStore

/-!
# Where the live slices of the arena lie

The slices of different vertices never overlap, counting their full capacity, and every
slice lies inside the arena. Under this layout each cell-moving operation changes the
contents of the one slice it works on and of no other.
-/

namespace VeloGraphX.PackedDeltaStore

open Slice SortedList PointUpdate

/-- The live cells of an index. -/
def cells (s : PackedDeltaStore) (i : ℕ) : List Entry :=
  slice s.arena (s.rowMeta i).offset (s.rowMeta i).count

/-- Slices fit their capacity, lie inside the arena and are pairwise disjoint. -/
structure Layout (s : PackedDeltaStore) : Prop where
  count_le : ∀ i, (s.rowMeta i).count ≤ (s.rowMeta i).capacity
  inside : ∀ i, (s.rowMeta i).capacity ≠ 0 →
    (s.rowMeta i).offset + (s.rowMeta i).capacity ≤ s.arena.length
  disjoint : ∀ i j, i ≠ j → (s.rowMeta i).capacity ≠ 0 → (s.rowMeta j).capacity ≠ 0 →
    (s.rowMeta i).offset + (s.rowMeta i).capacity ≤ (s.rowMeta j).offset ∨
      (s.rowMeta j).offset + (s.rowMeta j).capacity ≤ (s.rowMeta i).offset

variable {s : PackedDeltaStore}

/-- Indices past the metadata own nothing. -/
theorem rowMeta_of_length_le {i : ℕ} (h : s.rows.length ≤ i) : s.rowMeta i = {} :=
  List.getD_eq_default _ _ h

/-- A row with entries has an entry in the table of rows. -/
theorem lt_rows_of_count_pos {i : ℕ} (h : 0 < (s.rowMeta i).count) : i < s.rows.length := by
  by_contra hout
  rw [rowMeta_of_length_le (not_lt.mp hout)] at h
  exact absurd h (Nat.not_lt_zero _)

/-- The bounds tests of `row` only skip empty slices. -/
theorem row_eq_cells (s : PackedDeltaStore) (u : VertexId) : s.row u = s.cells u := by
  unfold row cells
  split
  · rw [rowMeta_of_length_le ‹_›]
    exact (slice_zero _ _).symm
  · split
    · simp [‹(s.rowMeta u).count = 0›]
    · rfl

/-- A slice has as many cells as its metadata counts. -/
theorem Layout.length_cells (h : s.Layout) (i : ℕ) : (s.cells i).length = (s.rowMeta i).count := by
  by_cases hcap : (s.rowMeta i).capacity = 0
  · have hcount := h.count_le i
    rw [hcap, Nat.le_zero] at hcount
    simp [cells, hcount]
  · have hinside := h.inside i hcap
    have hcount := h.count_le i
    exact length_slice (by omega)

/-- A vertex that counts no entries has no cells. -/
theorem cells_eq_nil_of_count {i : ℕ} (h : (s.rowMeta i).count = 0) : s.cells i = [] := by
  simp [cells, h]

/-- Metadata after one vertex's record was replaced. -/
theorem rowMeta_of_rows_set {s' : PackedDeltaStore} {i : ℕ} {m : Row} (hi : i < s.rows.length)
    (hrows : s'.rows = s.rows.set i m) (j : ℕ) :
    s'.rowMeta j = if j = i then m else s.rowMeta j := by
  rw [rowMeta, hrows, getD_set hi, rowMeta]

/-- A layout survives replacing one record by one of the same room with a smaller count. -/
theorem Layout.of_rows_set {s' : PackedDeltaStore} (h : s.Layout) {i : ℕ} {m : Row}
    (hi : i < s.rows.length) (hrows : s'.rows = s.rows.set i m)
    (harena : s.arena.length ≤ s'.arena.length) (hcount : m.count ≤ m.capacity)
    (hinside : m.capacity ≠ 0 → m.offset + m.capacity ≤ s'.arena.length)
    (hdisj : ∀ j, j ≠ i → (s.rowMeta j).capacity ≠ 0 → m.capacity ≠ 0 →
      m.offset + m.capacity ≤ (s.rowMeta j).offset ∨
        (s.rowMeta j).offset + (s.rowMeta j).capacity ≤ m.offset) :
    s'.Layout := by
  have hmeta := rowMeta_of_rows_set hi hrows
  refine ⟨fun j => ?_, fun j => ?_, fun j k hjk => ?_⟩
  · rw [hmeta]
    split
    · exact hcount
    · exact h.count_le j
  · rw [hmeta]
    split
    · exact hinside
    · exact fun hcap => le_trans (h.inside j hcap) harena
  · rw [hmeta, hmeta]
    by_cases hj : j = i <;> by_cases hk : k = i
    · exact absurd (hj.trans hk.symm) hjk
    · rw [if_pos hj, if_neg hk]
      exact fun hcap hcap' => hdisj k hk hcap' hcap
    · rw [if_neg hj, if_pos hk]
      exact fun hcap hcap' => (hdisj j hj hcap hcap').symm
    · rw [if_neg hj, if_neg hk]
      exact h.disjoint j k hjk

/-- Growing the metadata changes no record. -/
@[simp] theorem rowMeta_resizeVertices (s : PackedDeltaStore) (n i : ℕ) :
    (s.resizeVertices n).rowMeta i = s.rowMeta i := by
  unfold resizeVertices
  split
  · exact getD_append_replicate _ _ _ _
  · rfl

/-- Growing the metadata leaves the arena alone. -/
@[simp] theorem arena_resizeVertices (s : PackedDeltaStore) (n : ℕ) :
    (s.resizeVertices n).arena = s.arena := by
  unfold resizeVertices
  split <;> rfl

/-- Growing the metadata makes room for the requested vertices. -/
theorem length_rows_resizeVertices (s : PackedDeltaStore) (n : ℕ) :
    (s.resizeVertices n).rows.length = max s.rows.length n := by
  unfold resizeVertices
  split
  · simp only [List.length_append, List.length_replicate]
    omega
  · omega

/-- Growing the metadata keeps the layout. -/
theorem Layout.resizeVertices (h : s.Layout) (n : ℕ) : (s.resizeVertices n).Layout := by
  refine ⟨fun i => ?_, fun i => ?_, fun i j => ?_⟩
  · rw [rowMeta_resizeVertices]
    exact h.count_le i
  · rw [rowMeta_resizeVertices, arena_resizeVertices]
    exact h.inside i
  · rw [rowMeta_resizeVertices, rowMeta_resizeVertices]
    exact h.disjoint i j

/-- What a relocation guarantees: room for the request and unchanged contents. -/
structure EnsuredCapacity (s s' : PackedDeltaStore) (u : ℕ) (required : ℕ) : Prop where
  layout : s'.Layout
  rows_length : s'.rows.length = s.rows.length
  capacity : required ≤ (s'.rowMeta u).capacity
  count : (s'.rowMeta u).count = (s.rowMeta u).count
  cells : ∀ i, s'.cells i = s.cells i
  live : s'.liveEntries = s.liveEntries
  present : s'.presentEntries = s.presentEntries
  absent : s'.absentEntries = s.absentEntries

/-- Relocating a slice gives it room and changes nobody's contents. -/
theorem Layout.ensureCapacity (h : s.Layout) {u : VertexId} (hu : u.val < s.rows.length)
    {required : ℕ} (hreq : (s.rowMeta u).count ≤ required) :
    EnsuredCapacity s (s.ensureCapacity u required) u required := by
  unfold PackedDeltaStore.ensureCapacity
  dsimp only
  split
  · exact ⟨h, rfl, ‹_›, rfl, fun _ => rfl, rfl, rfl, rfl⟩
  · have hroom := Nat.le_max_left required (max 1 ((s.rowMeta u).capacity * 2))
    have hlen := h.length_cells u
    simp only [PackedDeltaStore.cells] at hlen
    generalize max required (max 1 ((s.rowMeta u).capacity * 2)) = newCapacity at hroom
    generalize hs' : PackedDeltaStore.mk _ _ _ _ _ = s'
    have hrows : s'.rows = s.rows.set u ⟨s.arena.length, (s.rowMeta u).count, newCapacity⟩ := by
      rw [← hs']
    have harena : s'.arena = s.arena ++ (slice s.arena (s.rowMeta u).offset (s.rowMeta u).count ++
        List.replicate (newCapacity - (s.rowMeta u).count) default) := by
      rw [← hs', List.append_assoc]
    have hmeta := rowMeta_of_rows_set hu hrows
    have hsize : s'.arena.length = s.arena.length + newCapacity := by
      rw [harena, List.length_append, List.length_append, hlen, List.length_replicate]
      omega
    refine ⟨?_, by rw [hrows, List.length_set], ?_, ?_, fun i => ?_, by rw [← hs'],
      by rw [← hs'], by rw [← hs']⟩
    · refine h.of_rows_set hu hrows (by omega) (by simp only; omega) (fun _ => hsize.ge) ?_
      intro j hj hcap _
      exact Or.inr (h.inside j hcap)
    · rw [hmeta, if_pos rfl]
      exact hroom
    · rw [hmeta, if_pos rfl]
    · rw [PackedDeltaStore.cells, hmeta]
      split
      · rename_i hi
        rw [harena, slice_append_right, hi, PackedDeltaStore.cells]
        exact List.take_left' hlen
      · rw [harena]
        by_cases hcap : (s.rowMeta i).capacity = 0
        · have hcount := h.count_le i
          rw [hcap, Nat.le_zero] at hcount
          simp [PackedDeltaStore.cells, hcount]
        · have hcount := h.count_le i
          have hinside := h.inside i hcap
          exact slice_append _ (by omega)

/-- What an operation on one slice guarantees: its new contents, and nothing else moved. -/
structure RowEffect (s s' : PackedDeltaStore) (u : ℕ) (row' : List Entry) : Prop where
  layout : s'.Layout
  rows_length : s'.rows.length = s.rows.length
  cells : ∀ i, s'.cells i = if i = u then row' else s.cells i

/-- Two live slices keep apart, so an index outside one slice's room is found in neither. -/
theorem Layout.cells_apart (h : s.Layout) {i u : ℕ} (hiu : i ≠ u)
    (hu : (s.rowMeta u).capacity ≠ 0) (hi : (s.rowMeta i).count ≠ 0) :
    (s.rowMeta i).offset + (s.rowMeta i).count ≤ (s.rowMeta u).offset ∨
      (s.rowMeta u).offset + (s.rowMeta u).capacity ≤ (s.rowMeta i).offset := by
  have hcount := h.count_le i
  rcases h.disjoint i u hiu (by omega) hu with hbelow | habove
  · exact Or.inl (by omega)
  · exact Or.inr habove

/-- Replacing an arena by one that agrees off `u`'s room changes only `u`'s cells. -/
theorem RowEffect.of_arena {s' : PackedDeltaStore} (h : s.Layout) {u : ℕ} {m : Row}
    {row' : List Entry} (hu : u < s.rows.length) (hcap : (s.rowMeta u).capacity ≠ 0)
    (hrows : s'.rows = s.rows.set u m) (harena : s'.arena.length = s.arena.length)
    (hoffset : m.offset = (s.rowMeta u).offset) (hcapacity : m.capacity = (s.rowMeta u).capacity)
    (hcount : m.count ≤ m.capacity) (hrow : slice s'.arena m.offset m.count = row')
    (hother : ∀ offset count, offset + count ≤ (s.rowMeta u).offset ∨
      (s.rowMeta u).offset + (s.rowMeta u).capacity ≤ offset →
        slice s'.arena offset count = slice s.arena offset count) :
    RowEffect s s' u row' := by
  refine ⟨?_, by rw [hrows, List.length_set], fun i => ?_⟩
  · refine h.of_rows_set hu hrows harena.ge hcount (fun hcap' => ?_) fun j hj hcap' hcap'' => ?_
    · rw [hoffset, hcapacity, harena]
      exact h.inside u (hcapacity ▸ hcap')
    · rw [hoffset, hcapacity]
      exact (h.disjoint j u hj hcap' hcap).symm
  · rw [PackedDeltaStore.cells, rowMeta_of_rows_set hu hrows]
    split
    · exact hrow
    · by_cases hzero : (s.rowMeta i).count = 0
      · rw [hzero, slice_zero, cells_eq_nil_of_count hzero]
      · exact hother _ _ (h.cells_apart ‹_› hcap hzero)

/-- Closing a gap removes that entry from the vertex's slice. -/
theorem Layout.removeAt (h : s.Layout) {u : VertexId} {pos : ℕ} (oldPresent : Bool)
    (hpos : pos < (s.rowMeta u).count) :
    RowEffect s (s.removeAt u pos oldPresent) u ((s.cells u).eraseIdx pos) := by
  have hcount := h.count_le u
  have hinside := h.inside u (by omega)
  have hu := lt_rows_of_count_pos (Nat.zero_lt_of_lt hpos)
  refine RowEffect.of_arena h hu (by omega) rfl (length_shiftDown _ _ _ _) rfl rfl ?_ ?_ ?_
  · simp only
    omega
  · exact slice_shiftDown hpos (by omega)
  · intro offset count hdisj
    exact slice_shiftDown_of_disjoint hpos (by omega) (by omega)

/-- Overwriting an entry's presence keeps every destination. -/
theorem Layout.flipAt (h : s.Layout) {u : VertexId} {pos : ℕ} (old : Entry) (present : Bool)
    (hpos : pos < (s.rowMeta u).count) :
    RowEffect s (s.flipAt u pos old present) u
      ((s.cells u).set pos { old with present := present }) := by
  have hcount := h.count_le u
  have hinside := h.inside u (by omega)
  have hu := lt_rows_of_count_pos (Nat.zero_lt_of_lt hpos)
  have hsame : s.rows.set u (s.rowMeta u) = s.rows := by
    rw [rowMeta, List.getD_eq_getElem _ _ hu, List.set_getElem_self]
  refine RowEffect.of_arena (m := s.rowMeta u) h hu (by omega) hsame.symm
    List.length_set rfl rfl hcount ?_ ?_
  · exact slice_set hpos _
  · intro offset count hdisj
    exact slice_set_of_disjoint _ (by omega)

/-- Opening a gap inserts the entry into the vertex's slice. -/
theorem Layout.insertAt (h : s.Layout) {u v : VertexId} {pos : ℕ} (present : Bool)
    (hu : u.val < s.rows.length) (hpos : pos ≤ (s.rowMeta u).count) :
    RowEffect s (s.insertAt u v pos present) u ((s.cells u).insertIdx pos ⟨v, present⟩) := by
  have hgrown := h.ensureCapacity hu (Nat.le_add_right (s.rowMeta u).count 1)
  have hcap := hgrown.capacity
  have hcount := hgrown.count
  have hinside := hgrown.layout.inside u (by omega)
  have heffect : RowEffect (s.ensureCapacity u ((s.rowMeta u).count + 1))
      (s.insertAt u v pos present) u
      (((s.ensureCapacity u ((s.rowMeta u).count + 1)).cells u).insertIdx pos ⟨v, present⟩) := by
    refine RowEffect.of_arena hgrown.layout (by rw [hgrown.rows_length]; exact hu) (by omega) rfl
      (by simp [PackedDeltaStore.insertAt]) rfl rfl ?_ ?_ ?_
    · simp only
      omega
    · exact slice_shiftUp (by omega) (by omega) _
    · intro offset count hdisj
      exact slice_shiftUp_of_disjoint (by omega) (by omega) _ (by omega)
  refine ⟨heffect.layout, heffect.rows_length.trans hgrown.rows_length, fun i => ?_⟩
  rw [heffect.cells, hgrown.cells, hgrown.cells]

/-- Forgetting a slice empties it. -/
theorem Layout.clearRow (h : s.Layout) (u : ℕ) : RowEffect s (s.clearRow u) u [] := by
  unfold PackedDeltaStore.clearRow
  dsimp only
  split
  · refine ⟨h, rfl, fun i => ?_⟩
    split
    · rename_i hi
      rw [hi, cells_eq_nil_of_count ‹_›]
    · rfl
  · have hu : u < s.rows.length := lt_rows_of_count_pos (Nat.pos_of_ne_zero ‹_›)
    generalize hs' : PackedDeltaStore.mk _ _ _ _ _ = s'
    have hrows : s'.rows = s.rows.set u {} := by rw [← hs']
    have harena : s'.arena = s.arena := by rw [← hs']
    refine ⟨h.of_rows_set hu hrows (by rw [harena]) le_rfl (fun hcap => absurd rfl hcap)
      (fun _ _ _ hcap => absurd rfl hcap), by rw [hrows, List.length_set], fun i => ?_⟩
    rw [PackedDeltaStore.cells, rowMeta_of_rows_set hu hrows, harena]
    split
    · exact slice_zero _ _
    · rfl

/-- No slices, no room: the layout of freshly reset metadata. -/
theorem layout_of_map_default {s' : PackedDeltaStore} (hrows : s'.rows = s.rows.map fun _ => {}) :
    s'.Layout ∧ ∀ i, s'.cells i = [] := by
  have hmeta : ∀ i, s'.rowMeta i = {} := fun i => by
    rw [rowMeta, hrows, List.getD_eq_getElem?_getD, List.getElem?_map]
    cases s.rows[i]? <;> rfl
  refine ⟨⟨fun i => ?_, fun i => ?_, fun i j _ => ?_⟩, fun i => ?_⟩
  · rw [hmeta]
  · rw [hmeta]
    exact fun hcap => absurd rfl hcap
  · rw [hmeta]
    exact fun hcap => absurd rfl hcap
  · rw [PackedDeltaStore.cells, hmeta, slice_zero]

/-- Packing copies every slice to a place of its own behind what is already packed. -/
theorem packRows_spec (arena : List Entry) (rows : List Row) (packed : List Entry)
    (hslices : ∀ m ∈ rows, (slice arena m.offset m.count).length = m.count) :
    packed <+: (packRows arena rows packed).2 ∧
      (packRows arena rows packed).1.length = rows.length ∧
      ∀ i, let m := (packRows arena rows packed).1.getD i {}
        slice (packRows arena rows packed).2 m.offset m.count =
            slice arena (rows.getD i {}).offset (rows.getD i {}).count ∧
          m.count = m.capacity ∧
          (m.capacity ≠ 0 → packed.length ≤ m.offset ∧
            m.offset + m.capacity ≤ (packRows arena rows packed).2.length ∧
            ∀ j, j < i → let m' := (packRows arena rows packed).1.getD j {}
              m'.capacity ≠ 0 → m'.offset + m'.capacity ≤ m.offset) := by
  induction rows generalizing packed with
  | nil =>
    refine ⟨List.prefix_rfl, rfl, fun i => ⟨?_, rfl, fun hcap => absurd rfl hcap⟩⟩
    simp [packRows]
  | cons m rest ih =>
    have hrest : ∀ m ∈ rest, (slice arena m.offset m.count).length = m.count :=
      fun m hm => hslices m (List.mem_cons_of_mem _ hm)
    by_cases hzero : m.count = 0
    · obtain ⟨hpacked, hlen, hrows⟩ := ih packed hrest
      simp only [packRows, if_pos hzero]
      refine ⟨hpacked, by simp [hlen], fun i => ?_⟩
      cases i with
      | zero => simp [hzero]
      | succ i =>
        obtain ⟨hsame, hcount, hplace⟩ := hrows i
        simp only [List.getD_cons_succ]
        refine ⟨hsame, hcount, fun hcap => ?_⟩
        obtain ⟨hlow, hhigh, hbefore⟩ := hplace hcap
        refine ⟨hlow, hhigh, fun j hj hcap' => ?_⟩
        cases j with
        | zero => exact absurd rfl hcap'
        | succ j => exact hbefore j (by omega) hcap'
    · have hm := hslices m List.mem_cons_self
      obtain ⟨hpacked, hlen, hrows⟩ := ih (packed ++ slice arena m.offset m.count) hrest
      have hroom := hpacked.length_le
      rw [List.length_append, hm] at hroom
      simp only [packRows, if_neg hzero]
      refine ⟨(List.prefix_append _ _).trans hpacked, by simp [hlen], fun i => ?_⟩
      cases i with
      | zero =>
        refine ⟨?_, rfl, fun _ => ⟨le_rfl, hroom, fun j hj => absurd hj (Nat.not_lt_zero j)⟩⟩
        simp only [List.getD_cons_zero]
        obtain ⟨tail, htail⟩ := hpacked
        rw [← htail, List.append_assoc, slice_append_right]
        exact List.take_left' hm
      | succ i =>
        obtain ⟨hsame, hcount, hplace⟩ := hrows i
        simp only [List.getD_cons_succ]
        refine ⟨hsame, hcount, fun hcap => ?_⟩
        obtain ⟨hlow, hhigh, hbefore⟩ := hplace hcap
        rw [List.length_append, hm] at hlow
        refine ⟨by omega, hhigh, fun j hj hcap' => ?_⟩
        cases j with
        | zero => exact hlow
        | succ j => exact hbefore j (by omega) hcap'

/-- Repacking keeps a slice's contents, provided it has none in an uncounted store. -/
theorem Layout.repack (h : s.Layout) :
    s.repack.Layout ∧ s.repack.rows.length = s.rows.length ∧
      ∀ i, (s.liveEntries = 0 → s.cells i = []) → s.repack.cells i = s.cells i := by
  unfold PackedDeltaStore.repack
  split
  · rename_i hzero
    generalize hs' : PackedDeltaStore.mk _ _ _ _ _ = s'
    have hrows : s'.rows = s.rows.map fun _ => {} := by rw [← hs']
    obtain ⟨hlayout, hcells⟩ := layout_of_map_default hrows
    exact ⟨hlayout, by rw [hrows, List.length_map],
      fun i hnil => (hcells i).trans (hnil hzero).symm⟩
  · have hslices : ∀ m ∈ s.rows, (slice s.arena m.offset m.count).length = m.count := by
      intro m hm
      obtain ⟨i, hi, rfl⟩ := List.getElem_of_mem hm
      have hlen := h.length_cells i
      rwa [PackedDeltaStore.cells, rowMeta, List.getD_eq_getElem _ _ hi] at hlen
    obtain ⟨-, hlen, hrows⟩ := packRows_spec s.arena s.rows [] hslices
    refine ⟨⟨fun i => (hrows i).2.1.le, fun i hcap => ((hrows i).2.2 hcap).2.1,
      fun i j hij hcap hcap' => ?_⟩, hlen, fun i _ => (hrows i).1⟩
    rcases lt_or_gt_of_ne hij with hlt | hlt
    · exact Or.inl (((hrows j).2.2 hcap').2.2 i hlt hcap)
    · exact Or.inr (((hrows i).2.2 hcap).2.2 j hlt hcap')

end VeloGraphX.PackedDeltaStore
