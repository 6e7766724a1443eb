import Mathlib
import VeloGraphX.Storage.DynamicGraph
import VeloGraphX.Storage.PackedDeltaMap
import VeloGraphX.Storage.SegmentedCsrBuild

/-!
# Effective rows of one direction

The merge of a compact row with its overlay slice is ascending and contains exactly the
targets that the overlay declares present, or leaves to the compact row. The storage
operations of one direction (row compaction, repacking, growth) keep every effective row.
-/

namespace VeloGraphX

open SortedList PointUpdate

section Merge

variable {base : List VertexId} {overlay : List Entry}

/-- Merging with an empty overlay returns the compact row. -/
@[simp] theorem mergeOverlay_nil (base : List VertexId) : mergeOverlay base [] = base := by
  induction base with
  | nil => rw [mergeOverlay]
  | cons b base ih => rw [mergeOverlay, ih]

/-- Every key behind the head of an ascending list is larger. -/
theorem ascending_cons {α K : Type*} [LinearOrder K] {key : α → K} {a : α} {rest : List α} :
    Ascending key (a :: rest) ↔ (∀ x ∈ rest, key a < key x) ∧ Ascending key rest :=
  List.pairwise_cons

/-- An overlay entry decides about its target; the compact row decides about all others. -/
theorem mem_mergeOverlay (hbase : Ascending id base) (hoverlay : Ascending Entry.dst overlay)
    (x : VertexId) :
    x ∈ mergeOverlay base overlay ↔
      (∃ e ∈ overlay, e.dst = x ∧ e.present = true) ∨
        (x ∈ base ∧ ∀ e ∈ overlay, e.dst ≠ x) := by
  induction base, overlay using mergeOverlay.induct with
  | case1 => simp
  | case2 b base ih => simp
  | case3 e overlay hpresent ih =>
    have hrest := (ascending_cons.mp hoverlay).2
    rw [mergeOverlay, if_pos hpresent, List.mem_cons, ih hbase hrest]
    grind
  | case4 e overlay hpresent ih =>
    have hrest := (ascending_cons.mp hoverlay).2
    rw [mergeOverlay, if_neg hpresent, ih hbase hrest]
    grind
  | case5 b base e overlay hlt ih =>
    obtain ⟨-, hbase'⟩ := ascending_cons.mp hbase
    have hhead := (ascending_cons.mp hoverlay).1
    have hfresh : ∀ d ∈ e :: overlay, d.dst ≠ b := fun d hd => by
      rcases List.mem_cons.mp hd with rfl | hd
      · exact ne_of_gt hlt
      · exact ne_of_gt (hlt.trans (hhead d hd))
    rw [mergeOverlay, if_pos hlt, List.mem_cons, ih hbase' hoverlay]
    grind
  | case6 b base e overlay hge hlt hpresent ih =>
    obtain ⟨hhead, hrest⟩ := ascending_cons.mp hoverlay
    have hout : e.dst ∉ b :: base := fun hmem => by
      rcases List.mem_cons.mp hmem with heq | hmem
      · exact absurd heq (ne_of_lt hlt)
      · exact absurd (hlt.trans ((ascending_cons.mp hbase).1 _ hmem)) (lt_irrefl _)
    rw [mergeOverlay, if_neg hge, if_pos hlt, if_pos hpresent, List.mem_cons, ih hbase hrest]
    grind
  | case7 b base e overlay hge hlt hpresent ih =>
    obtain ⟨hhead, hrest⟩ := ascending_cons.mp hoverlay
    have hout : e.dst ∉ b :: base := fun hmem => by
      rcases List.mem_cons.mp hmem with heq | hmem
      · exact absurd heq (ne_of_lt hlt)
      · exact absurd (hlt.trans ((ascending_cons.mp hbase).1 _ hmem)) (lt_irrefl _)
    rw [mergeOverlay, if_neg hge, if_pos hlt, if_neg hpresent, ih hbase hrest]
    grind
  | case8 b base e overlay hge hle hpresent ih =>
    have heq : e.dst = b := le_antisymm (not_lt.mp hge) (not_lt.mp hle)
    obtain ⟨hhead, hrest⟩ := ascending_cons.mp hoverlay
    obtain ⟨hb, hbase'⟩ := ascending_cons.mp hbase
    rw [mergeOverlay, if_neg hge, if_neg hle, if_pos hpresent, List.mem_cons, ih hbase' hrest]
    grind
  | case9 b base e overlay hge hle hpresent ih =>
    have heq : e.dst = b := le_antisymm (not_lt.mp hge) (not_lt.mp hle)
    obtain ⟨hhead, hrest⟩ := ascending_cons.mp hoverlay
    obtain ⟨hb, hbase'⟩ := ascending_cons.mp hbase
    have hout : b ∉ base := fun hmem => lt_irrefl b (hb b hmem)
    rw [mergeOverlay, if_neg hge, if_neg hle, if_neg hpresent, ih hbase' hrest]
    grind

/-- The merge of ascending sequences ascends. -/
theorem ascending_mergeOverlay (hbase : Ascending id base)
    (hoverlay : Ascending Entry.dst overlay) : Ascending id (mergeOverlay base overlay) := by
  have hmem : ∀ {base overlay x y}, Ascending id base → Ascending Entry.dst overlay →
      (∀ b ∈ base, y < b) → (∀ e ∈ overlay, y < e.dst) → x ∈ mergeOverlay base overlay → y < x :=
    fun hbase hoverlay hlow hlow' hx => by
      rcases (mem_mergeOverlay hbase hoverlay _).mp hx with ⟨e, he, rfl, -⟩ | ⟨hx, -⟩
      · exact hlow' e he
      · exact hlow _ hx
  induction base, overlay using mergeOverlay.induct with
  | case1 => simp
  | case2 b base ih => simpa using hbase
  | case3 e overlay hpresent ih =>
    obtain ⟨hhead, hrest⟩ := ascending_cons.mp hoverlay
    rw [mergeOverlay, if_pos hpresent]
    exact ascending_cons.mpr ⟨fun x => hmem hbase hrest (by simp) hhead, ih hbase hrest⟩
  | case4 e overlay hpresent ih =>
    rw [mergeOverlay, if_neg hpresent]
    exact ih hbase (ascending_cons.mp hoverlay).2
  | case5 b base e overlay hlt ih =>
    obtain ⟨hb, hbase'⟩ := ascending_cons.mp hbase
    have hhead := (ascending_cons.mp hoverlay).1
    rw [mergeOverlay, if_pos hlt]
    refine ascending_cons.mpr ⟨fun x => hmem hbase' hoverlay hb fun d hd => ?_, ih hbase' hoverlay⟩
    rcases List.mem_cons.mp hd with rfl | hd
    · exact hlt
    · exact hlt.trans (hhead d hd)
  | case6 b base e overlay hge hlt hpresent ih =>
    obtain ⟨hhead, hrest⟩ := ascending_cons.mp hoverlay
    have hb := (ascending_cons.mp hbase).1
    rw [mergeOverlay, if_neg hge, if_pos hlt, if_pos hpresent]
    refine ascending_cons.mpr ⟨fun x => hmem hbase hrest (fun d hd => ?_) hhead, ih hbase hrest⟩
    rcases List.mem_cons.mp hd with rfl | hd
    · exact hlt
    · exact hlt.trans (hb d hd)
  | case7 b base e overlay hge hlt hpresent ih =>
    rw [mergeOverlay, if_neg hge, if_pos hlt, if_neg hpresent]
    exact ih hbase (ascending_cons.mp hoverlay).2
  | case8 b base e overlay hge hle hpresent ih =>
    have heq : e.dst = b := le_antisymm (not_lt.mp hge) (not_lt.mp hle)
    obtain ⟨hhead, hrest⟩ := ascending_cons.mp hoverlay
    obtain ⟨hb, hbase'⟩ := ascending_cons.mp hbase
    rw [mergeOverlay, if_neg hge, if_neg hle, if_pos hpresent]
    exact ascending_cons.mpr ⟨fun x => hmem hbase' hrest hb (heq ▸ hhead), ih hbase' hrest⟩
  | case9 b base e overlay hge hle hpresent ih =>
    rw [mergeOverlay, if_neg hge, if_neg hle, if_neg hpresent]
    exact ih (ascending_cons.mp hbase).2 (ascending_cons.mp hoverlay).2

/-- An overlay that only records differences adds its present and removes its absent targets. -/
theorem length_mergeOverlay (hbase : Ascending id base) (hoverlay : Ascending Entry.dst overlay)
    (htight : ∀ e ∈ overlay, e.present = true ↔ e.dst ∉ base) :
    (mergeOverlay base overlay).length + overlay.countP (fun e => !e.present) =
      base.length + overlay.countP Entry.present := by
  induction base, overlay using mergeOverlay.induct with
  | case1 => simp
  | case2 b base ih => simp
  | case3 e overlay hpresent ih =>
    have hrest := ih hbase (ascending_cons.mp hoverlay).2
      fun d hd => htight d (List.mem_cons_of_mem _ hd)
    rw [mergeOverlay, if_pos hpresent]
    simp only [List.length_cons, List.countP_cons, hpresent, Bool.not_true, Bool.false_eq_true,
      if_true, if_false] at hrest ⊢
    omega
  | case4 e overlay hpresent ih =>
    exact absurd ((htight e List.mem_cons_self).mpr (by simp)) hpresent
  | case5 b base e overlay hlt ih =>
    obtain ⟨hb, hbase'⟩ := ascending_cons.mp hbase
    have hhead := (ascending_cons.mp hoverlay).1
    have hrest := ih hbase' hoverlay fun d hd => by
      have hd' := htight d hd
      have hne : d.dst ≠ b := by
        rcases List.mem_cons.mp hd with rfl | hd
        · exact ne_of_gt hlt
        · exact ne_of_gt (hlt.trans (hhead d hd))
      rw [hd', List.mem_cons, not_or]
      exact and_iff_right hne
    rw [mergeOverlay, if_pos hlt]
    simp only [List.length_cons] at hrest ⊢
    omega
  | case6 b base e overlay hge hlt hpresent ih =>
    have hrest := ih hbase (ascending_cons.mp hoverlay).2
      fun d hd => htight d (List.mem_cons_of_mem _ hd)
    rw [mergeOverlay, if_neg hge, if_pos hlt, if_pos hpresent]
    simp only [List.length_cons, List.countP_cons, hpresent] at hrest ⊢
    simp
    omega
  | case7 b base e overlay hge hlt hpresent ih =>
    refine absurd ((htight e List.mem_cons_self).mpr fun hmem => ?_) hpresent
    rcases List.mem_cons.mp hmem with heq | hmem
    · exact absurd heq (ne_of_lt hlt)
    · exact absurd (hlt.trans ((ascending_cons.mp hbase).1 _ hmem)) (lt_irrefl _)
  | case8 b base e overlay hge hle hpresent ih =>
    have heq : e.dst = b := le_antisymm (not_lt.mp hge) (not_lt.mp hle)
    exact absurd (heq ▸ List.mem_cons_self) ((htight e List.mem_cons_self).mp hpresent)
  | case9 b base e overlay hge hle hpresent ih =>
    have heq : e.dst = b := le_antisymm (not_lt.mp hge) (not_lt.mp hle)
    obtain ⟨hhead, hoverlay'⟩ := ascending_cons.mp hoverlay
    have hrest := ih (ascending_cons.mp hbase).2 hoverlay' fun d hd => by
      have hd' := htight d (List.mem_cons_of_mem _ hd)
      have hne : d.dst ≠ b := heq ▸ ne_of_gt (hhead d hd)
      rw [hd', List.mem_cons, not_or]
      exact and_iff_right hne
    rw [mergeOverlay, if_neg hge, if_neg hle, if_neg hpresent]
    simp only [List.length_cons, List.countP_cons, hpresent] at hrest ⊢
    simp
    omega

end Merge

/-- Normalising the dirty rows keeps exactly the rows that are listed. -/
theorem mem_normalizeDirty (rows : List VertexId) (u : VertexId) :
    u ∈ normalizeDirty rows ↔ u ∈ rows := by
  rw [normalizeDirty, mem_unique, List.mem_insertionSort]

namespace Side

variable {side side' side'' : Side} {u v : VertexId}

/-- The presence of an arc: the overlay's answer, or else the compact row's. -/
def has (side : Side) (u v : VertexId) : Bool :=
  (side.delta.overrideFor u v).getD (decide (v ∈ side.compactRow u))

/-- A well-formed overlay all of whose non-empty rows are marked dirty. -/
structure Tracked (side : Side) : Prop where
  delta : side.delta.WellFormed
  dirty : ∀ u, side.delta.row u ≠ [] → u ∈ side.dirtyRows

/-- The invariant of one direction: ascending compact rows and an exact edge total as well. -/
structure WellFormed (side : Side) : Prop extends Tracked side where
  shape : side.base.Shape
  ascending : ∀ u, Ascending id (side.compactRow u)
  compactEdges_eq : side.compactEdges = ∑ u, (side.compactRow u).length

/-- The overlay only records differences from the compact rows. -/
def Tight (side : Side) : Prop :=
  ∀ u, ∀ e ∈ side.delta.row u, e.present = true ↔ e.dst ∉ side.compactRow u

/-- The test for an empty patch table is an optimisation only. -/
theorem compactRow_eq (side : Side) (u : VertexId) :
    side.compactRow u = (side.patches[u]?).getD (side.base.row u) := by
  unfold compactRow
  split
  · rw [Std.TreeMap.getElem?_of_isEmpty ‹_›, Option.getD_none]
  · rfl

/-- `compact_neighbors` reads the compact row. -/
theorem compactNeighbors_eq (side : Side) (u : VertexId) :
    side.compactNeighbors u = side.compactRow u := (compactRow_eq side u).symm

/-- Materialising a row and enumerating it are the same merge. -/
theorem materializeRow_eq (side : Side) (u : VertexId) :
    side.materializeRow u = mergeOverlay (side.compactRow u) (side.delta.row u) := by
  unfold materializeRow
  split
  · rename_i hempty
    rw [List.isEmpty_iff.mp hempty, mergeOverlay_nil]
  · rfl

/-- A row without overlay is its compact row. -/
theorem materializeRow_of_nil (h : side.delta.row u = []) :
    side.materializeRow u = side.compactRow u := by
  rw [materializeRow_eq, h, mergeOverlay_nil]

/-- Effective rows contain exactly the arcs that are present. -/
theorem mem_materializeRow (h : side.delta.WellFormed)
    (hascending : Ascending id (side.compactRow u)) :
    v ∈ side.materializeRow u ↔ side.has u v = true := by
  rw [materializeRow_eq, mem_mergeOverlay hascending (h.ascending u), has, h.overrideFor_eq]
  cases hfound : lookup Entry.dst (side.delta.row u) v with
  | none =>
    have hnone := lookup_eq_none_iff.mp hfound
    simp only [Option.map_none, Option.getD_none, decide_eq_true_eq]
    exact ⟨fun hor => hor.elim (fun ⟨e, he, hdst, _⟩ => absurd hdst (hnone e he)) And.left,
      fun hmem => Or.inr ⟨hmem, hnone⟩⟩
  | some e =>
    obtain ⟨he, hdst⟩ := mem_of_lookup hfound
    simp only [Option.map_some, Option.getD_some]
    refine ⟨fun hor => hor.elim (fun ⟨d, hd, hddst, hpresent⟩ => ?_)
      fun ⟨_, hnone⟩ => absurd hdst (hnone e he), fun hpresent => Or.inl ⟨e, he, hdst, hpresent⟩⟩
    exact eq_of_key_eq (h.ascending u) hd he (hddst.trans hdst.symm) ▸ hpresent

/-- Effective rows ascend. -/
theorem ascending_materializeRow (h : side.delta.WellFormed)
    (hascending : Ascending id (side.compactRow u)) : Ascending id (side.materializeRow u) := by
  rw [materializeRow_eq]
  exact ascending_mergeOverlay hascending (h.ascending u)

/-- Binary search in an ascending compact row decides membership. -/
theorem compactContains_eq (hascending : Ascending id (side.compactRow u)) :
    side.compactContains u v = decide (v ∈ side.compactRow u) :=
  binarySearch_eq_decide hascending v

/-- Tightness, stated for overrides instead of entries. -/
theorem tight_iff (h : side.delta.WellFormed) : side.Tight ↔
    ∀ u v b, side.delta.overrideFor u v = some b → (b = true ↔ v ∉ side.compactRow u) := by
  refine ⟨fun ht u v b hb => ?_, fun ht u e he => ?_⟩
  · rw [h.overrideFor_eq] at hb
    obtain ⟨e, hfound, rfl⟩ := Option.map_eq_some_iff.mp hb
    obtain ⟨he, rfl⟩ := mem_of_lookup hfound
    exact ht u e he
  · refine ht u e.dst e.present ?_
    rw [h.overrideFor_eq, lookup_of_mem (h.ascending u) he, Option.map_some]

/-- A storage operation that keeps every effective row: rows stay as they are or are compacted. -/
structure Kept (side side' : Side) : Prop where
  tracked : side'.Tracked
  base : side'.base = side.base
  rows : ∀ u, (side'.delta.row u = side.delta.row u ∧ side'.compactRow u = side.compactRow u) ∨
    (side'.delta.row u = [] ∧ side'.compactRow u = side.materializeRow u)
  edges : side.compactEdges = ∑ u, (side.compactRow u).length →
    side'.compactEdges = ∑ u, (side'.compactRow u).length

/-- Doing nothing keeps every row. -/
theorem Kept.refl (h : side.Tracked) : Kept side side :=
  ⟨h, rfl, fun _ => Or.inl ⟨rfl, rfl⟩, id⟩

/-- Effective rows are the same before and after. -/
theorem Kept.materializeRow (h : Kept side side') (u : VertexId) :
    side'.materializeRow u = side.materializeRow u := by
  rcases h.rows u with ⟨hdelta, hcompact⟩ | ⟨hdelta, hcompact⟩
  · rw [materializeRow_eq, materializeRow_eq, hdelta, hcompact]
  · rw [materializeRow_of_nil hdelta, hcompact]

/-- A row without overlay stays without overlay. -/
theorem Kept.rows_nil (h : Kept side side') (hnil : side.delta.row u = []) :
    side'.delta.row u = [] := by
  rcases h.rows u with ⟨hdelta, -⟩ | ⟨hdelta, -⟩
  · exact hdelta.trans hnil
  · exact hdelta

/-- An overlay without entries reports that it is empty. -/
theorem empty_of_forall_nil (h : side.Tracked) (hnil : ∀ u, side.delta.row u = []) :
    side.delta.empty = true := by
  have hlive := h.delta.live_eq
  simp only [hnil, List.length_nil, Finset.sum_const_zero] at hlive
  rw [PackedDeltaStore.empty, hlive]
  rfl

/-- Two operations that keep every row do so one after the other. -/
theorem Kept.trans (h : Kept side side') (h' : Kept side' side'') : Kept side side'' := by
  refine ⟨h'.tracked, h'.base.trans h.base, fun u => ?_, fun hedges => h'.edges (h.edges hedges)⟩
  rcases h'.rows u with ⟨hdelta', hcompact'⟩ | ⟨hdelta', hcompact'⟩
  · rw [hdelta', hcompact']
    exact h.rows u
  · rw [hcompact', h.materializeRow]
    exact Or.inr ⟨hdelta', rfl⟩

/-- An operation that keeps every row keeps the invariant. -/
theorem Kept.wellFormed (hkept : Kept side side') (h : side.WellFormed) : side'.WellFormed := by
  refine ⟨hkept.tracked, hkept.base ▸ h.shape, fun u => ?_, hkept.edges h.compactEdges_eq⟩
  rcases hkept.rows u with ⟨-, hcompact⟩ | ⟨-, hcompact⟩
  · rw [hcompact]
    exact h.ascending u
  · rw [hcompact]
    exact ascending_materializeRow h.delta (h.ascending u)

/-- An operation that keeps every row keeps the overlay tight. -/
theorem Kept.tight (hkept : Kept side side') (h : side.Tight) : side'.Tight := by
  intro u e he
  rcases hkept.rows u with ⟨hdelta, hcompact⟩ | ⟨hdelta, -⟩
  · rw [hcompact]
    exact h u e (hdelta ▸ he)
  · rw [hdelta] at he
    exact absurd he List.not_mem_nil

/-- Every arc keeps its presence. -/
theorem Kept.has (hkept : Kept side side') (h : side.WellFormed) (u v : VertexId) :
    side'.has u v = side.has u v := by
  have h' := hkept.wellFormed h
  rw [Bool.eq_iff_iff, ← mem_materializeRow h'.delta (h'.ascending u),
    ← mem_materializeRow h.delta (h.ascending u), hkept.materializeRow]

/-- Compacting one row keeps every effective row and empties that row's overlay. -/
theorem compactOneRow_spec (h : side.Tracked) (u : VertexId) :
    Kept side (side.compactOneRow u) ∧ (side.compactOneRow u).delta.row u = [] ∧
      (side.compactOneRow u).dirtyRows = side.dirtyRows := by
  by_cases hempty : (side.delta.row u).isEmpty = true
  · rw [compactOneRow, if_pos hempty]
    exact ⟨Kept.refl h, List.isEmpty_iff.mp hempty, rfl⟩
  · obtain ⟨hdelta, -, hrows⟩ := h.delta.clearRange_single u
    have hside' : { side with
        patches := side.patches.insert u (side.materializeRow u)
        delta := side.delta.clearRange u (u + 1)
        compactEdges := side.compactEdges - (side.compactRow u).length +
          (side.materializeRow u).length } = side.compactOneRow u := by
      rw [compactOneRow, if_neg hempty]
    generalize side.compactOneRow u = side' at hside' ⊢
    have hdelta' : side'.delta = side.delta.clearRange u (u + 1) := by rw [← hside']
    have hdirty' : side'.dirtyRows = side.dirtyRows := by rw [← hside']
    have hcompact' : ∀ w, side'.compactRow w =
        if w = u then side.materializeRow u else side.compactRow w := fun w => by
      rw [compactRow_eq, compactRow_eq, ← hside']
      simp only [Std.TreeMap.getElem?_insert]
      by_cases hw : w = u
      · simp [hw]
      · rw [if_neg (by simpa using Ne.symm hw), if_neg hw]
    have hbase' : side'.base = side.base := by rw [← hside']
    have hnil : side'.delta.row u = [] := by rw [hdelta', hrows, if_pos rfl]
    refine ⟨⟨⟨hdelta' ▸ hdelta, fun w hw => ?_⟩, hbase', fun w => ?_, fun hedges => ?_⟩,
      hnil, hdirty'⟩
    · rw [hdelta', hrows] at hw
      rw [hdirty']
      split at hw
      · exact absurd rfl hw
      · exact h.dirty w hw
    · rw [hdelta', hrows, hcompact']
      by_cases hw : w = u
      · rw [if_pos hw, if_pos hw, hw]
        exact Or.inr ⟨rfl, rfl⟩
      · rw [if_neg hw, if_neg hw]
        exact Or.inl ⟨rfl, rfl⟩
    · have htotal := sum_add_eq (f := fun w => (side.compactRow w).length)
        (g := fun w => (side'.compactRow w).length) u fun w hw => by
          simp only [hcompact', if_neg hw]
      have hle := le_sum (fun w => (side.compactRow w).length) u
      have hnew : (side'.compactRow u).length = (side.materializeRow u).length := by
        rw [hcompact', if_pos rfl]
      have hedges' : side'.compactEdges = side.compactEdges - (side.compactRow u).length +
          (side.materializeRow u).length := by rw [← hside']
      omega

/-- Compacting rows one after the other empties each of their overlays. -/
theorem foldl_compactOneRow (h : side.Tracked) (rows : List VertexId) :
    Kept side (rows.foldl compactOneRow side) ∧
      (rows.foldl compactOneRow side).dirtyRows = side.dirtyRows ∧
      ∀ u ∈ rows, (rows.foldl compactOneRow side).delta.row u = [] := by
  induction rows generalizing side with
  | nil => exact ⟨Kept.refl h, rfl, fun u hu => absurd hu List.not_mem_nil⟩
  | cons w rest ih =>
    obtain ⟨hkept, hnil, hdirty⟩ := compactOneRow_spec h w
    obtain ⟨hkept', hdirty', hnil'⟩ := ih hkept.tracked
    refine ⟨hkept.trans hkept', hdirty'.trans hdirty, fun u hu => ?_⟩
    rcases List.mem_cons.mp hu with rfl | hu
    · exact hkept'.rows_nil hnil
    · exact hnil' u hu

/-- A direction whose rows all have an empty overlay needs no dirty rows. -/
theorem Kept.withDirty (hkept : Kept side side') (rows : List VertexId)
    (h : ∀ u, side'.delta.row u ≠ [] → u ∈ rows) :
    Kept side { side' with dirtyRows := rows } :=
  ⟨⟨hkept.tracked.delta, h⟩, hkept.base, hkept.rows, hkept.edges⟩

/-- Compacting the marked rows leaves no overlay at all. -/
theorem compactMarkedRows_spec (h : side.Tracked) :
    Kept side side.compactMarkedRows ∧ ∀ u, side.compactMarkedRows.delta.row u = [] := by
  obtain ⟨hkept, -, hnil⟩ := foldl_compactOneRow h (normalizeDirty side.dirtyRows)
  have hall : ∀ u, ((normalizeDirty side.dirtyRows).foldl compactOneRow side).delta.row u = [] := by
    intro u
    by_cases hu : side.delta.row u = []
    · exact hkept.rows_nil hu
    · exact hnil u ((mem_normalizeDirty _ u).mpr (h.dirty u hu))
  exact ⟨hkept.withDirty [] fun u hu => absurd (hall u) hu, hall⟩

/-- Repacking moves cells only. -/
theorem kept_repack (h : side.Tracked) :
    Kept side { side with delta := side.delta.repack } := by
  obtain ⟨hdelta, -, hrow⟩ := h.delta.repack
  exact ⟨⟨hdelta, fun u hu => h.dirty u (hrow u ▸ hu)⟩, rfl,
    fun u => Or.inl ⟨hrow u, rfl⟩, id⟩

section Heuristics

variable {D : Type} [DoubleArith D]

/-- Repacking depends on the fragmentation; either way every row is kept. -/
theorem kept_repackAbove (h : side.Tracked) (limit : D) : Kept side (side.repackAbove limit) := by
  unfold repackAbove
  split
  · exact kept_repack h
  · exact Kept.refl h

/-- Whatever the threshold, compacting dense rows keeps every row; skipped rows stay pending. -/
theorem foldl_compactDenseRow (h : side.Tracked) (threshold : D) (rows pending : List VertexId)
    (compacted : Bool) (hcover : ∀ u, side.delta.row u ≠ [] → u ∈ pending ∨ u ∈ rows) :
    Kept side (rows.foldl (compactDenseRow threshold) (side, pending, compacted)).1 ∧
      ∀ u, (rows.foldl (compactDenseRow threshold) (side, pending, compacted)).1.delta.row u ≠ [] →
        u ∈ (rows.foldl (compactDenseRow threshold) (side, pending, compacted)).2.1 := by
  induction rows generalizing side pending compacted with
  | nil => exact ⟨Kept.refl h, fun u hu => (hcover u hu).resolve_right List.not_mem_nil⟩
  | cons w rest ih =>
    rw [List.foldl_cons]
    unfold compactDenseRow
    dsimp only
    split
    · rename_i hzero
      refine ih h pending compacted fun u hu => (hcover u hu).imp_right fun hmem => ?_
      rcases List.mem_cons.mp hmem with rfl | hmem
      · exact absurd (List.length_eq_zero_iff.mp hzero) hu
      · exact hmem
    · split
      · refine ih h _ compacted fun u hu => ?_
        rcases hcover u hu with hmem | hmem
        · exact Or.inl (List.mem_append_left _ hmem)
        · rcases List.mem_cons.mp hmem with rfl | hmem
          · exact Or.inl (List.mem_append_right _ (List.mem_singleton_self _))
          · exact Or.inr hmem
      · obtain ⟨hkept, hnil, -⟩ := compactOneRow_spec h w
        obtain ⟨hkept', hcover'⟩ := ih hkept.tracked pending true fun u hu => by
          have hne : side.delta.row u ≠ [] := fun heq => hu (hkept.rows_nil heq)
          refine (hcover u hne).imp_right fun hmem => ?_
          rcases List.mem_cons.mp hmem with rfl | hmem
          · exact absurd hnil hu
          · exact hmem
        exact ⟨hkept.trans hkept', hcover'⟩

/-- Compacting dense rows keeps every effective row. -/
theorem kept_compactDenseRows (h : side.Tracked) (threshold : D) :
    Kept side (side.compactDenseRows threshold).2 := by
  obtain ⟨hkept, hcover⟩ := foldl_compactDenseRow h threshold (normalizeDirty side.dirtyRows) []
    false fun u hu => Or.inr ((mem_normalizeDirty _ u).mpr (h.dirty u hu))
  exact hkept.withDirty _ hcover

end Heuristics

/-- Growing keeps the overlay tracked. -/
theorem Tracked.resizeVertices (h : side.Tracked) (n : ℕ) : (side.resizeVertices n).Tracked :=
  ⟨h.delta.resizeVertices n, fun u hu => h.dirty u (by
    change (side.delta.resizeVertices n).row u ≠ [] at hu
    rwa [PackedDeltaStore.row_resizeVertices] at hu)⟩

/-- Growing a shaped base changes no compact row. -/
theorem compactRow_resizeVertices (h : side.base.Shape) (n : ℕ) (u : VertexId) :
    (side.resizeVertices n).compactRow u = side.compactRow u := by
  rw [compactRow_eq, compactRow_eq]
  exact congrArg _ ((h.resizeVertices n).1.row u)

/-- Growing a direction keeps its invariant. -/
theorem WellFormed.resizeVertices (h : side.WellFormed) (n : ℕ) :
    (side.resizeVertices n).WellFormed := by
  refine ⟨h.toTracked.resizeVertices n, (h.shape.resizeVertices n).1.shape, fun u => ?_, ?_⟩
  · rw [compactRow_resizeVertices h.shape]
    exact h.ascending u
  · simp only [compactRow_resizeVertices h.shape]
    exact h.compactEdges_eq

/-- Growing changes no override. -/
theorem overrideFor_resizeVertices (side : Side) (n : ℕ) (u v : VertexId) :
    (side.resizeVertices n).delta.overrideFor u v = side.delta.overrideFor u v :=
  PackedDeltaStore.overrideFor_resizeVertices _ _ _ _

/-- Growing changes no arc. -/
theorem has_resizeVertices (h : side.base.Shape) (n : ℕ) (u v : VertexId) :
    (side.resizeVertices n).has u v = side.has u v := by
  rw [has, overrideFor_resizeVertices, compactRow_resizeVertices h]
  rfl

/-- Growing keeps the overlay tight. -/
theorem Tight.resizeVertices (ht : side.Tight) (h : side.base.Shape) (n : ℕ) :
    (side.resizeVertices n).Tight := by
  intro u e he
  rw [compactRow_resizeVertices h]
  exact ht u e (PackedDeltaStore.row_resizeVertices side.delta n u ▸ he)

/-- Recording an override for one arc. -/
structure Overridden (side side' : Side) (u v : VertexId) (override : Option Bool) : Prop where
  tracked : side'.Tracked
  base : side'.base = side.base
  compactEdges : side'.compactEdges = side.compactEdges
  compactRow : ∀ w, side'.compactRow w = side.compactRow w
  overrideFor : ∀ w x, side'.delta.overrideFor w x =
    if w = u ∧ x = v then override else side.delta.overrideFor w x

/-- Marking the row of a changed arc dirty keeps the overlay tracked. -/
theorem Tracked.overridden (h : side.Tracked) {delta : PackedDeltaStore} {override : Option Bool}
    (heffect : PackedDeltaStore.GrownArcEffect side.delta delta u v override) :
    Overridden side { side with delta := delta, dirtyRows := side.dirtyRows ++ [u] } u v
      override := by
  refine ⟨⟨heffect.wellFormed, fun w hw => ?_⟩, rfl, rfl, fun w => ?_, heffect.overrideFor⟩
  · by_cases hwu : w = u
    · exact List.mem_append_right _ (List.mem_singleton.mpr hwu)
    · exact List.mem_append_left _ (h.dirty w (heffect.row_of_ne w hwu ▸ hw))
  · rfl

/-- Growing the metadata of an overlay records nothing new. -/
theorem Tracked.overridden_resizeVertices (h : side.Tracked) (n : ℕ) (u v : VertexId) :
    Overridden side { side with delta := side.delta.resizeVertices n } u v
      (side.delta.overrideFor u v) := by
  refine ⟨⟨h.delta.resizeVertices n, fun w hw => h.dirty w ?_⟩, rfl, rfl, fun w => rfl,
    fun w x => ?_⟩
  · rwa [PackedDeltaStore.row_resizeVertices] at hw
  · rw [PackedDeltaStore.overrideFor_resizeVertices]
    split
    · obtain ⟨rfl, rfl⟩ := ‹w = u ∧ x = v›
      rfl
    · rfl

/-- Recording nothing. -/
theorem Tracked.overridden_self (h : side.Tracked) (u v : VertexId) :
    Overridden side side u v (side.delta.overrideFor u v) := by
  refine ⟨h, rfl, rfl, fun w => rfl, fun w x => ?_⟩
  split
  · obtain ⟨rfl, rfl⟩ := ‹w = u ∧ x = v›
    rfl
  · rfl

/-- In a tight overlay the override of an arc is determined by its presence. -/
theorem Tight.overrideFor_eq (ht : side.Tight) (h : side.Tracked) (u v : VertexId) :
    side.delta.overrideFor u v =
      PackedDeltaStore.desiredOverride (side.has u v) (decide (v ∈ side.compactRow u)) := by
  have htight := (tight_iff h.delta).mp ht u v
  unfold has PackedDeltaStore.desiredOverride
  cases hov : side.delta.overrideFor u v with
  | none => rw [Option.getD_none, if_pos rfl]
  | some b =>
    have hb := htight b hov
    rw [Option.getD_some, if_neg]
    intro heq
    rw [heq, decide_eq_true_eq] at hb
    exact iff_not_self hb

/-- Recording an override keeps the invariant. -/
theorem Overridden.wellFormed {override : Option Bool}
    (hover : Overridden side side' u v override) (h : side.WellFormed) : side'.WellFormed := by
  refine ⟨hover.tracked, hover.base ▸ h.shape, fun w => ?_, ?_⟩
  · rw [hover.compactRow]
    exact h.ascending w
  · simp only [hover.compactRow, hover.compactEdges]
    exact h.compactEdges_eq

/-- Recording an override changes the presence of its arc only. -/
theorem Overridden.has {override : Option Bool} (hover : Overridden side side' u v override)
    (w x : VertexId) : side'.has w x =
      if w = u ∧ x = v then override.getD (decide (v ∈ side.compactRow u)) else side.has w x := by
  rw [Side.has, hover.overrideFor, hover.compactRow]
  split
  · obtain ⟨rfl, rfl⟩ := ‹w = u ∧ x = v›
    rfl
  · rfl

/-- The recorded override yields the desired presence. -/
theorem getD_desiredOverride (present base : Bool) :
    (PackedDeltaStore.desiredOverride present base).getD base = present := by
  unfold PackedDeltaStore.desiredOverride
  split
  · exact ‹present = base›.symm
  · rfl

/-- Recording the desired presence relative to the compact row keeps the overlay tight. -/
theorem Overridden.tight {present : Bool}
    (hover : Overridden side side' u v
      (PackedDeltaStore.desiredOverride present (decide (v ∈ side.compactRow u))))
    (h : side.Tracked) (ht : side.Tight) : side'.Tight := by
  rw [tight_iff hover.tracked.delta]
  intro w x b hb
  rw [hover.overrideFor] at hb
  rw [hover.compactRow]
  split at hb
  · obtain ⟨rfl, rfl⟩ := ‹w = u ∧ x = v›
    unfold PackedDeltaStore.desiredOverride at hb
    split at hb
    · exact absurd hb (by simp)
    · rename_i hne
      obtain rfl := Option.some.inj hb
      cases present <;> simpa using hne
  · exact (tight_iff h.delta).mp ht w x b hb

/-- A freshly loaded direction has no overlay. -/
theorem tracked_loadSide (side : Side) (base : SegmentedCsr) (vertices : ℕ) :
    (DynamicGraph.loadSide side base vertices).Tracked ∧
      ∀ u, (DynamicGraph.loadSide side base vertices).delta.row u = [] := by
  obtain ⟨hdelta, hnil⟩ := PackedDeltaStore.clear_spec side.delta
  have hrow : ∀ u, (DynamicGraph.loadSide side base vertices).delta.row u = [] := fun u =>
    (PackedDeltaStore.row_resizeVertices _ _ _).trans (hnil u)
  exact ⟨⟨hdelta.resizeVertices vertices, fun u hu => absurd (hrow u) hu⟩, hrow⟩

/-- Without patches the compact rows are the base rows. -/
theorem compactRow_loadSide (side : Side) (base : SegmentedCsr) (vertices : ℕ) (u : VertexId) :
    (DynamicGraph.loadSide side base vertices).compactRow u = base.row u := rfl

/-- A direction without overlay entries has exactly the compact arcs, and is tight. -/
theorem has_of_forall_nil (h : side.delta.WellFormed) (hnil : ∀ u, side.delta.row u = []) :
    side.Tight ∧ ∀ u v, side.has u v = decide (v ∈ side.compactRow u) := by
  refine ⟨fun u e he => absurd he (by rw [hnil]; exact List.not_mem_nil), fun u v => ?_⟩
  rw [has, h.overrideFor_eq, hnil]
  rfl

/-- A freshly loaded direction satisfies the invariant and has exactly the base's arcs. -/
theorem wellFormed_loadSide (side : Side) {base : SegmentedCsr} {n : ℕ}
    {arc : VertexId → VertexId → Prop} (hholds : base.Holds n arc) (vertices : ℕ) :
    (DynamicGraph.loadSide side base vertices).WellFormed ∧
      (DynamicGraph.loadSide side base vertices).Tight ∧
      ∀ u v, (DynamicGraph.loadSide side base vertices).has u v = true ↔ arc u v := by
  obtain ⟨htracked, hnil⟩ := tracked_loadSide side base vertices
  obtain ⟨htight, hhas⟩ := has_of_forall_nil htracked.delta hnil
  refine ⟨⟨htracked, hholds.shape, fun u => ?_, ?_⟩, htight, fun u v => ?_⟩
  · exact hholds.ascending u
  · exact hholds.edgeCount
  · rw [hhas, decide_eq_true_eq, compactRow_loadSide]
    exact hholds.mem_row u v

/-- The initial state of a direction: no arcs. -/
theorem wellFormed_create (vertices : ℕ) :
    (Side.resizeVertices {} vertices).WellFormed ∧ (Side.resizeVertices {} vertices).Tight ∧
      ∀ u v, (Side.resizeVertices {} vertices).has u v = false := by
  obtain ⟨hdelta, hnil⟩ := PackedDeltaStore.resizeVertices_empty_spec vertices
  have hcompact : ∀ u, (Side.resizeVertices {} vertices).compactRow u = [] := fun u => by
    rw [compactRow_resizeVertices SegmentedCsr.shape_empty]
    rfl
  obtain ⟨htight, hhas⟩ := @has_of_forall_nil (Side.resizeVertices {} vertices) hdelta hnil
  refine ⟨⟨⟨hdelta, fun u hu => absurd (hnil u) hu⟩,
    (SegmentedCsr.shape_empty.resizeVertices vertices).1.shape, fun u => ?_, ?_⟩, htight,
    fun u v => ?_⟩
  · rw [hcompact]
    exact ascending_nil
  · simp only [hcompact, List.length_nil, Finset.sum_const_zero]
    rfl
  · rw [hhas, hcompact]
    rfl

end Side

end VeloGraphX
