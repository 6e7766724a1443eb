import Mathlib

/-!
# Functions and sums changed at one point

Storage operations change one row, one counter or one label at a time. These lemmas state
what such a change does to a total over a finite index type and to a list used as an array.
-/

namespace PointUpdate

/-- A total changes by exactly the difference at the one index that changed. -/
theorem sum_add_eq {ι : Type*} [Fintype ι] [DecidableEq ι] {f g : ι → ℕ} (i : ι)
    (h : ∀ j, j ≠ i → g j = f j) : ∑ j, g j + f i = ∑ j, f j + g i := by
  have hrest : ∑ j ∈ Finset.univ.erase i, g j = ∑ j ∈ Finset.univ.erase i, f j :=
    Finset.sum_congr rfl fun j hj => h j (Finset.ne_of_mem_erase hj)
  have hf := Finset.add_sum_erase _ f (Finset.mem_univ i)
  have hg := Finset.add_sum_erase _ g (Finset.mem_univ i)
  omega

/-- A single term is at most the total. -/
theorem le_sum {ι : Type*} [Fintype ι] (f : ι → ℕ) (i : ι) : f i ≤ ∑ j, f j :=
  Finset.single_le_sum (fun _ _ => Nat.zero_le _) (Finset.mem_univ i)

/-- The pairs listed row by row are as many as the rows have entries. -/
theorem ncard_rows {ι κ : Type*} [Fintype ι] (rows : ι → List κ) (hnodup : ∀ i, (rows i).Nodup) :
    {p : ι × κ | p.2 ∈ rows p.1}.ncard = ∑ i, (rows i).length := by
  classical
  have himage : {p : ι × κ | p.2 ∈ rows p.1} =
      Equiv.sigmaEquivProd ι κ '' ↑(Finset.univ.sigma fun i => (rows i).toFinset) := by
    refine Set.ext fun ⟨i, k⟩ => ⟨fun hk => ⟨⟨i, k⟩, ?_, rfl⟩, fun ⟨⟨j, l⟩, hl, heq⟩ => ?_⟩
    · simpa using hk
    · obtain ⟨rfl, rfl⟩ := Prod.mk.inj heq
      simpa using hl
  rw [himage, Set.ncard_image_of_injective _ (Equiv.injective _), Set.ncard_coe_finset,
    Finset.card_sigma]
  exact Finset.sum_congr rfl fun i _ => List.toFinset_card_of_nodup (hnodup i)

/-- Blocks listed in the order of their numbers, where the numbers that are left out have none. -/
theorem length_flatMap_range {β : Type*} {N n : ℕ} [NeZero N] (hn : n ≤ N)
    (block : Fin N → List β) (hnil : ∀ i : Fin N, n ≤ i.val → block i = []) :
    ((List.range n).flatMap fun i => block (Fin.ofNat N i)).length = ∑ i, (block i).length := by
  have hrange : ∀ m, ((List.range m).map fun i => (block (Fin.ofNat N i)).length).sum =
      ∑ i ∈ Finset.range m, (block (Fin.ofNat N i)).length := fun m => by
    induction m with
    | zero => rfl
    | succ m ih => rw [List.range_succ, List.map_append, List.sum_append, ih,
        Finset.sum_range_succ, List.map_singleton, List.sum_singleton]
  have hcast : ∀ i : Fin N, Fin.ofNat N i.val = i := fun i => Fin.ext (Nat.mod_eq_of_lt i.isLt)
  calc ((List.range n).flatMap fun i => block (Fin.ofNat N i)).length
      = ∑ i ∈ Finset.range n, (block (Fin.ofNat N i)).length := by
        rw [List.length_flatMap, ← hrange]
    _ = ∑ i ∈ Finset.range N, (block (Fin.ofNat N i)).length := by
        refine Finset.sum_subset (Finset.range_subset_range.mpr hn) fun i hi hout => ?_
        rw [Finset.mem_range] at hi hout
        rw [hnil, List.length_nil]
        rw [Fin.val_ofNat, Nat.mod_eq_of_lt hi]
        exact not_lt.mp hout
    _ = ∑ i : Fin N, (block (Fin.ofNat N i.val)).length :=
        (Fin.sum_univ_eq_sum_range (fun i => (block (Fin.ofNat N i)).length) N).symm
    _ = ∑ i, (block i).length := by simp only [hcast]

variable {α : Type*}

/-- Reading an array cell after a write to a valid position. -/
theorem getD_set {cells : List α} {i : ℕ} (hi : i < cells.length) (a d : α) (j : ℕ) :
    (cells.set i a).getD j d = if j = i then a else cells.getD j d := by
  rw [List.getD_eq_getElem?_getD, List.getD_eq_getElem?_getD, List.getElem?_set]
  by_cases hji : j = i
  · subst hji
    simp [hi]
  · rw [if_neg (Ne.symm hji), if_neg hji]

/-- A write updates the map from indices to cells at one index, whatever the defaults are. -/
theorem getD_set_update {N : ℕ} {cells : List α} {i : Fin N} (hi : i.val < cells.length) (a : α)
    (d : Fin N → α) :
    (fun j : Fin N => (cells.set i a).getD j (d j)) =
      Function.update (fun j : Fin N => cells.getD j (d j)) i a := by
  funext j
  rw [getD_set hi]
  by_cases hji : j = i
  · rw [if_pos (congrArg Fin.val hji), hji, Function.update_self]
  · rw [if_neg fun heq => hji (Fin.ext heq), Function.update_of_ne hji]

/-- Reading an array cell that a write did not touch. -/
theorem getD_set_ne {cells : List α} {i j : ℕ} (h : j ≠ i) (a d : α) :
    (cells.set i a).getD j d = cells.getD j d := by
  rw [List.getD_eq_getElem?_getD, List.getD_eq_getElem?_getD, List.getElem?_set_ne (Ne.symm h)]

/-- The total of an array changes by the difference at the cell that is written. -/
theorem sum_set {cells : List ℕ} {i : ℕ} (hi : i < cells.length) (a : ℕ) :
    (cells.set i a).sum + cells.getD i 0 = cells.sum + a := by
  induction cells generalizing i with
  | nil => exact absurd hi (Nat.not_lt_zero i)
  | cons x rest ih =>
    cases i with
    | zero =>
      simp only [List.set_cons_zero, List.sum_cons, List.getD_cons_zero]
      omega
    | succ i =>
      have hrest := ih (i := i) (Nat.lt_of_succ_lt_succ hi)
      simp only [List.set_cons_succ, List.sum_cons, List.getD_cons_succ]
      omega

/-- A total over the entries of a list changes by the difference at the entry that is replaced. -/
theorem sum_map_set {xs : List α} {i : ℕ} {x : α} (h : xs[i]? = some x) (y : α) (f : α → ℕ) :
    ((xs.set i y).map f).sum + f x = (xs.map f).sum + f y := by
  have hi : i < (xs.map f).length := by
    rw [List.length_map]
    exact (List.getElem?_eq_some_iff.mp h).1
  have hread : (xs.map f).getD i 0 = f x := by
    rw [List.getD_eq_getElem?_getD, List.getElem?_map, h, Option.map_some, Option.getD_some]
  rw [List.map_set, ← hread]
  exact sum_set hi (f y)

/-- A tally that takes the entries of a list in any order is what one entry adds to the tally of
the others, and so is the tally after that entry is replaced. -/
theorem foldr_split {T : Type*} {add : T → α → T}
    (comm : ∀ t x y, add (add t x) y = add (add t y) x) (z : T) {xs : List α} {i : ℕ} {x : α}
    (h : xs[i]? = some x) :
    ∃ rest, xs.foldr (fun a t => add t a) z = add rest x ∧
      ∀ y, (xs.set i y).foldr (fun a t => add t a) z = add rest y := by
  induction xs generalizing i with
  | nil => exact absurd h nofun
  | cons a others ih =>
    cases i with
    | zero =>
      obtain rfl := Option.some.inj h
      exact ⟨others.foldr (fun a t => add t a) z, rfl, fun y => rfl⟩
    | succ i =>
      obtain ⟨rest, hold, hnew⟩ := ih (i := i) h
      refine ⟨add rest a, ?_, fun y => ?_⟩
      · exact (congrArg (add · a) hold).trans (comm rest x a)
      · exact (congrArg (add · a) (hnew y)).trans (comm rest y a)

/-- One entry of a list adds its own part to a total, and any replacement adds its own. -/
theorem sum_map_split {xs : List α} {i : ℕ} {x : α} (h : xs[i]? = some x) (f : α → ℕ) :
    ∃ rest, (xs.map f).sum = rest + f x ∧ ∀ y, ((xs.set i y).map f).sum = rest + f y := by
  have hle : f x ≤ (xs.map f).sum :=
    List.le_sum_of_mem (List.mem_map_of_mem (List.mem_of_getElem? h))
  refine ⟨(xs.map f).sum - f x, by omega, fun y => ?_⟩
  have hset := sum_map_set h y f
  omega

/-- The members of a list of blocks change by the block that is replaced, up to order. -/
theorem flatMap_set_perm {β : Type*} {xs : List α} {i : ℕ} {x : α} (h : xs[i]? = some x) (y : α)
    (block : α → List β) :
    ((xs.set i y).flatMap block ++ block x).Perm (xs.flatMap block ++ block y) := by
  induction xs generalizing i with
  | nil => exact absurd h nofun
  | cons a rest ih =>
    cases i with
    | zero =>
      obtain rfl := Option.some.inj h
      simp only [List.set_cons_zero, List.flatMap_cons]
      have hswap : (rest.flatMap block ++ block a).Perm (block a ++ rest.flatMap block) :=
        List.perm_append_comm
      rw [List.append_assoc]
      exact List.perm_append_comm.trans (hswap.append_right _)
    | succ i =>
      simp only [List.set_cons_succ, List.flatMap_cons, List.append_assoc]
      exact (ih h).append_left _

/-- The members of a list of blocks change by the block that is replaced. -/
theorem count_flatMap_set {β : Type*} [DecidableEq β] {xs : List α} {i : ℕ} {x : α}
    (h : xs[i]? = some x) (y : α) (block : α → List β) (b : β) :
    ((xs.set i y).flatMap block).count b + (block x).count b =
      (xs.flatMap block).count b + (block y).count b := by
  rw [List.count_flatMap, List.count_flatMap]
  exact sum_map_set h y fun a => (block a).count b

/-- Growing an array by default cells does not change what is read. -/
theorem getD_append_replicate (cells : List α) (extra : ℕ) (d : α) (j : ℕ) :
    (cells ++ List.replicate extra d).getD j d = cells.getD j d := by
  by_cases hj : j < cells.length
  · rw [List.getD_append _ _ _ _ hj]
  · rw [List.getD_append_right _ _ _ _ (by omega), List.getD_eq_default cells _ (by omega),
      List.getD_eq_getElem?_getD, List.getElem?_replicate]
    split <;> rfl

/-- `std::vector::resize` with a fill value. -/
def resize (cells : List α) (size : ℕ) (fill : α) : List α :=
  cells.take size ++ List.replicate (size - cells.length) fill

/-- A resized array has the requested size. -/
@[simp] theorem length_resize (cells : List α) (size : ℕ) (fill : α) :
    (resize cells size fill).length = size := by
  simp only [resize, List.length_append, List.length_take, List.length_replicate]
  omega

/-- Reading a cell after growing the array. -/
theorem getD_resize {cells : List α} {size : ℕ} (h : cells.length ≤ size) (fill d : α) (i : ℕ) :
    (resize cells size fill).getD i d =
      if i < cells.length then cells.getD i d else if i < size then fill else d := by
  rw [resize, List.take_of_length_le h]
  by_cases hi : i < cells.length
  · rw [if_pos hi, List.getD_append _ _ _ _ hi]
  · rw [if_neg hi, List.getD_append_right _ _ _ _ (by omega), List.getD_eq_getElem?_getD,
      List.getElem?_replicate]
    by_cases hsize : i < size
    · rw [if_pos hsize, if_pos (by omega), Option.getD_some]
    · rw [if_neg hsize, if_neg (by omega), Option.getD_none]

/-- Writes to the cells of an array, one after the other, keep its size. -/
theorem length_foldl_set {β : Type*} (index : β → ℕ) (update : List α → β → α) (cells : List α)
    (ops : List β) :
    (ops.foldl (fun cells op => cells.set (index op) (update cells op)) cells).length =
      cells.length := by
  induction ops generalizing cells with
  | nil => rfl
  | cons op rest ih => rw [List.foldl_cons, ih, List.length_set]

/-- Operations that each rewrite one cell act on a cell only through those addressed to it. -/
theorem getD_foldl_set {β : Type*} (index : β → ℕ) (update : α → β → α) (d : α) (cells : List α)
    (ops : List β) (i : ℕ) (hi : i < cells.length) :
    (ops.foldl (fun cells op =>
        cells.set (index op) (update (cells.getD (index op) d) op)) cells).getD i d =
      (ops.filter fun op => decide (index op = i)).foldl update (cells.getD i d) := by
  induction ops generalizing cells with
  | nil => rfl
  | cons op rest ih =>
    rw [List.foldl_cons, ih _ (by rw [List.length_set]; exact hi)]
    by_cases hop : index op = i
    · rw [List.filter_cons_of_pos (by simpa using hop), List.foldl_cons, hop, getD_set hi,
        if_pos rfl]
    · rw [List.filter_cons_of_neg (by simpa using hop), getD_set_ne (Ne.symm hop)]

end PointUpdate
