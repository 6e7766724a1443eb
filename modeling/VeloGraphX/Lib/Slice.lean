import Mathlib

/-!
# Slices of a shared array

A slice is a run of consecutive cells of an array. The two shifting loops that open and
close a gap in place are written as the cell-by-cell copies they are, and are shown to
insert into or remove from the slice they work on and to leave every other cell alone.
-/

namespace Slice

variable {α : Type*}

/-- The `count` cells from position `offset` on. -/
def slice (cells : List α) (offset count : ℕ) : List α := (cells.drop offset).take count

/-- Cells of a slice are cells of the array. -/
theorem getElem?_slice (cells : List α) (offset count i : ℕ) :
    (slice cells offset count)[i]? = if i < count then cells[offset + i]? else none := by
  simp [slice, List.getElem?_take]

/-- A slice inside the array has its full length. -/
theorem length_slice {cells : List α} {offset count : ℕ} (h : offset + count ≤ cells.length) :
    (slice cells offset count).length = count := by
  simp only [slice, List.length_take, List.length_drop]
  omega

/-- An empty slice. -/
@[simp] theorem slice_zero (cells : List α) (offset : ℕ) : slice cells offset 0 = [] := by
  simp [slice]

/-- Arrays that agree on a slice's cells have the same slice. -/
theorem slice_congr {cells cells' : List α} {offset offset' count : ℕ}
    (h : ∀ i < count, cells[offset + i]? = cells'[offset' + i]?) :
    slice cells offset count = slice cells' offset' count := by
  apply List.ext_getElem?
  intro i
  rw [getElem?_slice, getElem?_slice]
  split
  · exact h i ‹_›
  · rfl

/-- Appended cells do not disturb a slice of the old array. -/
theorem slice_append {cells : List α} {offset count : ℕ} (extra : List α)
    (h : offset + count ≤ cells.length) :
    slice (cells ++ extra) offset count = slice cells offset count :=
  slice_congr fun i hi => List.getElem?_append_left (by omega)

/-- Reading a slice back out of a concatenation. -/
theorem slice_append_right (cells extra : List α) (count : ℕ) :
    slice (cells ++ extra) cells.length count = extra.take count := by
  simp [slice]

variable [Inhabited α]

/-- Copy every cell after `pos` one place down, up to the end of the slice. -/
def shiftDown (cells : List α) (offset pos count : ℕ) : List α :=
  (List.range' (pos + 1) (count - (pos + 1))).foldl
    (fun cells i => cells.set (offset + i - 1) (cells.getD (offset + i) default)) cells

/-- Copy every cell from the end of the slice down to `pos` one place up. -/
def shiftUp (cells : List α) (offset pos count : ℕ) : List α :=
  (List.range' (pos + 1) (count - pos)).reverse.foldl
    (fun cells i => cells.set (offset + i) (cells.getD (offset + i - 1) default)) cells

/-- A cell written with the value read from a valid position. -/
theorem getElem?_set_getD {cells : List α} {i j k : ℕ} (hj : j < cells.length) :
    (cells.set i (cells.getD j default))[k]? =
      if i = k ∧ k < cells.length then cells[j]? else cells[k]? := by
  rw [List.getElem?_set, List.getD_eq_getElem _ _ hj]
  by_cases hik : i = k
  · subst hik
    by_cases hi : i < cells.length
    · simp [hi, List.getElem?_eq_getElem hj]
    · simp [hi]
  · simp [hik]

/-- What `steps` turns of the downward copy leave behind. -/
theorem getElem?_foldl_down (cells : List α) (base steps k : ℕ)
    (h : base + steps < cells.length) :
    ((List.range' (base + 1) steps).foldl
        (fun cells i => cells.set (i - 1) (cells.getD i default)) cells)[k]? =
      (if base ≤ k ∧ k < base + steps then cells[k + 1]? else cells[k]?) ∧
    ((List.range' (base + 1) steps).foldl
        (fun cells i => cells.set (i - 1) (cells.getD i default)) cells).length = cells.length := by
  induction steps generalizing k with
  | zero => simp
  | succ steps ih =>
    have hk := ih k (by omega)
    have hnext := ih (base + 1 + steps) (by omega)
    rw [List.range'_1_concat, List.foldl_append]
    simp only [List.foldl_cons, List.foldl_nil, List.length_set]
    refine ⟨?_, hk.2⟩
    rw [getElem?_set_getD (by rw [hk.2]; omega), hk.2, hk.1, hnext.1]
    by_cases hlast : k = base + steps
    · subst hlast
      rw [if_pos (by omega), if_neg (by omega), if_pos (by omega)]
      congr 1
      omega
    · rw [if_neg (by omega)]
      congr 1
      apply propext
      constructor <;> intro _ <;> omega

/-- What `steps` turns of the upward copy leave behind. -/
theorem getElem?_foldl_up (cells : List α) (base steps k : ℕ)
    (h : base + steps < cells.length) :
    ((List.range' (base + 1) steps).reverse.foldl
        (fun cells i => cells.set i (cells.getD (i - 1) default)) cells)[k]? =
      if base < k ∧ k ≤ base + steps then cells[k - 1]? else cells[k]? := by
  induction steps generalizing cells with
  | zero =>
    rw [if_neg (by omega)]
    rfl
  | succ steps ih =>
    rw [List.range'_1_concat, List.reverse_append, List.reverse_singleton, List.singleton_append,
      List.foldl_cons, ih _ (by rw [List.length_set]; omega),
      getElem?_set_getD (by omega), getElem?_set_getD (by omega)]
    by_cases hlast : k = base + 1 + steps
    · subst hlast
      rw [if_neg (by omega), if_pos (by omega), if_pos (by omega)]
    · rw [if_neg (by omega : ¬ (base + 1 + steps = k ∧ k < cells.length))]
      by_cases hk : base < k ∧ k ≤ base + steps
      · rw [if_pos hk, if_neg (by omega), if_pos (by omega)]
      · rw [if_neg hk, if_neg (by omega)]

/-- The cells after a downward shift. -/
theorem getElem?_shiftDown {cells : List α} {offset pos count : ℕ} (hpos : pos < count)
    (h : offset + count ≤ cells.length) (k : ℕ) :
    (shiftDown cells offset pos count)[k]? =
      if offset + pos ≤ k ∧ k + 1 < offset + count then cells[k + 1]? else cells[k]? := by
  have hfold := (getElem?_foldl_down cells (offset + pos) (count - (pos + 1)) k (by omega)).1
  rw [show offset + pos + 1 = offset + (pos + 1) by omega, ← List.map_add_range',
    List.foldl_map] at hfold
  rw [shiftDown, hfold]
  congr 1
  apply propext
  constructor <;> intro _ <;> omega

/-- The cells after an upward shift. -/
theorem getElem?_shiftUp {cells : List α} {offset pos count : ℕ} (hpos : pos ≤ count)
    (h : offset + count < cells.length) (k : ℕ) :
    (shiftUp cells offset pos count)[k]? =
      if offset + pos < k ∧ k ≤ offset + count then cells[k - 1]? else cells[k]? := by
  have hfold := getElem?_foldl_up cells (offset + pos) (count - pos) k (by omega)
  rw [show offset + pos + 1 = offset + (pos + 1) by omega, ← List.map_add_range',
    ← List.map_reverse, List.foldl_map] at hfold
  rw [shiftUp, hfold]
  congr 1
  apply propext
  constructor <;> intro _ <;> omega

/-- A downward shift keeps the array's size. -/
@[simp] theorem length_shiftDown (cells : List α) (offset pos count : ℕ) :
    (shiftDown cells offset pos count).length = cells.length := by
  unfold shiftDown
  induction List.range' (pos + 1) (count - (pos + 1)) generalizing cells with
  | nil => rfl
  | cons i rest ih => rw [List.foldl_cons, ih, List.length_set]

/-- An upward shift keeps the array's size. -/
@[simp] theorem length_shiftUp (cells : List α) (offset pos count : ℕ) :
    (shiftUp cells offset pos count).length = cells.length := by
  unfold shiftUp
  induction (List.range' (pos + 1) (count - pos)).reverse generalizing cells with
  | nil => rfl
  | cons i rest ih => rw [List.foldl_cons, ih, List.length_set]

/-- Closing the gap at `pos` removes that element from the slice. -/
theorem slice_shiftDown {cells : List α} {offset pos count : ℕ} (hpos : pos < count)
    (h : offset + count ≤ cells.length) :
    slice (shiftDown cells offset pos count) offset (count - 1) =
      (slice cells offset count).eraseIdx pos := by
  apply List.ext_getElem?
  intro i
  rw [getElem?_slice, getElem?_shiftDown hpos h, List.getElem?_eraseIdx, getElem?_slice,
    getElem?_slice]
  by_cases hi : i < pos
  · rw [if_pos (by omega), if_neg (by omega), if_pos hi, if_pos (by omega)]
  · by_cases hcount : i + 1 < count
    · rw [if_pos (by omega), if_pos (by omega), if_neg hi, if_pos hcount, Nat.add_assoc]
    · rw [if_neg (by omega), if_neg hi, if_neg hcount]

/-- Opening a gap at `pos` and writing to it inserts into the slice. -/
theorem slice_shiftUp {cells : List α} {offset pos count : ℕ} (hpos : pos ≤ count)
    (h : offset + count < cells.length) (a : α) :
    slice ((shiftUp cells offset pos count).set (offset + pos) a) offset (count + 1) =
      (slice cells offset count).insertIdx pos a := by
  apply List.ext_getElem?
  intro i
  have hlen : pos ≤ (slice cells offset count).length := by
    rw [length_slice (by omega)]
    exact hpos
  rw [getElem?_slice, List.getElem?_set, length_shiftUp, getElem?_shiftUp hpos h,
    List.getElem?_insertIdx, getElem?_slice, getElem?_slice]
  rcases lt_trichotomy i pos with hi | rfl | hi
  · rw [if_pos (by omega), if_neg (by omega), if_neg (by omega), if_pos hi, if_pos (by omega)]
  · rw [if_pos (by omega), if_pos rfl, if_pos (by omega), if_neg (by omega), if_pos rfl,
      if_pos hlen]
  · rw [if_neg (by omega : ¬ offset + pos = offset + i), if_neg (by omega : ¬ i < pos),
      if_neg (by omega : ¬ i = pos)]
    by_cases hcount : i < count + 1
    · rw [if_pos hcount, if_pos (by omega), if_pos (by omega)]
      congr 1
      omega
    · rw [if_neg hcount, if_neg (by omega)]

/-- A downward shift leaves every slice outside its own range alone. -/
theorem slice_shiftDown_of_disjoint {cells : List α} {offset pos count offset' count' : ℕ}
    (hpos : pos < count) (h : offset + count ≤ cells.length)
    (hdisj : offset' + count' ≤ offset ∨ offset + count ≤ offset') :
    slice (shiftDown cells offset pos count) offset' count' = slice cells offset' count' :=
  slice_congr fun i hi => by rw [getElem?_shiftDown hpos h, if_neg (by omega)]

/-- An upward shift with its write leaves every slice outside its own range alone. -/
theorem slice_shiftUp_of_disjoint {cells : List α} {offset pos count offset' count' : ℕ}
    (hpos : pos ≤ count) (h : offset + count < cells.length) (a : α)
    (hdisj : offset' + count' ≤ offset ∨ offset + count < offset') :
    slice ((shiftUp cells offset pos count).set (offset + pos) a) offset' count' =
      slice cells offset' count' :=
  slice_congr fun i hi => by
    rw [List.getElem?_set_ne (by omega), getElem?_shiftUp hpos h, if_neg (by omega)]

omit [Inhabited α] in
/-- Overwriting a cell inside a slice. -/
theorem slice_set {cells : List α} {offset pos count : ℕ} (hpos : pos < count) (a : α) :
    slice (cells.set (offset + pos) a) offset count = (slice cells offset count).set pos a := by
  apply List.ext_getElem?
  intro i
  rw [getElem?_slice, List.getElem?_set, List.getElem?_set, getElem?_slice]
  by_cases hi : pos = i
  · subst hi
    simp only [hpos, if_true]
    by_cases hlen : offset + pos < cells.length
    · rw [if_pos hlen, if_pos (by simp [slice]; omega)]
    · rw [if_neg hlen, if_neg (by simp [slice]; omega)]
  · rw [if_neg (by omega : ¬ offset + pos = offset + i), if_neg hi]

omit [Inhabited α] in
/-- Overwriting a cell outside a slice. -/
theorem slice_set_of_disjoint {cells : List α} {i offset count : ℕ} (a : α)
    (hdisj : i < offset ∨ offset + count ≤ i) :
    slice (cells.set i a) offset count = slice cells offset count :=
  slice_congr fun j hj => List.getElem?_set_ne (by omega)

end Slice
