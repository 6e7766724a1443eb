import Mathlib
import VeloGraphX.Lib.PointUpdate
import VeloGraphX.Lib.Slice

/-!
# Counting sort into one array with an offset table

The compressed-row construction: count the items of each key, turn the counts into offsets
by running sums, and write every item at its key's cursor. The items of a key end up
consecutively between two neighbouring offsets, in the order in which they came.
-/

namespace CountingSort

open Slice PointUpdate

variable {α : Type*}

/-- In-place running sums, `xs[i] += xs[i - 1]`, continued from `acc`. -/
def runningSums (acc : ℕ) : List ℕ → List ℕ
  | [] => []
  | x :: rest => (acc + x) :: runningSums (acc + x) rest

/-- Running sums keep the length. -/
@[simp] theorem length_runningSums (acc : ℕ) (xs : List ℕ) :
    (runningSums acc xs).length = xs.length := by
  induction xs generalizing acc with
  | nil => rfl
  | cons x rest ih => simp [runningSums, ih]

/-- A running sum is the sum of everything up to its position. -/
theorem getD_runningSums (acc : ℕ) (xs : List ℕ) (i : ℕ) (hi : i < xs.length) :
    (runningSums acc xs).getD i 0 = acc + (xs.take (i + 1)).sum := by
  induction xs generalizing acc i with
  | nil => exact absurd hi (Nat.not_lt_zero i)
  | cons x rest ih =>
    cases i with
    | zero => simp [runningSums]
    | succ i =>
      have hi' : i < rest.length := by simpa using hi
      simp only [runningSums, List.getD_cons_succ, ih _ i hi', List.take_succ_cons, List.sum_cons]
      omega

/-- How many items carry a key. -/
def keyCount (items : List (ℕ × α)) (k : ℕ) : ℕ := items.countP fun item => decide (item.1 = k)

/-- The values carrying a key, in order. -/
def bucket (items : List (ℕ × α)) (k : ℕ) : List α :=
  (items.filter fun item => decide (item.1 = k)).map Prod.snd

/-- A bucket is as long as its key's count. -/
theorem length_bucket (items : List (ℕ × α)) (k : ℕ) :
    (bucket items k).length = keyCount items k := by
  rw [bucket, List.length_map, keyCount, List.countP_eq_length_filter]

/-- One more item counts for its own key. -/
theorem keyCount_append_singleton (items : List (ℕ × α)) (item : ℕ × α) (k : ℕ) :
    keyCount (items ++ [item]) k = keyCount items k + if item.1 = k then 1 else 0 := by
  simp [keyCount, List.countP_append]

/-- One more item is the last one of its own key. -/
theorem bucket_append_singleton (items : List (ℕ × α)) (item : ℕ × α) (k : ℕ) :
    bucket (items ++ [item]) k = bucket items k ++ if item.1 = k then [item.2] else [] := by
  by_cases hk : item.1 = k <;> simp [bucket, hk]

/-- Write one item at its key's cursor and advance the cursor. -/
def place (state : List α × List ℕ) (item : ℕ × α) : List α × List ℕ :=
  (state.1.set (state.2.getD item.1 0) item.2,
    state.2.set item.1 (state.2.getD item.1 0 + 1))

/-- Offsets that leave every key room for its items, in key order, below `limit`. -/
structure Room (items : List (ℕ × α)) (offsets : List ℕ) (m limit : ℕ) : Prop where
  key_lt : ∀ item ∈ items, item.1 < m
  lt_length : m ≤ offsets.length
  below : ∀ k k', k < k' → k' < m → offsets.getD k 0 + keyCount items k ≤ offsets.getD k' 0
  inside : ∀ k, k < m → offsets.getD k 0 + keyCount items k ≤ limit

/-- The cells of two keys are different ones. -/
theorem Room.apart {items : List (ℕ × α)} {offsets : List ℕ} {m limit : ℕ}
    (h : Room items offsets m limit) {k k' i j : ℕ} (hk : k < m) (hk' : k' < m) (hne : k ≠ k')
    (hi : i < keyCount items k) (hj : j < keyCount items k') :
    offsets.getD k 0 + i ≠ offsets.getD k' 0 + j := by
  rcases lt_or_gt_of_ne hne with hlt | hlt
  · have := h.below k k' hlt hk'
    omega
  · have := h.below k' k hlt hk
    omega

/-- After placing a first part of the items each key's cells hold its bucket so far. -/
theorem place_spec {items : List (ℕ × α)} {offsets : List ℕ} {cells : List α} {m : ℕ}
    (h : Room items offsets m cells.length) (done : List (ℕ × α)) (hdone : done <+: items) :
    (done.foldl place (cells, offsets)).1.length = cells.length ∧
      (done.foldl place (cells, offsets)).2.length = offsets.length ∧
      ∀ k, k < m →
        (done.foldl place (cells, offsets)).2.getD k 0 = offsets.getD k 0 + keyCount done k ∧
        ∀ j, j < keyCount done k →
          (done.foldl place (cells, offsets)).1[offsets.getD k 0 + j]? = (bucket done k)[j]? := by
  induction done using List.reverseRecOn with
  | nil =>
    refine ⟨rfl, rfl, fun k _ => ⟨by simp [keyCount], fun j hj => ?_⟩⟩
    simp [keyCount] at hj
  | append_singleton done item ih =>
    have hsub := (List.prefix_append done [item]).trans hdone
    obtain ⟨hcells, hcursors, hkeys⟩ := ih hsub
    have hitem : item ∈ items := hdone.subset (by simp)
    have hkey := h.key_lt item hitem
    have hcount := keyCount_append_singleton done item
    have hle : ∀ k, keyCount (done ++ [item]) k ≤ keyCount items k :=
      fun k => hdone.sublist.countP_le
    have hroom := hle item.1
    rw [hcount, if_pos rfl] at hroom
    have hslot := h.inside item.1 hkey
    rw [List.foldl_append, List.foldl_cons, List.foldl_nil]
    generalize done.foldl place (cells, offsets) = state at hcells hcursors hkeys ⊢
    obtain ⟨hcursor, -⟩ := hkeys item.1 hkey
    simp only [place, List.length_set]
    refine ⟨hcells, hcursors, fun k hk => ⟨?_, fun j hj => ?_⟩⟩
    · rw [getD_set (by rw [hcursors]; exact lt_of_lt_of_le hkey h.lt_length), hcount]
      by_cases hki : k = item.1
      · rw [if_pos hki, if_pos hki.symm, hcursor, hki, Nat.add_assoc]
      · rw [if_neg hki, if_neg (Ne.symm hki), (hkeys k hk).1, Nat.add_zero]
    · have hlen := length_bucket done k
      rw [hcount] at hj
      rw [bucket_append_singleton, List.getElem?_set, hcursor, hcells]
      by_cases hki : item.1 = k
      · subst hki
        rw [if_pos rfl] at hj
        rw [if_pos rfl]
        by_cases hlast : j = keyCount done item.1
        · rw [if_pos (by omega), if_pos (by omega), List.getElem?_append_right (by omega)]
          simp [hlen, hlast]
        · rw [if_neg (by omega), (hkeys item.1 hk).2 j (by omega),
            List.getElem?_append_left (by omega)]
      · rw [if_neg hki] at hj
        rw [if_neg hki, List.append_nil]
        have hcountk := hle k
        rw [hcount, if_neg hki] at hcountk
        rw [if_neg (h.apart hkey hk hki (by omega) (by omega))]
        exact (hkeys k hk).2 j (by omega)

/-- A histogram: nothing at position `0`, the count of key `k` at position `k + 1`. -/
structure Histogram (items : List (ℕ × α)) (counts : List ℕ) (m : ℕ) : Prop where
  length_eq : counts.length = m + 1
  key_lt : ∀ item ∈ items, item.1 < m
  count : ∀ k, k < m → counts.getD (k + 1) 0 = keyCount items k

variable {items : List (ℕ × α)} {counts : List ℕ} {m : ℕ}

/-- Neighbouring offsets differ by the count of the key between them. -/
theorem Histogram.getD_offset_succ (h : Histogram items counts m) {k : ℕ} (hk : k < m) :
    (runningSums 0 counts).getD (k + 1) 0 =
      (runningSums 0 counts).getD k 0 + keyCount items k := by
  have hlen := h.length_eq
  rw [getD_runningSums 0 counts (k + 1) (by omega), getD_runningSums 0 counts k (by omega),
    List.take_succ_eq_append_getElem (by omega : k + 1 < counts.length), List.sum_append,
    List.sum_singleton, ← h.count k hk, List.getD_eq_getElem _ _ (by omega)]
  omega

/-- Offsets ascend by whole buckets. -/
theorem Histogram.offset_add_le (h : Histogram items counts m) {k k' : ℕ} (hlt : k < k')
    (hk' : k' ≤ m) :
    (runningSums 0 counts).getD k 0 + keyCount items k ≤ (runningSums 0 counts).getD k' 0 := by
  induction k', hlt using Nat.le_induction with
  | base => exact (h.getD_offset_succ (by omega)).ge
  | succ k' hle ih =>
    rw [h.getD_offset_succ (by omega : k' < m)]
    exact le_trans (ih (by omega)) (Nat.le_add_right _ _)

/-- The offsets of a histogram leave every bucket its room. -/
theorem Histogram.room (h : Histogram items counts m) :
    Room items (runningSums 0 counts) m ((runningSums 0 counts).getD m 0) :=
  ⟨h.key_lt, by rw [length_runningSums, h.length_eq]; omega,
    fun _ _ hlt hk' => h.offset_add_le hlt (le_of_lt hk'), fun _ hk => h.offset_add_le hk le_rfl⟩

/-- Between two neighbouring offsets lies exactly the bucket of the key between them. -/
theorem Histogram.slice_eq_bucket (h : Histogram items counts m) {cells : List α}
    (hcells : cells.length = (runningSums 0 counts).getD m 0) {k : ℕ} (hk : k < m) :
    slice (items.foldl place (cells, runningSums 0 counts)).1 ((runningSums 0 counts).getD k 0)
      ((runningSums 0 counts).getD (k + 1) 0 - (runningSums 0 counts).getD k 0) =
        bucket items k := by
  obtain ⟨-, -, hkeys⟩ := place_spec (hcells ▸ h.room) items List.prefix_rfl
  rw [h.getD_offset_succ hk, Nat.add_sub_cancel_left]
  apply List.ext_getElem?
  intro j
  rw [getElem?_slice]
  split
  · exact (hkeys k hk).2 j ‹_›
  · exact (List.getElem?_eq_none (by rw [length_bucket]; omega)).symm

/-- An offset is the number of items with smaller keys. -/
theorem Histogram.getD_offset (h : Histogram items counts m) (hzero : counts.getD 0 0 = 0) {k : ℕ}
    (hk : k ≤ m) : (runningSums 0 counts).getD k 0 =
      items.countP fun item => decide (item.1 < k) := by
  induction k with
  | zero =>
    have hlen := h.length_eq
    have hcell : counts[0] = 0 := by rwa [List.getD_eq_getElem _ _ (by omega)] at hzero
    rw [getD_runningSums 0 counts 0 (by omega),
      List.take_succ_eq_append_getElem (by omega : 0 < counts.length), hcell]
    simp
  | succ k ih =>
    rw [h.getD_offset_succ (by omega), ih (by omega), keyCount]
    clear ih h
    induction items with
    | nil => rfl
    | cons item rest ih =>
      simp only [List.countP_cons, decide_eq_true_eq]
      rcases lt_trichotomy item.1 k with hlt | heq | hgt
      · rw [if_pos hlt, if_neg (by omega), if_pos (by omega)]
        omega
      · rw [if_neg (by omega), if_pos heq, if_pos (by omega)]
        omega
      · rw [if_neg (by omega), if_neg (by omega), if_neg (by omega)]
        omega

/-- The last offset is the number of items. -/
theorem Histogram.total (h : Histogram items counts m) (hzero : counts.getD 0 0 = 0) :
    (runningSums 0 counts).getD m 0 = items.length := by
  rw [h.getD_offset hzero le_rfl, List.countP_eq_length]
  exact fun item hitem => decide_eq_true (h.key_lt item hitem)

/-- Count the items of each key, one position further. -/
def countKeys (m : ℕ) (items : List (ℕ × α)) : List ℕ :=
  items.foldl (fun counts item => counts.set (item.1 + 1) (counts.getD (item.1 + 1) 0 + 1))
    (List.replicate (m + 1) 0)

/-- Counting the items gives a histogram with nothing in front. -/
theorem histogram_countKeys (hkey : ∀ item ∈ items, item.1 < m) :
    Histogram items (countKeys m items) m ∧ (countKeys m items).getD 0 0 = 0 := by
  have hread := getD_foldl_set (fun item : ℕ × α => item.1 + 1) (fun count _ => count + 1) 0
    (List.replicate (m + 1) 0) items
  have hblank : ∀ i, i < m + 1 → (List.replicate (m + 1) 0).getD i 0 = 0 := fun i hi => by
    rw [List.getD_eq_getElem _ _ (by rwa [List.length_replicate]), List.getElem_replicate]
  have hfold : ∀ (list : List (ℕ × α)) (count : ℕ),
      list.foldl (fun count _ => count + 1) count = count + list.length := fun list => by
    induction list with
    | nil => exact fun _ => rfl
    | cons a rest ih =>
      intro count
      rw [List.foldl_cons, ih, List.length_cons]
      omega
  refine ⟨⟨?_, hkey, fun k hk => ?_⟩, ?_⟩
  · exact (length_foldl_set _ _ _ _).trans (List.length_replicate)
  · refine (hread (k + 1) (by rw [List.length_replicate]; omega)).trans ?_
    rw [hblank _ (by omega), hfold, keyCount, List.countP_eq_length_filter, Nat.zero_add]
    simp
  · refine (hread 0 (by rw [List.length_replicate]; omega)).trans ?_
    rw [hblank _ (by omega), hfold, List.filter_eq_nil_iff.mpr (by simp)]
    rfl

/-- The rows of a counting sort: between the offsets of a key lies its bucket. -/
theorem slice_countKeys (hkey : ∀ item ∈ items, item.1 < m) {cells : List α}
    (hcells : cells.length = items.length) {k : ℕ} (hk : k < m) :
    slice (items.foldl place (cells, runningSums 0 (countKeys m items))).1
      ((runningSums 0 (countKeys m items)).getD k 0)
      ((runningSums 0 (countKeys m items)).getD (k + 1) 0 -
        (runningSums 0 (countKeys m items)).getD k 0) = bucket items k := by
  obtain ⟨hhistogram, hzero⟩ := histogram_countKeys hkey
  exact hhistogram.slice_eq_bucket (hcells.trans (hhistogram.total hzero).symm) hk

end CountingSort
