import Mathlib

/-!
# Ranges that tile an interval

Half-open ranges that follow one another without a gap or an overlap. A point of the interval they
tile lies in one of them, and a point outside of it lies in none.
-/

namespace Tiling

variable {α : Type*} [LinearOrder α] {first last x : α} {range : α × α} {ranges : List (α × α)}

/-- `Tiles first ranges last`: the ranges are consecutive, from `first` up to `last`. -/
def Tiles : α → List (α × α) → α → Prop
  | first, [], last => first = last
  | first, range :: rest, last => range.1 = first ∧ range.1 ≤ range.2 ∧ Tiles range.2 rest last

/-- `Inside range x`: the point lies in the range. -/
def Inside (range : α × α) (x : α) : Prop := range.1 ≤ x ∧ x < range.2

/-- The interval has its ends in order. -/
theorem Tiles.le (h : Tiles first ranges last) : first ≤ last := by
  induction ranges generalizing first with
  | nil => exact le_of_eq h
  | cons range rest ih =>
    obtain ⟨rfl, hle, hrest⟩ := h
    exact hle.trans (ih hrest)

/-- The ranges lie in the interval. -/
theorem Tiles.between (h : Tiles first ranges last) (hrange : range ∈ ranges) :
    first ≤ range.1 ∧ range.2 ≤ last := by
  induction ranges generalizing first with
  | nil => exact absurd hrange List.not_mem_nil
  | cons head rest ih =>
    obtain ⟨rfl, hle, hrest⟩ := h
    rcases List.mem_cons.mp hrange with rfl | hmem
    · exact ⟨le_rfl, hrest.le⟩
    · obtain ⟨hlow, hhigh⟩ := ih hrest hmem
      exact ⟨hle.trans hlow, hhigh⟩

/-- A point outside the interval lies in no range. -/
theorem Tiles.not_inside (h : Tiles first ranges last) (hout : x < first ∨ last ≤ x)
    (hrange : range ∈ ranges) : ¬ Inside range x := by
  obtain ⟨hlow, hhigh⟩ := h.between hrange
  rintro ⟨hle, hlt⟩
  rcases hout with hbefore | hbehind
  · exact absurd (hlow.trans hle) hbefore.not_ge
  · exact absurd (hlt.trans_le hhigh) hbehind.not_gt

/-- A point of the interval lies in a range. -/
theorem Tiles.exists_inside (h : Tiles first ranges last) (hlow : first ≤ x) (hhigh : x < last) :
    ∃ range ∈ ranges, Inside range x := by
  induction ranges generalizing first with
  | nil => exact absurd (hlow.trans_lt hhigh) (le_of_eq (Eq.symm h)).not_gt
  | cons head rest ih =>
    obtain ⟨rfl, hle, hrest⟩ := h
    by_cases hx : x < head.2
    · exact ⟨head, List.mem_cons_self, hlow, hx⟩
    · obtain ⟨range, hrange, hinside⟩ := ih hrest (not_lt.mp hx)
      exact ⟨range, List.mem_cons_of_mem _ hrange, hinside⟩

/-- A later range starts where the earlier one has ended, or behind. -/
theorem Tiles.pairwise (h : Tiles first ranges last) :
    ranges.Pairwise fun earlier later => earlier.2 ≤ later.1 := by
  induction ranges generalizing first with
  | nil => exact List.Pairwise.nil
  | cons head rest ih =>
    obtain ⟨rfl, hle, hrest⟩ := h
    exact List.pairwise_cons.mpr ⟨fun later hlater => (hrest.between hlater).1, ih hrest⟩

/-- Consecutive values of a monotone function cut an interval into ranges. -/
theorem tiles_map_range {cut : ℕ → α} (hcut : Monotone cut) (start count : ℕ) :
    Tiles (cut start) ((List.range' start count).map fun p => (cut p, cut (p + 1)))
      (cut (start + count)) := by
  induction count generalizing start with
  | zero => rfl
  | succ count ih =>
    have hrest := ih (start + 1)
    rw [Nat.add_right_comm] at hrest
    exact ⟨rfl, hcut (Nat.le_succ start), hrest⟩

end Tiling
