import Mathlib
import VeloGraphX.Lib.SortedList

/-!
# What two ascending lists have in common

The number of common elements, split where both lists are cut. Elements on different sides of the
cuts are never equal, so a program that has compared two leading parts with each other may drop
the part that ends first and count on.
-/

namespace SortedList

variable {K : Type*} [LinearOrder K]

/-- How many elements of the first list are also in the second. -/
def common (a b : List K) : ℕ := a.countP fun x => decide (x ∈ b)

variable {a b front back front' back' : List K}

/-- Without repetitions this is the size of the intersection. -/
theorem common_eq_card (ha : Ascending id a) (b : List K) :
    common a b = (a.toFinset ∩ b.toFinset).card := by
  have hnodup : a.Nodup := ha.imp ne_of_lt
  have hfilter : a.toFinset ∩ b.toFinset = (a.filter fun x => decide (x ∈ b)).toFinset := by
    ext x
    simp
  rw [hfilter, List.toFinset_card_of_nodup (hnodup.filter _), common, List.countP_eq_length_filter]

/-- The two lists may change places. -/
theorem common_comm (ha : Ascending id a) (hb : Ascending id b) : common a b = common b a := by
  rw [common_eq_card ha, common_eq_card hb, Finset.inter_comm]

/-- An empty list has nothing in common. -/
@[simp] theorem common_nil_right (a : List K) : common a [] = 0 := by
  simp [common]

/-- Only membership of the first list's elements matters. -/
theorem common_congr (h : ∀ x ∈ a, x ∈ b ↔ x ∈ back) : common a b = common a back := by
  refine List.countP_congr fun x hx => ?_
  simp [h x hx]

/-- The first list may be counted in parts. -/
theorem common_append (front back b : List K) :
    common (front ++ back) b = common front b + common back b := List.countP_append

/-- A front that ends before the other back begins is compared with the other front only. -/
theorem common_front (h : ∀ x ∈ front, ∀ y ∈ back', x < y) :
    common front (front' ++ back') = common front front' := by
  refine common_congr fun x hx => ?_
  rw [List.mem_append, or_iff_left fun hback => lt_irrefl x (h x hx x hback)]

/-- A back that begins behind the other front is compared with the other back only. -/
theorem common_back (h : ∀ x ∈ back, ∀ y ∈ front', y < x) :
    common back (front' ++ back') = common back back' := by
  refine common_congr fun x hx => ?_
  rw [List.mem_append, or_iff_right fun hfront => lt_irrefl x (h x hx x hfront)]

/-- Dropping the front that ends first. -/
theorem common_drop_left (h : ∀ x ∈ front, ∀ y ∈ back', x < y) :
    common (front ++ back) (front' ++ back') =
      common front front' + common back (front' ++ back') := by
  rw [common_append, common_front h]

/-- Dropping the other front. -/
theorem common_drop_right (ha : Ascending id (front ++ back)) (hb : Ascending id (front' ++ back'))
    (h : ∀ x ∈ back, ∀ y ∈ front', y < x) :
    common (front ++ back) (front' ++ back') =
      common front front' + common (front ++ back) back' := by
  have hfront : Ascending id front := (List.pairwise_append.mp ha).1
  have hfront' : Ascending id front' := (List.pairwise_append.mp hb).1
  have hback' : Ascending id back' := (List.pairwise_append.mp hb).2.1
  rw [common_comm ha hb, common_drop_left fun y hy x hx => h x hx y hy, common_comm hfront' hfront,
    common_comm hback' ha]

/-- Dropping both fronts, when they end together. -/
theorem common_drop_both (h : ∀ x ∈ front, ∀ y ∈ back', x < y)
    (h' : ∀ x ∈ back, ∀ y ∈ front', y < x) :
    common (front ++ back) (front' ++ back') = common front front' + common back back' := by
  rw [common_drop_left h, common_back h']

/-- Up to a position an ascending list stays below the element there. -/
theorem le_of_mem_block (ha : Ascending id a) {i width : ℕ} (hlast : i + width - 1 < a.length)
    {x : K} (hx : x ∈ (a.drop i).take width) : x ≤ a[i + width - 1] := by
  obtain ⟨k, hk, rfl⟩ := List.mem_iff_getElem.mp hx
  rw [List.length_take, List.length_drop] at hk
  rw [List.getElem_take, List.getElem_drop]
  rcases Nat.lt_or_ge (i + k) (i + width - 1) with hlt | hge
  · exact le_of_lt (List.pairwise_iff_getElem.mp ha _ _ _ _ hlt)
  · have heq : i + k = i + width - 1 := by omega
    simp only [heq, le_refl]

/-- Behind a position it lies above. -/
theorem lt_of_mem_rest (ha : Ascending id a) {i width : ℕ} (hlast : i + width - 1 < a.length)
    (hwidth : 0 < width) {x : K} (hx : x ∈ a.drop (i + width)) : a[i + width - 1] < x := by
  obtain ⟨k, hk, rfl⟩ := List.mem_iff_getElem.mp hx
  rw [List.length_drop] at hk
  rw [List.getElem_drop]
  exact List.pairwise_iff_getElem.mp ha _ _ _ _ (by omega)

/-- What follows an element lies above it. -/
theorem lt_of_mem_tail (ha : Ascending id a) {i : ℕ} (hi : i < a.length) {x : K}
    (hx : x ∈ a.drop (i + 1)) : a[i] < x := by
  have hlast : i + 1 - 1 < a.length := hi
  exact lt_of_mem_rest ha hlast one_pos hx

omit [LinearOrder K] in
/-- A list from a position on, cut behind a block. -/
theorem block_append_rest (a : List K) (i width : ℕ) :
    (a.drop i).take width ++ a.drop (i + width) = a.drop i := by
  rw [← List.drop_drop, List.take_append_drop]

end SortedList
