import Mathlib

/-!
# Priority queues as lists

A binary heap is only ever asked for a least element and for its removal, so a list with
those two operations models it; the arrangement of the heap's array is not observable.
-/

namespace PriorityQueue

variable {α : Type*} [LinearOrder α]

/-- A least element and the queue without it. -/
def popMin (queue : List α) : Option (α × List α) :=
  queue.min?.map fun m => (m, queue.erase m)

variable {queue rest : List α} {m : α}

/-- Only an empty queue has nothing to pop. -/
theorem popMin_eq_none : popMin queue = none ↔ queue = [] := by
  rw [popMin, Option.map_eq_none_iff, List.min?_eq_none_iff]

/-- What a pop returns is a least element and the others. -/
theorem popMin_eq_some (h : popMin queue = some (m, rest)) :
    m ∈ queue ∧ (∀ a ∈ queue, m ≤ a) ∧ rest = queue.erase m := by
  obtain ⟨a, ha, heq⟩ := Option.map_eq_some_iff.mp h
  obtain ⟨rfl, rfl⟩ := Prod.mk.inj heq
  obtain ⟨hmem, hle⟩ := List.min?_eq_some_iff.mp ha
  exact ⟨hmem, hle, rfl⟩

/-- A pop takes one element out. -/
theorem length_popMin (h : popMin queue = some (m, rest)) : rest.length + 1 = queue.length := by
  obtain ⟨hmem, -, rfl⟩ := popMin_eq_some h
  rw [List.length_erase_of_mem hmem]
  have := List.length_pos_of_mem hmem
  omega

/-- Every other element stays in the queue. -/
theorem mem_popMin_of_ne (h : popMin queue = some (m, rest)) {a : α} (ha : a ∈ queue)
    (hne : a ≠ m) : a ∈ rest := by
  obtain ⟨-, -, rfl⟩ := popMin_eq_some h
  exact (List.mem_erase_of_ne hne).mpr ha

/-- Nothing new comes into the queue by a pop. -/
theorem mem_of_mem_popMin (h : popMin queue = some (m, rest)) {a : α} (ha : a ∈ rest) :
    a ∈ queue := by
  obtain ⟨-, -, rfl⟩ := popMin_eq_some h
  exact List.mem_of_mem_erase ha

end PriorityQueue
