import Mathlib

/-!
# Bounds and counts of lists

A fold with an operation that stays beyond both of its arguments bounds every element of a list:
running minima and maxima are the two instances. A list in ascending key order is cut by two
bounds into consecutive pieces. A loop that counts with a bounded counter counts modulo its bound.
-/

namespace ListBounds

variable {α β K : Type*}

/-- A fold ends beyond its start and beyond every element. -/
theorem foldl_bounds {r : β → β → Prop} {op : β → β → β} (hrefl : ∀ x, r x x)
    (htrans : ∀ x y z, r x y → r y z → r x z) (hop : ∀ x y, r x (op x y) ∧ r y (op x y))
    (value : α → β) (list : List α) (start : β) :
    r start (list.foldl (fun bound a => op bound (value a)) start) ∧
      ∀ a ∈ list, r (value a) (list.foldl (fun bound a => op bound (value a)) start) := by
  induction list generalizing start with
  | nil => exact ⟨hrefl start, fun a ha => absurd ha List.not_mem_nil⟩
  | cons first rest ih =>
    obtain ⟨hstart, hfirst⟩ := hop start (value first)
    obtain ⟨hnext, hrest⟩ := ih (op start (value first))
    rw [List.foldl_cons]
    refine ⟨htrans _ _ _ hstart hnext, fun a ha => ?_⟩
    rcases List.mem_cons.mp ha with rfl | hmem
    · exact htrans _ _ _ hfirst hnext
    · exact hrest a hmem

section Extremes

variable [LE β] [Std.IsLinearOrder β]

/-- A running minimum lies below every element. -/
theorem foldl_min_le [Min β] [Std.LawfulOrderMin β] (value : α → β) (list : List α) (start : β) :
    list.foldl (fun least a => min least (value a)) start ≤ start ∧
      ∀ a ∈ list, list.foldl (fun least a => min least (value a)) start ≤ value a :=
  @foldl_bounds α β (· ≥ ·) min (fun _ => Std.le_refl _) (fun _ _ _ hxy hyz => Std.le_trans hyz hxy)
    (fun _ _ => ⟨Std.min_le_left, Std.min_le_right⟩) value list start

/-- A running maximum lies above every element. -/
theorem le_foldl_max [DecidableLE β] [Max β] (hmax : ∀ x y : β, max x y = if x ≤ y then y else x)
    (value : α → β) (list : List α) (start : β) :
    start ≤ list.foldl (fun greatest a => max greatest (value a)) start ∧
      ∀ a ∈ list, value a ≤ list.foldl (fun greatest a => max greatest (value a)) start := by
  refine @foldl_bounds α β (· ≤ ·) max (fun _ => Std.le_refl _) (fun _ _ _ => Std.le_trans)
    (fun x y => ?_) value list start
  rw [hmax]
  split
  · exact ⟨‹_›, Std.le_refl _⟩
  · exact ⟨Std.le_refl _, Std.le_of_not_ge ‹_›⟩

end Extremes

/-- In ascending key order what lies up to the first bound comes before what lies between the
bounds, and together they are what lies up to the second one. -/
theorem filter_le_append [LinearOrder K] {key : α → K} {list : List α}
    (h : list.Pairwise fun x y => key x ≤ key y) {a b : K} (hle : a ≤ b) :
    list.filter (fun x => decide (key x ≤ a)) ++
        list.filter (fun x => decide (a < key x) && decide (key x ≤ b)) =
      list.filter fun x => decide (key x ≤ b) := by
  induction list with
  | nil => rfl
  | cons first rest ih =>
    obtain ⟨hfirst, hrest⟩ := List.pairwise_cons.mp h
    by_cases hearly : key first ≤ a
    · simp only [List.filter_cons, hearly, hearly.trans hle, not_lt.mpr hearly, decide_true,
        decide_false, Bool.false_and, if_true, Bool.false_eq_true, if_false, List.cons_append,
        ih hrest]
    · -- from here on every key lies beyond the first bound
      have hlate : ∀ x ∈ first :: rest, a < key x := by
        intro x hx
        rcases List.mem_cons.mp hx with rfl | hmem
        · exact not_le.mp hearly
        · exact (not_le.mp hearly).trans_le (hfirst x hmem)
      have hnone : (first :: rest).filter (fun x => decide (key x ≤ a)) = [] := by
        refine List.filter_eq_nil_iff.mpr fun x hx => ?_
        simpa using hlate x hx
      rw [hnone, List.nil_append]
      refine List.filter_congr fun x hx => ?_
      simp only [hlate x hx, decide_true, Bool.true_and]

section Counting

variable {modulus count : ℕ}

/-- A bounded counter counts the members of a list with a property modulo its bound. -/
theorem foldl_count_mod (p : α → Bool) (list : List α) (h : count < modulus) :
    list.foldl (fun count a => if p a then (count + 1) % modulus else count) count =
      (count + list.countP p) % modulus := by
  induction list generalizing count with
  | nil => exact (Nat.mod_eq_of_lt h).symm
  | cons a rest ih =>
    rw [List.countP_cons, List.foldl_cons]
    cases hp : p a with
    | true =>
      rw [if_pos rfl, if_pos rfl, ih (Nat.mod_lt _ (Nat.zero_lt_of_lt h)), Nat.mod_add_mod,
        Nat.add_right_comm, Nat.add_assoc]
    | false =>
      rw [if_neg (by decide), if_neg (by decide)]
      exact ih h

/-- Where the bound is not reached the count is exact. -/
theorem foldl_count (p : α → Bool) (list : List α) (h : count + list.countP p < modulus) :
    list.foldl (fun count a => if p a then (count + 1) % modulus else count) count =
      count + list.countP p := by
  rw [foldl_count_mod p list ((Nat.le_add_right _ _).trans_lt h), Nat.mod_eq_of_lt h]

end Counting

end ListBounds
