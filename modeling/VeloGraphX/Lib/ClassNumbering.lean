import Mathlib

/-!
# Numbering the classes of an equivalence by their least elements

On a finite linear order every class has a least element, its leader. The leaders below an element
number the classes: leaders in ascending order get the numbers from zero on, without gaps.
-/

namespace ClassNumbering

variable {α : Type*} [LinearOrder α] [Finite α] {r : α → α → Prop} (hr : Equivalence r)
  {a b l m : α} {S : Set α}

/-- The least element of a class. -/
noncomputable def leader (a : α) : α :=
  wellFounded_lt.min {b | r a b} ⟨a, hr.refl a⟩

/-- The leaders in a set. -/
def leaders (S : Set α) : Set α := {l | l ∈ S ∧ leader hr l = l}

/-- The number of leaders before an element. -/
noncomputable def number (l : α) : ℕ := (leaders hr (Set.Iio l)).ncard

/-- The leader belongs to the class. -/
theorem leader_rel (a : α) : r a (leader hr a) :=
  wellFounded_lt.min_mem {b | r a b} ⟨a, hr.refl a⟩

/-- The leader is the least of the class. -/
theorem leader_le (h : r a b) : leader hr a ≤ b := wellFounded_lt.min_le h

/-- Two elements have the same leader when they are of one class. -/
theorem leader_eq_iff : leader hr a = leader hr b ↔ r a b := by
  constructor
  · intro heq
    have hb := leader_rel hr b
    rw [← heq] at hb
    exact hr.trans (leader_rel hr a) (hr.symm hb)
  · intro hab
    refine le_antisymm (leader_le hr (hr.trans hab (leader_rel hr b))) ?_
    exact leader_le hr (hr.trans (hr.symm hab) (leader_rel hr a))

/-- A leader leads itself. -/
theorem leader_leader (a : α) : leader hr (leader hr a) = leader hr a :=
  (leader_eq_iff hr).mpr (hr.symm (leader_rel hr a))

/-- A leader after another one has the larger number. -/
theorem number_lt_number (hl : leader hr l = l) (hlt : l < m) : number hr l < number hr m := by
  refine Set.ncard_lt_ncard ⟨fun x hx => ⟨hx.1.trans hlt, hx.2⟩, fun hsub => ?_⟩ (Set.toFinite _)
  exact lt_irrefl l (hsub ⟨hlt, hl⟩).1

/-- Numbers tell leaders apart in their order. -/
theorem number_lt_iff (hl : leader hr l = l) (hm : leader hr m = m) :
    number hr l < number hr m ↔ l < m := by
  refine ⟨fun hlt => ?_, number_lt_number hr hl⟩
  by_contra hle
  rcases (not_lt.mp hle).eq_or_lt with rfl | hafter
  · exact lt_irrefl _ hlt
  · exact lt_asymm hlt (number_lt_number hr hm hafter)

/-- Two leaders have different numbers. -/
theorem number_injOn : Set.InjOn (number hr) (leaders hr S) := by
  intro l hl m hm heq
  rcases lt_trichotomy l m with hlt | hsame | hlt
  · exact absurd heq (number_lt_number hr hl.2 hlt).ne
  · exact hsame
  · exact absurd heq (number_lt_number hr hm.2 hlt).ne'

/-- The elements of one class are those whose leaders have one number. -/
theorem number_leader_eq_iff : number hr (leader hr a) = number hr (leader hr b) ↔ r a b := by
  rw [← leader_eq_iff hr]
  refine ⟨fun heq => ?_, fun heq => by rw [heq]⟩
  exact number_injOn hr (S := Set.univ) ⟨trivial, leader_leader hr a⟩ ⟨trivial, leader_leader hr b⟩ heq

/-- In a set that contains all smaller elements the leaders have smaller numbers than there are. -/
theorem number_lt_ncard (hS : IsLowerSet S) (hl : l ∈ leaders hr S) :
    number hr l < (leaders hr S).ncard := by
  refine Set.ncard_lt_ncard ⟨fun x hx => ⟨hS (le_of_lt hx.1) hl.1, hx.2⟩, fun hsub => ?_⟩
    (Set.toFinite _)
  exact lt_irrefl l (hsub hl).1

/-- Every smaller number is that of a leader in the set. -/
theorem exists_number_eq (hS : IsLowerSet S) {k : ℕ} (hk : k < (leaders hr S).ncard) :
    ∃ l ∈ leaders hr S, number hr l = k := by
  have himage : number hr '' leaders hr S = Set.Iio (leaders hr S).ncard := by
    refine Set.eq_of_subset_of_ncard_le ?_ ?_ (Set.finite_Iio _)
    · rintro _ ⟨l, hl, rfl⟩
      exact number_lt_ncard hr hS hl
    · rw [(number_injOn hr).ncard_image, ← Finset.coe_Iio, Set.ncard_coe_finset, Nat.card_Iio]
  have hmem : k ∈ number hr '' leaders hr S := himage ▸ hk
  exact hmem

/-- There are as many classes as leaders. -/
theorem ncard_classes (hS : IsLowerSet S) :
    ((fun a => {b | r a b}) '' S).ncard = (leaders hr S).ncard := by
  have himage : (fun a => {b | r a b}) '' S = (fun a => {b | r a b}) '' leaders hr S := by
    refine Set.Subset.antisymm ?_ (Set.image_mono fun l hl => hl.1)
    rintro _ ⟨a, ha, rfl⟩
    refine ⟨leader hr a, ⟨hS (leader_le hr (hr.refl a)) ha, leader_leader hr a⟩, ?_⟩
    refine Set.ext fun b => ⟨fun hb => hr.trans (leader_rel hr a) hb, fun hb => ?_⟩
    exact hr.trans (hr.symm (leader_rel hr a)) hb
  rw [himage]
  refine Set.InjOn.ncard_image fun l hl m hm heq => ?_
  have hlm : m ∈ {b | r l b} := by
    rw [show {b | r l b} = {b | r m b} from heq]
    exact hr.refl m
  rw [← hl.2, ← hm.2]
  exact (leader_eq_iff hr).mpr hlm

end ClassNumbering
