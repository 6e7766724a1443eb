import Mathlib

/-!
# Lists in strictly ascending key order

Binary search, insertion, removal and replacement at the lower bound of a key. Every
operation is described by what a key lookup answers afterwards, so a client reasons about
a sorted list as a finite map and never about positions. Two lists that are strictly
ascending and have the same elements are equal.
-/

namespace SortedList

variable {α K : Type*} [LinearOrder K]

/-- Strictly ascending keys: sorted, and no key twice. -/
def Ascending (key : α → K) (list : List α) : Prop := list.Pairwise fun a b => key a < key b

/-- The number of leading elements whose key precedes the target. -/
def lowerBound (key : α → K) (list : List α) (target : K) : ℕ :=
  (list.takeWhile fun a => decide (key a < target)).length

/-- The element carrying the key, if there is one. -/
def lookup (key : α → K) (list : List α) (target : K) : Option α :=
  list.find? fun a => decide (key a = target)

variable {key : α → K} {list : List α} {target : K}

/-- The empty list is ascending. -/
@[simp] theorem ascending_nil : Ascending key ([] : List α) := List.Pairwise.nil

/-- A lookup succeeds only on an element of the list that carries the key. -/
theorem mem_of_lookup {a : α} (h : lookup key list target = some a) :
    a ∈ list ∧ key a = target := by
  have hkey := List.find?_some h
  exact ⟨List.mem_of_find?_eq_some h, by simpa using hkey⟩

/-- A failed lookup means that no element carries the key. -/
theorem lookup_eq_none_iff : lookup key list target = none ↔ ∀ a ∈ list, key a ≠ target := by
  simp [lookup, List.find?_eq_none]

/-- In an ascending list a key determines its element. -/
theorem eq_of_key_eq (h : Ascending key list) {a b : α} (ha : a ∈ list) (hb : b ∈ list)
    (hkey : key a = key b) : a = b := by
  induction list with
  | nil => cases ha
  | cons x rest ih =>
    obtain ⟨hx, hrest⟩ := List.pairwise_cons.mp h
    rcases List.mem_cons.mp ha with rfl | hamem <;> rcases List.mem_cons.mp hb with rfl | hbmem
    · rfl
    · exact absurd hkey (ne_of_lt (hx b hbmem))
    · exact absurd hkey (ne_of_gt (hx a hamem))
    · exact ih hrest hamem hbmem

/-- In an ascending list an element is found by its own key. -/
theorem lookup_of_mem (h : Ascending key list) {a : α} (ha : a ∈ list) :
    lookup key list (key a) = some a := by
  cases hfound : lookup key list (key a) with
  | none => exact absurd rfl (lookup_eq_none_iff.mp hfound a ha)
  | some b =>
    obtain ⟨hb, hkey⟩ := mem_of_lookup hfound
    rw [eq_of_key_eq h ha hb hkey.symm]

/-- Splitting an ascending list at the lower bound of a key it carries. -/
theorem split_found (h : Ascending key list) {a : α} (ha : lookup key list target = some a) :
    ∃ before after, list = before ++ a :: after ∧ lowerBound key list target = before.length ∧
      key a = target ∧ (∀ x ∈ before, key x < target) ∧ ∀ y ∈ after, target < key y := by
  obtain ⟨hmem, rfl⟩ := mem_of_lookup ha
  obtain ⟨before, after, rfl⟩ := List.append_of_mem hmem
  obtain ⟨-, hafter, hcross⟩ := List.pairwise_append.mp h
  have hbefore : ∀ x ∈ before, key x < key a := fun x hx => hcross x hx a List.mem_cons_self
  refine ⟨before, after, rfl, ?_, rfl, hbefore, (List.pairwise_cons.mp hafter).1⟩
  have htake : (before ++ a :: after).takeWhile (fun x => decide (key x < key a)) = before := by
    rw [List.takeWhile_append_of_pos (by simpa using hbefore)]
    simp
  rw [lowerBound, htake]

/-- Splitting an ascending list at the lower bound of a key it does not carry. -/
theorem split_missing (h : Ascending key list) (hnone : lookup key list target = none) :
    ∃ before after, list = before ++ after ∧ lowerBound key list target = before.length ∧
      (∀ x ∈ before, key x < target) ∧ ∀ y ∈ after, target < key y := by
  refine ⟨list.takeWhile (fun a => decide (key a < target)),
    list.dropWhile (fun a => decide (key a < target)),
    (List.takeWhile_append_dropWhile).symm, rfl, fun x hx => ?_, ?_⟩
  · simpa using List.mem_takeWhile_imp hx
  · have hsub : (list.dropWhile fun a => decide (key a < target)).Sublist list :=
      List.dropWhile_sublist _
    cases hdrop : list.dropWhile (fun a => decide (key a < target)) with
    | nil => simp
    | cons b rest =>
      have hb : ¬ key b < target := by
        have := List.head?_dropWhile_not (fun a => decide (key a < target)) list
        simpa [hdrop] using this
      have hsorted : Ascending key (b :: rest) := hdrop ▸ h.sublist hsub
      have hlt : target < key b :=
        lt_of_le_of_ne (not_lt.mp hb) fun heq =>
          lookup_eq_none_iff.mp hnone b (hsub.mem (hdrop ▸ List.mem_cons_self)) heq.symm
      intro y hy
      rcases List.mem_cons.mp hy with rfl | hy
      · exact hlt
      · exact hlt.trans ((List.pairwise_cons.mp hsorted).1 y hy)

/-- The lower bound is a position of the list or its end. -/
theorem lowerBound_le_length (key : α → K) (list : List α) (target : K) :
    lowerBound key list target ≤ list.length :=
  (List.takeWhile_sublist _).length_le

/-- The element at the lower bound is the one a lookup finds. -/
theorem getElem?_lowerBound (h : Ascending key list) (target : K) :
    list[lowerBound key list target]?.filter (fun a => decide (key a = target)) =
      lookup key list target := by
  cases hfound : lookup key list target with
  | some a =>
    obtain ⟨before, after, rfl, hpos, hkey, -, -⟩ := split_found h hfound
    simp [hpos, hkey]
  | none =>
    obtain ⟨before, after, rfl, hpos, -, -⟩ := split_missing h hfound
    rw [hpos]
    cases after with
    | nil => simp
    | cons y rest =>
      have hne := lookup_eq_none_iff.mp hfound y (by simp)
      simp [hne]

/-- Insertion right behind a prefix. -/
theorem insertIdx_length_append (before after : List α) (a : α) :
    (before ++ after).insertIdx before.length a = before ++ a :: after := by
  induction before with
  | nil => simp
  | cons b rest ih => simp [ih]

/-- Removal right behind a prefix. -/
theorem eraseIdx_length_append (before after : List α) (a : α) :
    (before ++ a :: after).eraseIdx before.length = before ++ after := by
  induction before with
  | nil => simp
  | cons b rest ih => simp [ih]

/-- Replacement right behind a prefix. -/
theorem set_length_append (before after : List α) (a b : α) :
    (before ++ a :: after).set before.length b = before ++ b :: after := by
  induction before with
  | nil => simp
  | cons c rest ih => simp [ih]

/-- Three parts in ascending order concatenate to an ascending list. -/
theorem ascending_append_cons {before after : List α} {a : α}
    (hbefore : Ascending key before) (hafter : Ascending key after)
    (hlow : ∀ x ∈ before, key x < key a) (hhigh : ∀ y ∈ after, key a < key y) :
    Ascending key (before ++ a :: after) := by
  refine List.pairwise_append.mpr ⟨hbefore, List.pairwise_cons.mpr ⟨hhigh, hafter⟩, ?_⟩
  intro x hx y hy
  rcases List.mem_cons.mp hy with rfl | hy
  · exact hlow x hx
  · exact (hlow x hx).trans (hhigh y hy)

/-- The value a lookup gives depends only on the elements, not on their order. -/
theorem lookup_eq_some_iff (h : Ascending key list) {a : α} :
    lookup key list target = some a ↔ a ∈ list ∧ key a = target :=
  ⟨mem_of_lookup, fun ⟨hmem, hkey⟩ => hkey ▸ lookup_of_mem h hmem⟩

/-- Inserting an absent key at its lower bound keeps the order. -/
theorem ascending_insertIdx (h : Ascending key list) {a : α}
    (hnone : lookup key list (key a) = none) :
    Ascending key (list.insertIdx (lowerBound key list (key a)) a) := by
  obtain ⟨before, after, rfl, hpos, hlow, hhigh⟩ := split_missing h hnone
  obtain ⟨hbefore, hafter, -⟩ := List.pairwise_append.mp h
  rw [hpos, insertIdx_length_append]
  exact ascending_append_cons hbefore hafter hlow hhigh

/-- Inserting an absent key at its lower bound adds exactly that key. -/
theorem lookup_insertIdx (h : Ascending key list) {a : α}
    (hnone : lookup key list (key a) = none) (w : K) :
    lookup key (list.insertIdx (lowerBound key list (key a)) a) w =
      if w = key a then some a else lookup key list w := by
  have hsorted := ascending_insertIdx h hnone
  obtain ⟨before, after, rfl, hpos, -, -⟩ := split_missing h hnone
  rw [hpos, insertIdx_length_append] at hsorted ⊢
  ext b
  rw [lookup_eq_some_iff hsorted]
  by_cases hw : w = key a
  · rw [if_pos hw, hw]
    constructor
    · rintro ⟨hb, hkey⟩
      rw [eq_of_key_eq hsorted hb (by simp) hkey]
    · intro hb
      cases hb
      exact ⟨by simp, rfl⟩
  · rw [if_neg hw, lookup_eq_some_iff h]
    simp only [List.mem_append, List.mem_cons]
    constructor
    · rintro ⟨hb | rfl | hb, rfl⟩
      · exact ⟨Or.inl hb, rfl⟩
      · exact absurd rfl hw
      · exact ⟨Or.inr hb, rfl⟩
    · rintro ⟨hb | hb, rfl⟩
      · exact ⟨Or.inl hb, rfl⟩
      · exact ⟨Or.inr (Or.inr hb), rfl⟩

/-- Removing the element at the lower bound of its key keeps the order. -/
theorem ascending_eraseIdx (h : Ascending key list) (pos : ℕ) :
    Ascending key (list.eraseIdx pos) := h.sublist (List.eraseIdx_sublist _ _)

/-- Removing the element at the lower bound of its key removes exactly that key. -/
theorem lookup_eraseIdx (h : Ascending key list) {a : α}
    (ha : lookup key list target = some a) (w : K) :
    lookup key (list.eraseIdx (lowerBound key list target)) w =
      if w = target then none else lookup key list w := by
  obtain ⟨before, after, rfl, hpos, rfl, hlow, hhigh⟩ := split_found h ha
  have hsorted := ascending_eraseIdx h before.length
  rw [eraseIdx_length_append] at hsorted
  rw [hpos, eraseIdx_length_append]
  by_cases hw : w = key a
  · rw [if_pos hw, hw, lookup_eq_none_iff]
    intro b hb
    rcases List.mem_append.mp hb with hb | hb
    · exact ne_of_lt (hlow b hb)
    · exact ne_of_gt (hhigh b hb)
  · rw [if_neg hw]
    ext b
    rw [lookup_eq_some_iff hsorted, lookup_eq_some_iff h]
    simp only [List.mem_append, List.mem_cons]
    constructor
    · rintro ⟨hb | hb, rfl⟩
      · exact ⟨Or.inl hb, rfl⟩
      · exact ⟨Or.inr (Or.inr hb), rfl⟩
    · rintro ⟨hb | rfl | hb, rfl⟩
      · exact ⟨Or.inl hb, rfl⟩
      · exact absurd rfl hw
      · exact ⟨Or.inr hb, rfl⟩

/-- Replacing an element by one with the same key keeps the order. -/
theorem ascending_set (h : Ascending key list) {a b : α}
    (ha : lookup key list (key b) = some a) :
    Ascending key (list.set (lowerBound key list (key b)) b) := by
  obtain ⟨before, after, rfl, hpos, hkey, hlow, hhigh⟩ := split_found h ha
  obtain ⟨hbefore, hrest, -⟩ := List.pairwise_append.mp h
  rw [hpos, set_length_append]
  exact ascending_append_cons hbefore (List.pairwise_cons.mp hrest).2 hlow hhigh

/-- Replacing an element by one with the same key changes exactly that key's answer. -/
theorem lookup_set (h : Ascending key list) {a b : α}
    (ha : lookup key list (key b) = some a) (w : K) :
    lookup key (list.set (lowerBound key list (key b)) b) w =
      if w = key b then some b else lookup key list w := by
  have hsorted := ascending_set h ha
  obtain ⟨before, after, rfl, hpos, hkey, hlow, hhigh⟩ := split_found h ha
  rw [hpos, set_length_append] at hsorted ⊢
  ext c
  rw [lookup_eq_some_iff hsorted]
  by_cases hw : w = key b
  · rw [if_pos hw, hw]
    constructor
    · rintro ⟨hc, hckey⟩
      rw [eq_of_key_eq hsorted hc (by simp) hckey]
    · intro hc
      cases hc
      exact ⟨by simp, rfl⟩
  · rw [if_neg hw, lookup_eq_some_iff h]
    simp only [List.mem_append, List.mem_cons]
    constructor
    · rintro ⟨hc | rfl | hc, rfl⟩
      · exact ⟨Or.inl hc, rfl⟩
      · exact absurd rfl hw
      · exact ⟨Or.inr (Or.inr hc), rfl⟩
    · rintro ⟨hc | rfl | hc, rfl⟩
      · exact ⟨Or.inl hc, rfl⟩
      · exact absurd hkey hw
      · exact ⟨Or.inr (Or.inr hc), rfl⟩

/-- Counting after an insertion at the lower bound of an absent key. -/
theorem countP_insertIdx (h : Ascending key list) {a : α}
    (hnone : lookup key list (key a) = none) (p : α → Bool) :
    (list.insertIdx (lowerBound key list (key a)) a).countP p =
      list.countP p + (if p a then 1 else 0) := by
  obtain ⟨before, after, rfl, hpos, -, -⟩ := split_missing h hnone
  rw [hpos, insertIdx_length_append]
  simp only [List.countP_append, List.countP_cons]
  omega

/-- Counting after a removal at the lower bound of a present key. -/
theorem countP_eraseIdx (h : Ascending key list) {a : α}
    (ha : lookup key list target = some a) (p : α → Bool) :
    (list.eraseIdx (lowerBound key list target)).countP p + (if p a then 1 else 0) =
      list.countP p := by
  obtain ⟨before, after, rfl, hpos, -, -, -⟩ := split_found h ha
  rw [hpos, eraseIdx_length_append]
  simp only [List.countP_append, List.countP_cons]
  omega

/-- Counting after a replacement at the lower bound of a present key. -/
theorem countP_set (h : Ascending key list) {a b : α}
    (ha : lookup key list target = some a) (p : α → Bool) :
    (list.set (lowerBound key list target) b).countP p + (if p a then 1 else 0) =
      list.countP p + (if p b then 1 else 0) := by
  obtain ⟨before, after, rfl, hpos, -, -, -⟩ := split_found h ha
  rw [hpos, set_length_append]
  simp only [List.countP_append, List.countP_cons]
  omega

/-- The lower bound of a present key is a position of the list. -/
theorem lowerBound_lt_length (h : Ascending key list) {a : α}
    (ha : lookup key list target = some a) : lowerBound key list target < list.length := by
  obtain ⟨before, after, rfl, hpos, -, -, -⟩ := split_found h ha
  rw [hpos, List.length_append, List.length_cons]
  omega

/-- Two ascending lists of keys with the same elements are equal. -/
theorem eq_of_mem_iff {left right : List K} (hleft : Ascending id left)
    (hright : Ascending id right) (h : ∀ a, a ∈ left ↔ a ∈ right) : left = right := by
  have hperm : left.Perm right :=
    (List.perm_ext_iff_of_nodup (hleft.imp ne_of_lt) (hright.imp ne_of_lt)).mpr h
  exact hperm.eq_of_pairwise (fun a b _ _ hab hba => absurd hab (not_lt.mpr (le_of_lt hba)))
    hleft hright

/-- `std::binary_search` on a row of keys. -/
def binarySearch (list : List K) (target : K) : Bool :=
  match list[lowerBound id list target]? with
  | some a => decide (a = target)
  | none => false

/-- On an ascending row binary search decides membership. -/
theorem binarySearch_eq_decide {list : List K} (h : Ascending id list) (target : K) :
    binarySearch list target = decide (target ∈ list) := by
  have hget := getElem?_lowerBound h target
  unfold binarySearch
  cases hat : list[lowerBound id list target]? with
  | none =>
    rw [hat, Option.filter_none] at hget
    have hnot : target ∉ list := fun hmem => lookup_eq_none_iff.mp hget.symm target hmem rfl
    simp [hnot]
  | some a =>
    rw [hat] at hget
    by_cases ha : a = target
    · subst ha
      simp [List.mem_of_getElem? hat]
    · rw [Option.filter_some_neg (by simpa using ha)] at hget
      have hnot : target ∉ list := fun hmem => lookup_eq_none_iff.mp hget.symm target hmem rfl
      simp [ha, hnot]

end SortedList
