import Mathlib

/-!
# Recency-ordered lists of sized items

The abstract state of a cache that evicts the least recently used items: distinct keys, the most
recently used first. Making room keeps the longest prefix that fits, so it evicts the shortest
suffix.
-/

namespace RecencyList

variable {κ P : Type*}

/-- An item with its key and the room it takes. -/
structure Item (κ P : Type*) where
  key : κ
  payload : P
  bytes : ℕ

/-- The keys, the most recently used first. -/
def keys (items : List (Item κ P)) : List κ := items.map Item.key

/-- The room all items take. -/
def total (items : List (Item κ P)) : ℕ := (items.map Item.bytes).sum

/-- The room of one more item. -/
theorem total_cons (item : Item κ P) (rest : List (Item κ P)) :
    total (item :: rest) = item.bytes + total rest := List.sum_cons

/-- The longest prefix that fits into a room. -/
def fit : ℕ → List (Item κ P) → List (Item κ P)
  | _, [] => []
  | room, item :: rest => if item.bytes ≤ room then item :: fit (room - item.bytes) rest else []

/-- What fits is a prefix. -/
theorem fit_isPrefix (room : ℕ) (items : List (Item κ P)) : fit room items <+: items := by
  induction items generalizing room with
  | nil => exact List.prefix_rfl
  | cons item rest ih =>
    rw [fit]
    split
    · exact List.cons_prefix_cons.mpr ⟨rfl, ih _⟩
    · exact List.nil_prefix

/-- What fits takes no more than the room. -/
theorem total_fit_le (room : ℕ) (items : List (Item κ P)) : total (fit room items) ≤ room := by
  induction items generalizing room with
  | nil => exact Nat.zero_le _
  | cons item rest ih =>
    rw [fit]
    split
    · rename_i hle
      have hrest := ih (room - item.bytes)
      rw [total_cons]
      omega
    · exact Nat.zero_le _

/-- No longer prefix takes no more than the room. -/
theorem length_le_fit {room : ℕ} {kept rest : List (Item κ P)} (h : total kept ≤ room) :
    kept.length ≤ (fit room (kept ++ rest)).length := by
  induction kept generalizing room with
  | nil => exact Nat.zero_le _
  | cons item kept ih =>
    rw [total_cons] at h
    rw [List.cons_append, fit, if_pos (by omega), List.length_cons, List.length_cons]
    exact Nat.succ_le_succ (ih (by omega))

/-- Everything fits into enough room. -/
theorem fit_of_total_le {room : ℕ} {items : List (Item κ P)} (h : total items ≤ room) :
    fit room items = items := by
  have hlength := @length_le_fit _ _ _ _ [] h
  rw [List.append_nil] at hlength
  exact (fit_isPrefix room items).eq_of_length_le hlength

/-- What does not fit loses its last item first. -/
theorem fit_append_singleton {room : ℕ} {items : List (Item κ P)} {last : Item κ P}
    (h : room < total (items ++ [last])) : fit room (items ++ [last]) = fit room items := by
  induction items generalizing room with
  | nil =>
    rw [List.nil_append, total_cons] at h
    exact if_neg (not_le.mpr h)
  | cons item rest ih =>
    rw [List.cons_append, total_cons] at h
    rw [List.cons_append, fit, fit]
    split
    · rw [ih (by omega)]
    · rfl

/-- A smaller room takes its prefix from what fits into a larger one. -/
theorem fit_fit {room room' : ℕ} (hle : room ≤ room') (items : List (Item κ P)) :
    fit room (fit room' items) = fit room items := by
  induction items generalizing room room' with
  | nil => rfl
  | cons first rest ih =>
    rw [fit]
    split
    · rw [fit, fit, ih (Nat.sub_le_sub_right hle first.bytes)]
    · rename_i hlarge
      exact (if_neg fun hfits => hlarge (hfits.trans hle)).symm

/-- What fits into a smaller room fits into a larger one. -/
theorem fit_isPrefix_fit {room room' : ℕ} (hle : room ≤ room') (items : List (Item κ P)) :
    fit room items <+: fit room' items :=
  fit_fit hle items ▸ fit_isPrefix room (fit room' items)

variable [DecidableEq κ]

/-- The item of a key. -/
def find (key : κ) (items : List (Item κ P)) : Option (Item κ P) :=
  List.find? (fun item => decide (item.key = key)) items

/-- Forget the item of a key. -/
def remove (key : κ) (items : List (Item κ P)) : List (Item κ P) :=
  items.filter fun item => decide (item.key ≠ key)

/-- Make the item of a key, if there is one, the most recently used. -/
def touch (key : κ) (items : List (Item κ P)) : List (Item κ P) :=
  match find key items with
  | some item => item :: remove key items
  | none => items

/-- Make an item the most recently used within a capacity, in the place of any item of its key. -/
def insert (capacity : ℕ) (item : Item κ P) (items : List (Item κ P)) : List (Item κ P) :=
  item :: fit (capacity - item.bytes) (remove item.key items)

/-- The items that are evicted by an insertion. -/
def evicted (capacity : ℕ) (item : Item κ P) (items : List (Item κ P)) : List (Item κ P) :=
  (remove item.key items).drop (fit (capacity - item.bytes) (remove item.key items)).length

/-- Looking for a key in a longer list. -/
theorem find_cons (key : κ) (first : Item κ P) (rest : List (Item κ P)) :
    find key (first :: rest) = if first.key = key then some first else find key rest := by
  rw [find, List.find?_cons]
  by_cases heq : first.key = key
  · rw [decide_eq_true heq, if_pos heq]
  · rw [decide_eq_false heq, if_neg heq]
    rfl

/-- Forgetting a key in a longer list. -/
theorem remove_cons (key : κ) (first : Item κ P) (rest : List (Item κ P)) :
    remove key (first :: rest) =
      if first.key = key then remove key rest else first :: remove key rest := by
  rw [remove, List.filter_cons]
  by_cases heq : first.key = key
  · rw [decide_eq_false (not_not.mpr heq), if_neg Bool.false_ne_true, if_pos heq]
    rfl
  · rw [decide_eq_true heq, if_pos rfl, if_neg heq]
    rfl

/-- An insertion evicts the shortest suffix of the other items that makes room. -/
theorem insert_spec {capacity : ℕ} {item : Item κ P} (hbytes : item.bytes ≤ capacity)
    (items : List (Item κ P)) :
    ∃ kept, insert capacity item items = item :: kept ∧
      remove item.key items = kept ++ evicted capacity item items ∧
      ∀ kept' evicted', remove item.key items = kept' ++ evicted' →
        total kept' + item.bytes ≤ capacity →
          (evicted capacity item items).length ≤ evicted'.length := by
  refine ⟨_, rfl, (List.prefix_append_drop (fit_isPrefix _ _)), fun kept' evicted' hsplit hroom => ?_⟩
  have hlength := @length_le_fit _ _ (capacity - item.bytes) kept' evicted' (by omega)
  rw [evicted, List.length_drop, hsplit, List.length_append]
  omega

/-- An item that is found has the key. -/
theorem key_of_find {key : κ} {items : List (Item κ P)} {item : Item κ P}
    (h : find key items = some item) : item.key = key :=
  of_decide_eq_true (List.find?_some (p := fun item : Item κ P => decide (item.key = key)) h)

/-- An item that is found is in the list. -/
theorem mem_of_find {key : κ} {items : List (Item κ P)} {item : Item κ P}
    (h : find key items = some item) : item ∈ items := List.mem_of_find?_eq_some h

/-- Nothing is found exactly when the key is not there. -/
theorem find_eq_none {key : κ} {items : List (Item κ P)} :
    find key items = none ↔ key ∉ keys items := by
  rw [find, List.find?_eq_none, keys, List.mem_map]
  simp only [decide_eq_true_eq, not_exists, not_and]

/-- An item of a list with distinct keys is found. -/
theorem find_of_mem {items : List (Item κ P)} (hnodup : (keys items).Nodup) {item : Item κ P}
    (h : item ∈ items) : find item.key items = some item := by
  cases hfind : find item.key items with
  | none => exact absurd (List.mem_map_of_mem h) (find_eq_none.mp hfind)
  | some found =>
    have hinj := List.inj_on_of_nodup_map hnodup (mem_of_find hfind) h (key_of_find hfind)
    rw [hinj]

/-- The other items stay. -/
theorem mem_remove {key : κ} {items : List (Item κ P)} {item : Item κ P} :
    item ∈ remove key items ↔ item ∈ items ∧ item.key ≠ key := by
  rw [remove, List.mem_filter, decide_eq_true_eq]

/-- Touching changes the order only. -/
theorem mem_of_mem_touch {key : κ} {items : List (Item κ P)} {item : Item κ P}
    (h : item ∈ touch key items) : item ∈ items := by
  unfold touch at h
  split at h
  · rename_i found hfind
    rcases List.mem_cons.mp h with rfl | hmem
    · exact mem_of_find hfind
    · exact (mem_remove.mp hmem).1
  · exact h

/-- The keys of the other items. -/
theorem keys_remove (key : κ) (items : List (Item κ P)) :
    keys (remove key items) = (keys items).filter fun key' => decide (key' ≠ key) := by
  rw [keys, keys, List.filter_map]
  rfl

/-- Keys stay distinct. -/
theorem nodup_remove {items : List (Item κ P)} (hnodup : (keys items).Nodup) (key : κ) :
    (keys (remove key items)).Nodup := by
  rw [keys_remove]
  exact hnodup.filter _

/-- A key that is not there takes nothing away. -/
theorem remove_of_notMem {key : κ} {items : List (Item κ P)} (h : key ∉ keys items) :
    remove key items = items :=
  List.filter_eq_self.mpr fun _ hitem =>
    decide_eq_true fun heq => h (heq ▸ List.mem_map_of_mem hitem)

/-- Forgetting an item frees its room. -/
theorem total_remove {items : List (Item κ P)} (hnodup : (keys items).Nodup) {key : κ}
    {item : Item κ P} (h : find key items = some item) :
    total items = total (remove key items) + item.bytes := by
  induction items with
  | nil => exact absurd h (by simp [find])
  | cons first rest ih =>
    have hrest := List.nodup_cons.mp hnodup
    rw [find_cons] at h
    rw [total_cons, remove_cons]
    by_cases heq : first.key = key
    · rw [if_pos heq] at h ⊢
      obtain rfl := Option.some.inj h
      have hnot : key ∉ keys rest := heq ▸ hrest.1
      rw [remove_of_notMem hnot, Nat.add_comm]
    · rw [if_neg heq] at h ⊢
      rw [ih hrest.2 h, total_cons, Nat.add_assoc]

/-- Forgetting an item shortens the list by one. -/
theorem length_remove {items : List (Item κ P)} (hnodup : (keys items).Nodup) {key : κ}
    (hmem : key ∈ keys items) : (remove key items).length + 1 = items.length := by
  have hkeys : (keys (remove key items)).length + 1 = (keys items).length := by
    have hfilter : (keys items).filter (fun key' => decide (key' ≠ key)) = (keys items).erase key := by
      rw [hnodup.erase_eq_filter]
      exact List.filter_congr fun key' _ => by by_cases heq : key' = key <;> simp [heq]
    rw [keys_remove, hfilter, List.length_erase_of_mem hmem]
    exact Nat.sub_add_cancel (List.length_pos_of_mem hmem)
  rwa [keys, keys, List.length_map, List.length_map] at hkeys

/-- Ask for an item: of all items that were asked for it is the most recently used. -/
def request (item : Item κ P) (asked : List (Item κ P)) : List (Item κ P) :=
  item :: remove item.key asked

/-- Without an item that fits, the rest of its room takes what else was there. -/
theorem remove_fit {room : ℕ} {items : List (Item κ P)} {item : Item κ P}
    (hnodup : (keys items).Nodup) (hmem : item ∈ fit room items) :
    remove item.key (fit room items) = fit (room - item.bytes) (remove item.key items) ∧
      item.bytes ≤ room := by
  induction items generalizing room with
  | nil => exact absurd hmem List.not_mem_nil
  | cons first rest ih =>
    have hkeys := List.nodup_cons.mp hnodup
    rw [fit] at hmem ⊢
    split at hmem
    · rename_i hfits
      rw [if_pos hfits, remove_cons, remove_cons]
      have hinside : item ∈ fit (room - first.bytes) rest → first.key ≠ item.key :=
        fun hrest heq => hkeys.1 (heq ▸ List.mem_map_of_mem ((fit_isPrefix _ _).subset hrest))
      rcases List.mem_cons.mp hmem with rfl | hrest
      · have hnot : item.key ∉ keys (fit (room - item.bytes) rest) := fun hkey =>
          hkeys.1 (((fit_isPrefix _ rest).map Item.key).subset hkey)
        rw [if_pos rfl, if_pos rfl, remove_of_notMem hnot, remove_of_notMem hkeys.1]
        exact ⟨rfl, hfits⟩
      · obtain ⟨hremove, hroom⟩ := ih hkeys.2 hrest
        rw [if_neg (hinside hrest), if_neg (hinside hrest), hremove, fit, if_pos (by omega)]
        exact ⟨by rw [Nat.sub_right_comm], by omega⟩
    · exact absurd hmem List.not_mem_nil

/-- An item that does not fit is no loss where its own room has been taken away. -/
theorem fit_remove {room room' : ℕ} {items : List (Item κ P)} {item : Item κ P}
    (hsame : ∀ other ∈ items, other.key = item.key → other.bytes = item.bytes)
    (hnot : item.key ∉ keys (fit room items)) (hroom : room' + item.bytes ≤ room) :
    fit room' (remove item.key items) = fit room' items := by
  induction items generalizing room room' with
  | nil => rfl
  | cons first rest ih =>
    have hkey : first.key ≠ item.key := fun heq => by
      have hbytes := hsame first List.mem_cons_self heq
      refine hnot ?_
      rw [fit, if_pos (by omega)]
      exact List.mem_cons.mpr (Or.inl heq.symm)
    rw [remove_cons, if_neg hkey, fit, fit]
    split
    · rename_i hfits
      rw [fit, if_pos (by omega)] at hnot
      have hrest : item.key ∉ keys (fit (room - first.bytes) rest) := fun hmem =>
        hnot (List.mem_cons_of_mem _ hmem)
      rw [ih (fun other hother => hsame other (List.mem_cons_of_mem _ hother)) hrest (by omega)]
    · rfl

/-- Using an item that fits: what fits of the items asked for is what was there, in the new order. -/
theorem touch_fit {room : ℕ} {asked : List (Item κ P)} {item : Item κ P}
    (hnodup : (keys asked).Nodup) (hmem : item ∈ fit room asked) :
    touch item.key (fit room asked) = fit room (request item asked) := by
  obtain ⟨hremove, hroom⟩ := remove_fit hnodup hmem
  have hnodup' : (keys (fit room asked)).Nodup :=
    hnodup.sublist ((fit_isPrefix room asked).map Item.key).sublist
  rw [touch, find_of_mem hnodup' hmem, request, fit, if_pos hroom, hremove]

/-- Inserting an item that does not fit: again what is kept is what fits of the items asked for. -/
theorem insert_fit {room : ℕ} {asked : List (Item κ P)} {item : Item κ P}
    (hsame : ∀ other ∈ asked, other.key = item.key → other.bytes = item.bytes)
    (hnot : item.key ∉ keys (fit room asked)) (hroom : item.bytes ≤ room) :
    insert room item (fit room asked) = fit room (request item asked) := by
  rw [insert, remove_of_notMem hnot, fit_fit (Nat.sub_le _ _), request, fit, if_pos hroom,
    fit_remove hsame hnot (by omega)]

/-- Items that were asked for keep distinct keys. -/
theorem nodup_request {asked : List (Item κ P)} (hnodup : (keys asked).Nodup) (item : Item κ P) :
    (keys (request item asked)).Nodup := by
  refine List.nodup_cons.mpr ⟨fun hmem => ?_, nodup_remove hnodup item.key⟩
  obtain ⟨other, hother, heq⟩ := List.mem_map.mp hmem
  exact (mem_remove.mp hother).2 heq

end RecencyList
