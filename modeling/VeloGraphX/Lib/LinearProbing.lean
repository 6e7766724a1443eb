import Mathlib

/-!
# Open addressing with linear probing

A table of `size` cells, each free or holding a key. A key is looked for from its home cell
onward, cyclically, until its own or a free cell is met. `Placed` says that every key of a
set can be found that way; it decides lookups, and putting a key into the first free cell of
its probe sequence keeps it.
-/

namespace LinearProbing

variable {κ : Type*} {size : ℕ} {home : κ → ℕ} {cell : ℕ → Option κ} {keys : Finset κ}

/-- The cell looked at after `j` steps from a key's home. -/
def slot (size : ℕ) (home : κ → ℕ) (key : κ) (j : ℕ) : ℕ := (home key + j) % size

/-- Probing for a key ends at a cell that is free or holds it. -/
def Stops (cell : ℕ → Option κ) (key : κ) (i : ℕ) : Prop := cell i = none ∨ cell i = some key

/-- The cells hold exactly the given keys, each where probing finds it. -/
structure Placed (size : ℕ) (home : κ → ℕ) (cell : ℕ → Option κ) (keys : Finset κ) : Prop where
  sound : ∀ i < size, ∀ key, cell i = some key → key ∈ keys
  unique : ∀ i < size, ∀ j < size, ∀ key, cell i = some key → cell j = some key → i = j
  reach : ∀ key ∈ keys, ∃ j < size, cell (slot size home key j) = some key ∧
    ∀ l < j, cell (slot size home key l) ≠ none

/-- A table without keys. -/
theorem placed_empty (h : ∀ i < size, cell i = none) : Placed size home cell ∅ := by
  refine ⟨fun i hi key hkey => ?_, fun i hi j hj key hkey => ?_, fun key hkey => ?_⟩
  · exact absurd ((h i hi).symm.trans hkey) (by simp)
  · exact absurd ((h i hi).symm.trans hkey) (by simp)
  · exact absurd hkey (Finset.notMem_empty key)

/-- A table with fewer keys than cells has a free cell. -/
theorem Placed.exists_free (h : Placed size home cell keys) (hcard : keys.card < size) :
    ∃ i < size, cell i = none := by
  by_contra hfull
  have hkey : ∀ i : Fin size, ∃ key, cell i = some key := fun i =>
    Option.ne_none_iff_exists'.mp fun hnone => hfull ⟨i, i.isLt, hnone⟩
  choose key hcell using hkey
  have hle := Finset.card_le_card_of_injOn key (s := Finset.univ) (t := keys)
    (fun i _ => h.sound i i.isLt _ (hcell i))
    (fun i _ j _ heq => Fin.ext (h.unique i i.isLt j j.isLt _ (hcell i) (heq ▸ hcell j)))
  rw [Finset.card_univ, Fintype.card_fin] at hle
  omega

/-- Probing passes every cell. -/
theorem exists_slot_eq (key : κ) {i : ℕ} (hi : i < size) : ∃ j < size, slot size home key j = i := by
  have hpos : 0 < size := by omega
  have hhome := Nat.mod_lt (home key) hpos
  have hcancel : (home key + (size - home key % size)) % size = 0 := by
    have hsplit := Nat.div_add_mod (home key) size
    have hsum : home key + (size - home key % size) = size * (home key / size + 1) := by
      rw [Nat.mul_add, Nat.mul_one]
      omega
    rw [hsum, Nat.mul_mod_right]
  refine ⟨(i + (size - home key % size)) % size, Nat.mod_lt _ hpos, ?_⟩
  unfold slot
  rw [Nat.add_mod_mod, Nat.add_comm i, ← Nat.add_assoc, Nat.add_mod, hcancel, Nat.zero_add,
    Nat.mod_mod, Nat.mod_eq_of_lt hi]

/-- Probing for any key ends after a first number of steps. -/
theorem Placed.exists_first (h : Placed size home cell keys) (hcard : keys.card < size) (key : κ) :
    ∃ j < size, Stops cell key (slot size home key j) ∧
      ∀ l < j, ¬ Stops cell key (slot size home key l) := by
  classical
  obtain ⟨i, hi, hfree⟩ := h.exists_free hcard
  obtain ⟨j, hj, hslot⟩ := @exists_slot_eq _ size home key i hi
  have hstops : ∃ j, Stops cell key (slot size home key j) := ⟨j, Or.inl (hslot ▸ hfree)⟩
  refine ⟨Nat.find hstops, ?_, Nat.find_spec hstops, fun l hl => Nat.find_min hstops hl⟩
  exact (Nat.find_min' hstops (Or.inl (hslot ▸ hfree))).trans_lt hj

variable {key : κ} {j : ℕ}

/-- Where probing ends decides membership. -/
theorem Placed.mem_iff (h : Placed size home cell keys) (hj : j < size)
    (hstops : Stops cell key (slot size home key j))
    (hfirst : ∀ l < j, ¬ Stops cell key (slot size home key l)) :
    key ∈ keys ↔ cell (slot size home key j) = some key := by
  refine ⟨fun hmem => ?_, h.sound _ (Nat.mod_lt _ (by omega)) key⟩
  obtain ⟨l, -, hl, hfull⟩ := h.reach key hmem
  rcases lt_trichotomy l j with hlt | rfl | hgt
  · exact absurd (Or.inr hl) (hfirst l hlt)
  · exact hl
  · exact hstops.resolve_left (hfull j hgt)

/-- Putting a new key into the free cell where probing ended keeps all keys findable. -/
theorem Placed.insert [DecidableEq κ] (h : Placed size home cell keys) (hj : j < size)
    (hfree : cell (slot size home key j) = none)
    (hfirst : ∀ l < j, ¬ Stops cell key (slot size home key l)) :
    Placed size home (Function.update cell (slot size home key j) (some key))
      (insert key keys) := by
  have hnew : key ∉ keys := fun hmem => by
    rw [h.mem_iff hj (Or.inl hfree) hfirst, hfree] at hmem
    exact absurd hmem (by simp)
  have hkeep : ∀ {i x}, cell i = some x →
      Function.update cell (slot size home key j) (some key) i = some x := fun {i x} hi => by
    rw [Function.update_of_ne, hi]
    rintro rfl
    exact absurd (hfree.symm.trans hi) (by simp)
  have hstay : ∀ {i}, cell i ≠ none →
      Function.update cell (slot size home key j) (some key) i ≠ none := fun hi => by
    obtain ⟨x, hx⟩ := Option.ne_none_iff_exists'.mp hi
    rw [hkeep hx]
    exact Option.some_ne_none x
  have hread : ∀ {i x}, Function.update cell (slot size home key j) (some key) i = some x →
      (i = slot size home key j ∧ x = key) ∨ cell i = some x := fun {i x} hi => by
    by_cases heq : i = slot size home key j
    · subst heq
      rw [Function.update_self] at hi
      exact Or.inl ⟨rfl, (Option.some.inj hi).symm⟩
    · rw [Function.update_of_ne heq] at hi
      exact Or.inr hi
  refine ⟨fun i hi x hx => ?_, fun i hi l hl x hx hx' => ?_, fun x hx => ?_⟩
  · rcases hread hx with ⟨-, rfl⟩ | hold
    · exact Finset.mem_insert_self _ _
    · exact Finset.mem_insert_of_mem (h.sound i hi x hold)
  · rcases hread hx with ⟨hi', rfl⟩ | hold
    · rcases hread hx' with ⟨hl', -⟩ | hold'
      · exact hi'.trans hl'.symm
      · exact absurd (h.sound l hl _ hold') hnew
    · rcases hread hx' with ⟨-, rfl⟩ | hold'
      · exact absurd (h.sound i hi _ hold) hnew
      · exact h.unique i hi l hl x hold hold'
  · rcases Finset.mem_insert.mp hx with rfl | hmem
    · refine ⟨j, hj, Function.update_self _ _ _, fun l hl => hstay fun hnone => ?_⟩
      exact hfirst l hl (Or.inl hnone)
    · obtain ⟨l, hl, hcell, hfull⟩ := h.reach x hmem
      exact ⟨l, hl, hkeep hcell, fun l' hl' => hstay (hfull l' hl')⟩

end LinearProbing
