import Mathlib
import VeloGraphX.Types
import VeloGraphX.Lib.FuelLoop
import VeloGraphX.Lib.LinearProbing
import VeloGraphX.Lib.PointUpdate

/-!
# The reusable key set

A hash set with linear probing that is emptied by starting a new generation: an entry counts
only if its stamp is the current generation. When the 32-bit generation wraps around, all
stamps are cleared. After every reset the set behaves as a fresh one.
-/

namespace VeloGraphX

open FuelLoop PointUpdate LinearProbing

/-- `ReusableKeySet`. -/
structure ReusableKeySet where
  keys : List ℕ := []
  stamps : List ℕ := []
  mask : ℕ := 0
  generation : ℕ := 0

/-- `mix`. -/
def mix (value : UInt64) : UInt64 :=
  let value := value + 0x9e3779b97f4a7c15
  let value := (value ^^^ (value >>> 30)) * 0xbf58476d1ce4e5b9
  let value := (value ^^^ (value >>> 27)) * 0x94d049bb133111eb
  value ^^^ (value >>> 31)

/-- Double until the target is reached, as the loop in `reset` does. -/
def doubleUntil (target required : ℕ) (hpos : 0 < required) : ℕ :=
  if required < target then doubleUntil target (required <<< 1) (by rw [Nat.shiftLeft_eq]; omega)
  else required
termination_by target - required
decreasing_by rw [Nat.shiftLeft_eq]; omega

namespace ReusableKeySet

variable (set : ReusableKeySet)

/-- `reset`. -/
def reset (expectedEntries : ℕ) : ReusableKeySet :=
  let required := doubleUntil (expectedEntries * 2 + 1) 8 (by decide)
  if set.keys.length < required then
    { keys := List.replicate required 0, stamps := List.replicate required 0,
      mask := required - 1, generation := 1 }
  else
    let generation := addU32 set.generation 1
    if generation = 0 then
      { set with stamps := List.replicate set.stamps.length 0, generation := 1 }
    else { set with generation := generation }

/-- The probe loop of `insert` and `contains`: the slot at which it ends. -/
def probe (fuel : ℕ) (key : ℕ) : Option ℕ :=
  whileLoop (fun slot => set.stamps.getD slot 0 = set.generation && set.keys.getD slot 0 ≠ key)
    (fun _ slot => some ((slot + 1) &&& set.mask)) fuel
    ((mix (UInt64.ofNat key)).toNat &&& set.mask)

/-- `insert`: whether the key is new, and the set afterwards. -/
def insert (fuel : ℕ) (key : ℕ) : Option (Bool × ReusableKeySet) :=
  (set.probe fuel key).map fun slot =>
    if set.stamps.getD slot 0 = set.generation then (false, set)
    else
      (true, { set with
        keys := set.keys.set slot key, stamps := set.stamps.set slot set.generation })

/-- `contains`. -/
def contains (fuel : ℕ) (key : ℕ) : Option Bool :=
  if set.keys.isEmpty then some false
  else (set.probe fuel key).map fun slot => set.stamps.getD slot 0 = set.generation

/-- The key in a slot, if the slot belongs to the current generation. -/
def cell (slot : ℕ) : Option ℕ :=
  if set.stamps.getD slot 0 = set.generation then some (set.keys.getD slot 0) else none

/-- The home slot of a key, before it is reduced to the table. -/
def home (key : ℕ) : ℕ := (mix (UInt64.ofNat key)).toNat

/-- What every reachable set keeps: a table whose size is a power of two, or none yet, and no
stamp from a future generation. -/
structure Reusable (set : ReusableKeySet) : Prop where
  length_eq : set.stamps.length = set.keys.length
  size : set.keys = [] ∨ ∃ k, set.keys.length = 2 ^ k ∧ set.mask = 2 ^ k - 1
  stamps_le : ∀ slot, set.stamps.getD slot 0 ≤ set.generation
  generation_lt : set.generation < 2 ^ 32

/-- The set holds the given keys, and its table has room for `bound` of them. -/
structure Holds (set : ReusableKeySet) (bound : ℕ) (seen : Finset ℕ) : Prop
    extends Reusable set where
  room : bound < set.keys.length
  card_le : seen.card ≤ bound
  placed : Placed set.keys.length home set.cell seen

variable {set}

/-- A set that has not been used yet. -/
theorem reusable_empty : Reusable {} :=
  ⟨rfl, Or.inl rfl, fun _ => le_of_eq List.getD_nil, by decide⟩

/-- Doubling ends at or above the target, at a power of two times the start. -/
theorem doubleUntil_spec (target required : ℕ) (hpos : 0 < required) :
    target ≤ doubleUntil target required hpos ∧
      ∃ k, doubleUntil target required hpos = required * 2 ^ k := by
  fun_induction doubleUntil target required hpos with
  | case1 required hpos hlt ih =>
    obtain ⟨hle, k, hk⟩ := ih
    refine ⟨hle, k + 1, hk.trans ?_⟩
    rw [Nat.shiftLeft_eq, pow_succ]
    ring
  | case2 required hpos hnot => exact ⟨not_lt.mp hnot, 0, (Nat.mul_one _).symm⟩

/-- A reset starts with no keys and room for the expected ones. -/
theorem Reusable.reset (h : Reusable set) (expected : ℕ) : Holds (set.reset expected) expected ∅ := by
  obtain ⟨htarget, k, hpower⟩ := doubleUntil_spec (expected * 2 + 1) 8 (by decide)
  have hpow : doubleUntil (expected * 2 + 1) 8 (by decide) = 2 ^ (k + 3) := by
    rw [hpower, pow_add]
    ring
  unfold ReusableKeySet.reset
  dsimp only
  generalize doubleUntil (expected * 2 + 1) 8 (by decide) = required at htarget hpow ⊢
  have hblank : ∀ (n slot : ℕ), (List.replicate n 0).getD slot 0 = 0 := fun n slot => by
    rw [List.getD_eq_getElem?_getD, List.getElem?_replicate]
    split <;> rfl
  have hfree : ∀ (keys : List ℕ) (n mask slot : ℕ),
      cell ⟨keys, List.replicate n 0, mask, 1⟩ slot = none := fun keys n mask slot => by
    unfold cell
    rw [if_neg]
    rw [hblank]
    exact Nat.zero_ne_one
  split
  · refine ⟨⟨by simp, Or.inr ⟨k + 3, by simpa using hpow, by rw [hpow]⟩, fun slot => ?_,
      (by norm_num : 1 < 2 ^ 32)⟩, ?_, Nat.zero_le _, placed_empty fun slot _ => hfree _ _ _ slot⟩
    · exact (hblank _ slot).trans_le (Nat.zero_le _)
    · rw [List.length_replicate]
      omega
  · rename_i hlarge
    have hroom : expected < set.keys.length := by omega
    split
    · refine ⟨⟨?_, h.size, fun slot => ?_, (by norm_num : 1 < 2 ^ 32)⟩, hroom, Nat.zero_le _,
        placed_empty fun slot _ => hfree _ _ _ slot⟩
      · exact List.length_replicate.trans h.length_eq
      · exact (hblank _ slot).trans_le (Nat.zero_le _)
    · rename_i hwrap
      have hlt := h.generation_lt
      have hnext : addU32 set.generation 1 = set.generation + 1 := by
        unfold addU32 at hwrap ⊢
        omega
      rw [hnext] at hwrap ⊢
      refine ⟨⟨h.length_eq, h.size, fun slot => (h.stamps_le slot).trans (Nat.le_succ _), ?_⟩,
        hroom, Nat.zero_le _, placed_empty fun slot _ => ?_⟩
      · unfold addU32 at hnext
        dsimp only
        omega
      · have hle := h.stamps_le slot
        unfold cell
        rw [if_neg]
        dsimp only
        omega

/-- A table in use has a power of two as its size. -/
theorem Holds.size_eq {bound : ℕ} {seen : Finset ℕ} (h : Holds set bound seen) :
    ∃ k, set.keys.length = 2 ^ k ∧ set.mask = 2 ^ k - 1 := by
  refine h.size.resolve_left fun hnil => ?_
  have hroom := h.room
  rw [hnil] at hroom
  exact Nat.not_lt_zero _ hroom

/-- The probe loop ends at the first slot that is free or holds the key. -/
theorem Holds.probe {bound : ℕ} {seen : Finset ℕ} (h : Holds set bound seen) (key : ℕ) :
    Returns (fun fuel => set.probe fuel key) fun found =>
      ∃ j < set.keys.length, found = slot set.keys.length home key j ∧
        Stops set.cell key found ∧ ∀ l < j, ¬ Stops set.cell key (slot set.keys.length home key l) := by
  obtain ⟨k, hsize, hmask⟩ := h.size_eq
  obtain ⟨j, hj, hstops, hfirst⟩ := h.placed.exists_first (h.card_le.trans_lt h.room) key
  have hcond : ∀ i, (set.stamps.getD i 0 = set.generation && set.keys.getD i 0 ≠ key : Bool) = true ↔
      ¬ Stops set.cell key i := fun i => by
    unfold Stops cell
    simp only [Bool.and_eq_true, decide_eq_true_eq]
    by_cases hlive : set.stamps.getD i 0 = set.generation
    · simp only [hlive, if_true, true_and, ne_eq, reduceCtorEq, false_or, Option.some.injEq]
    · simp only [hlive, if_false, false_and, true_or, not_true]
  have hreduce : ∀ x, x &&& set.mask = x % set.keys.length := fun x => by
    rw [hmask, hsize, Nat.and_two_pow_sub_one_eq_mod]
  unfold ReusableKeySet.probe
  refine (returns_while (fun m found => ∃ i, i + m = j ∧ found = slot set.keys.length home key i)
    (fun m found hinv hgo => ?_) (m := j) ⟨0, Nat.zero_add j, ?_⟩).mono ?_
  · obtain ⟨i, hi, rfl⟩ := hinv
    have hlt : i ≠ j := fun heq => (hcond _).mp hgo (heq ▸ hstops)
    refine Returns.pure ⟨m - 1, by omega, i + 1, by omega, ?_⟩
    unfold slot
    rw [hreduce, Nat.mod_add_mod, Nat.add_assoc]
  · unfold slot home
    rw [hreduce, Nat.add_zero]
  · rintro found ⟨⟨m, i, hi, rfl⟩, hexit⟩
    have hstop : Stops set.cell key (slot set.keys.length home key i) := by
      by_contra hnot
      rw [(hcond _).mpr hnot] at hexit
      exact Bool.noConfusion hexit
    exact ⟨i, by omega, rfl, hstop, fun l hl => hfirst l (by omega)⟩

/-- A slot is live when its cell holds a key. -/
theorem cell_eq_some_iff {i key : ℕ} (hstops : Stops set.cell key i) :
    set.cell i = some key ↔ set.stamps.getD i 0 = set.generation := by
  unfold Stops cell at *
  split <;> simp_all

/-- `contains` ends and is membership. -/
theorem Holds.contains {bound : ℕ} {seen : Finset ℕ} (h : Holds set bound seen) (key : ℕ) :
    Returns (fun fuel => set.contains fuel key) (· = decide (key ∈ seen)) := by
  have hne : set.keys.isEmpty = false := by
    rw [List.isEmpty_eq_false_iff, ← List.length_pos_iff]
    exact Nat.zero_lt_of_lt h.room
  unfold ReusableKeySet.contains
  rw [hne]
  refine Returns.map ((h.probe key).mono fun found hfound => ?_)
  obtain ⟨j, hj, rfl, hstops, hfirst⟩ := hfound
  exact decide_eq_decide.mpr ((cell_eq_some_iff hstops).symm.trans (h.placed.mem_iff hj hstops hfirst).symm)

/-- `insert` ends, reports whether the key is new, and adds it. -/
theorem Holds.insert {bound : ℕ} {seen : Finset ℕ} (h : Holds set bound seen) {key : ℕ}
    (hroom : key ∉ seen → seen.card < bound) :
    Returns (fun fuel => set.insert fuel key) fun r =>
      r.1 = decide (key ∉ seen) ∧ Holds r.2 bound (Insert.insert key seen) := by
  refine Returns.map ((h.probe key).mono fun found hfound => ?_)
  obtain ⟨j, hj, rfl, hstops, hfirst⟩ := hfound
  have hmem := h.placed.mem_iff hj hstops hfirst
  rw [cell_eq_some_iff hstops] at hmem
  split
  · rename_i hlive
    have hseen := hmem.mpr hlive
    rw [Finset.insert_eq_self.mpr hseen]
    exact ⟨by simp [hseen], h⟩
  · rename_i hfree
    have hnew : key ∉ seen := fun hseen => hfree (hmem.mp hseen)
    have hcell : set.cell (slot set.keys.length home key j) = none := if_neg hfree
    have hin : slot set.keys.length home key j < set.keys.length := Nat.mod_lt _ (by omega)
    have hupdate : cell { set with
        keys := set.keys.set (slot set.keys.length home key j) key,
        stamps := set.stamps.set (slot set.keys.length home key j) set.generation } =
        Function.update set.cell (slot set.keys.length home key j) (some key) := by
      funext i
      unfold cell
      dsimp only
      rw [getD_set (h.length_eq.symm ▸ hin), getD_set hin]
      by_cases hi : i = slot set.keys.length home key j
      · subst hi
        rw [Function.update_self, if_pos rfl, if_pos rfl, if_pos rfl]
      · rw [Function.update_of_ne hi, if_neg hi, if_neg hi]
    refine ⟨by simp [hnew], ⟨⟨?_, ?_, fun i => ?_, h.generation_lt⟩, ?_, ?_, ?_⟩⟩
    · simp only [List.length_set, h.length_eq]
    · obtain ⟨k, hsize, hmask⟩ := h.size_eq
      exact Or.inr ⟨k, List.length_set.trans hsize, hmask⟩
    · dsimp only
      rw [getD_set (h.length_eq.symm ▸ hin)]
      split
      · exact le_rfl
      · exact h.stamps_le i
    · exact h.room.trans_eq List.length_set.symm
    · rw [Finset.card_insert_of_notMem hnew]
      exact hroom hnew
    · rw [hupdate, List.length_set]
      exact h.placed.insert hj hcell hfirst

end ReusableKeySet

end VeloGraphX
