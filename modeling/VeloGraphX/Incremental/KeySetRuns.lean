import Mathlib
import VeloGraphX.Incremental.ReusableKeySet

/-!
# Runs of the reusable key set

A sequence of calls is compared with a set of keys that every reset empties. As long as not more
keys are inserted than the last reset announced, the answers agree and every probe loop ends,
however often the table is reused and the generation wraps around.
-/

namespace VeloGraphX

open FuelLoop

/-- A call of the set's interface. -/
inductive KeySetCall
  | reset (expectedEntries : ℕ)
  | insert (key : UInt64)
  | contains (key : UInt64)
deriving DecidableEq

/-- What the keys since the last reset are, and for how many of them it made room. -/
structure FreshKeys where
  bound : ℕ := 0
  seen : Finset UInt64 := ∅

namespace FreshKeys

variable (spec : FreshKeys)

/-- The keys after a call. -/
def next : KeySetCall → FreshKeys
  | .reset expectedEntries => ⟨expectedEntries, ∅⟩
  | .insert key => { spec with seen := insert key spec.seen }
  | .contains _ => spec

/-- The answer to a call: an insertion tells whether the key is new. -/
def answer : KeySetCall → Option Bool
  | .reset _ => none
  | .insert key => some (decide (key ∉ spec.seen))
  | .contains key => some (decide (key ∈ spec.seen))

/-- The call keeps to what a batch can ask for, and to the number of keys announced. -/
def Allows : KeySetCall → Prop
  | .reset expectedEntries => expectedEntries < 2 ^ 59
  | .insert key => (insert key spec.seen).card ≤ spec.bound
  | .contains _ => True

/-- Whether a call is allowed can be decided. -/
instance (call : KeySetCall) : Decidable (spec.Allows call) :=
  match call with
  | .reset expectedEntries => inferInstanceAs (Decidable (expectedEntries < 2 ^ 59))
  | .insert key => inferInstanceAs (Decidable ((insert key spec.seen).card ≤ spec.bound))
  | .contains _ => inferInstanceAs (Decidable True)

/-- Every call of a sequence is allowed. -/
def AllowsAll (spec : FreshKeys) : List KeySetCall → Prop
  | [] => True
  | call :: rest => spec.Allows call ∧ (spec.next call).AllowsAll rest

/-- The answers to a sequence of calls. -/
def answers (spec : FreshKeys) : List KeySetCall → List (Option Bool)
  | [] => []
  | call :: rest => spec.answer call :: (spec.next call).answers rest

end FreshKeys

/-- The keys as the numbers that the table stores. -/
def storedKeys (seen : Finset UInt64) : Finset ℕ :=
  seen.map ⟨UInt64.toNat, fun _ _ => UInt64.toNat_inj.mp⟩

/-- A key is stored when it has been seen. -/
theorem toNat_mem_storedKeys {seen : Finset UInt64} (key : UInt64) :
    key.toNat ∈ storedKeys seen ↔ key ∈ seen :=
  Finset.mem_map' ⟨UInt64.toNat, fun _ _ => UInt64.toNat_inj.mp⟩

/-- Storing one more key. -/
theorem storedKeys_insert (seen : Finset UInt64) (key : UInt64) :
    storedKeys (insert key seen) = insert key.toNat (storedKeys seen) :=
  Finset.map_insert _ key seen

/-- Doubling does not go beyond a power of two times the start that reaches the target. -/
theorem doubleUntil_le (target required : ℕ) (hpos : 0 < required) {k : ℕ}
    (htarget : target ≤ required * 2 ^ k) : doubleUntil target required hpos ≤ required * 2 ^ k := by
  fun_induction doubleUntil target required hpos generalizing k with
  | case1 required hpos hlt ih =>
    cases k with
    | zero => omega
    | succ k =>
      have hshift : required <<< 1 * 2 ^ k = required * 2 ^ (k + 1) := by
        rw [Nat.shiftLeft_eq, pow_succ]
        ring
      exact (ih (htarget.trans_eq hshift.symm)).trans_eq hshift
  | case2 required hpos hnot => exact Nat.le_mul_of_pos_right _ (by positivity)

namespace ReusableKeySet

/-- One call on the table. -/
def exec (fuel : ℕ) (set : ReusableKeySet) : KeySetCall → Option (Option Bool × ReusableKeySet)
  | .reset expectedEntries => some (none, set.reset expectedEntries)
  | .insert key => (set.insert fuel key.toNat).map fun r => (some r.1, r.2)
  | .contains key => (set.contains fuel key.toNat).map fun found => (some found, set)

/-- A sequence of calls, with the answers. -/
def run (fuel : ℕ) (set : ReusableKeySet) :
    List KeySetCall → Option (List (Option Bool) × ReusableKeySet)
  | [] => some ([], set)
  | call :: rest => (set.exec fuel call).bind fun r =>
      (run fuel r.2 rest).map fun r' => (r.1 :: r'.1, r'.2)

/-- The table serves the keys: it holds them, or it has not been reset yet. Its size is one that
64 bits can double. -/
structure Serves (set : ReusableKeySet) (spec : FreshKeys) : Prop where
  reusable : Reusable set
  holds : set.keys ≠ [] → Holds set spec.bound (storedKeys spec.seen)
  unused : set.keys = [] → spec.bound = 0 ∧ spec.seen = ∅
  length_le : set.keys.length ≤ 2 ^ 60

variable {set : ReusableKeySet} {spec : FreshKeys}

/-- A reset leaves a table of the old size, or of one that the expected number of keys asks for. -/
theorem length_reset_le {expectedEntries : ℕ} (hlt : expectedEntries < 2 ^ 59)
    (hle : set.keys.length ≤ 2 ^ 60) : (set.reset expectedEntries).keys.length ≤ 2 ^ 60 := by
  have hrequired : doubleUntil (expectedEntries * 2 + 1) 8 (by decide) ≤ 8 * 2 ^ 57 :=
    doubleUntil_le _ 8 (by decide) (by omega)
  unfold ReusableKeySet.reset
  dsimp only
  split
  · rw [List.length_replicate]
    omega
  · split <;> exact hle

/-- An insertion leaves the size of the table. -/
theorem length_insert {fuel key : ℕ} {r : Bool × ReusableKeySet}
    (h : set.insert fuel key = some r) : r.2.keys.length = set.keys.length := by
  obtain ⟨slot, -, rfl⟩ := Option.map_eq_some_iff.mp h
  split
  · rfl
  · exact List.length_set

/-- A call that is allowed ends with the answer of the fresh set. -/
theorem Serves.exec (h : Serves set spec) {call : KeySetCall} (hallows : spec.Allows call) :
    Returns (fun fuel => set.exec fuel call) fun r =>
      r.1 = spec.answer call ∧ Serves r.2 (spec.next call) := by
  cases call with
  | reset expectedEntries =>
    have hreset := h.reusable.reset expectedEntries
    have hused : (set.reset expectedEntries).keys ≠ [] :=
      List.ne_nil_of_length_pos (Nat.zero_lt_of_lt hreset.room)
    exact Returns.pure ⟨rfl, hreset.toReusable, fun _ => hreset, fun hnil => absurd hnil hused,
      length_reset_le hallows h.length_le⟩
  | insert key =>
    have hcard : (Insert.insert key spec.seen).card ≤ spec.bound := hallows
    have hused : set.keys ≠ [] := fun hnil => by
      rw [(h.unused hnil).1, Nat.le_zero, Finset.card_eq_zero] at hcard
      exact Finset.insert_ne_empty _ _ hcard
    have hroom : key.toNat ∉ storedKeys spec.seen → (storedKeys spec.seen).card < spec.bound := by
      intro hnew
      rw [toNat_mem_storedKeys] at hnew
      rw [Finset.card_insert_of_notMem hnew] at hcard
      exact (Finset.card_map _).trans_lt hcard
    obtain ⟨r, ⟨hanswer, hholds⟩, fuel, hrun⟩ := (h.holds hused).insert hroom
    have hlength := length_insert (hrun fuel le_rfl)
    have hused' : r.2.keys ≠ [] := List.ne_nil_of_length_pos (Nat.zero_lt_of_lt hholds.room)
    refine Returns.map ⟨r, ⟨?_, hholds.toReusable, fun _ => ?_, fun hnil => absurd hnil hused',
      hlength ▸ h.length_le⟩, fuel, hrun⟩
    · rw [hanswer]
      exact congrArg some (decide_eq_decide.mpr (not_congr (toNat_mem_storedKeys key)))
    · exact (storedKeys_insert spec.seen key).symm ▸ hholds
  | contains key =>
    by_cases hnil : set.keys = []
    · have hseen := (h.unused hnil).2
      have hfalse : ∀ fuel, set.contains fuel key.toNat = some false := fun fuel => by
        rw [ReusableKeySet.contains, hnil]
        rfl
      refine Returns.map ⟨false, ⟨?_, h⟩, 0, fun fuel _ => hfalse fuel⟩
      show some false = some (decide (key ∈ spec.seen))
      rw [hseen]
      rfl
    · refine Returns.map (((h.holds hnil).contains key.toNat).mono fun found hfound => ⟨?_, h⟩)
      rw [hfound]
      exact congrArg some (decide_eq_decide.mpr (toNat_mem_storedKeys key))

/-- A set that has not been used serves no keys. -/
theorem serves_empty : Serves {} {} :=
  ⟨reusable_empty, fun hne => absurd rfl hne, fun _ => ⟨rfl, rfl⟩, Nat.zero_le _⟩

/-- A sequence of calls that are allowed ends with the answers of the fresh set. -/
theorem Serves.run {calls : List KeySetCall} (h : Serves set spec) (hallows : spec.AllowsAll calls) :
    Returns (fun fuel => set.run fuel calls) fun r =>
      r.1 = spec.answers calls ∧ r.2.keys.length ≤ 2 ^ 60 := by
  induction calls generalizing set spec with
  | nil => exact Returns.pure ⟨rfl, h.length_le⟩
  | cons call rest ih =>
    refine (h.exec hallows.1).bind fun r hr => Returns.map ((ih hr.2 hallows.2).mono ?_)
    rintro r' ⟨hanswers, hlength⟩
    exact ⟨by rw [hr.1, hanswers]; rfl, hlength⟩

/-- From a new set on, a sequence of resets for fewer than `2 ^ 59` keys, each followed by calls that
insert at most as many keys as it announced, ends with the answers of a set that every reset empties,
and never needs a table whose size 64 bits cannot hold. -/
theorem run_fresh (calls : List KeySetCall) (hallows : FreshKeys.AllowsAll {} calls) :
    Returns (fun fuel => ReusableKeySet.run fuel {} calls) fun r =>
      r.1 = FreshKeys.answers {} calls ∧ r.2.keys.length ≤ 2 ^ 60 :=
  serves_empty.run hallows

/-- The case of one key and two resets. -/
theorem run_fresh_twice :
    Returns (fun fuel => ReusableKeySet.run fuel {}
      [.contains 7, .reset 1, .insert 7, .insert 7, .reset 1, .contains 7]) fun r =>
      r.1 = [some false, none, some true, some false, none, some false] ∧
        r.2.keys.length ≤ 2 ^ 60 :=
  run_fresh [.contains 7, .reset 1, .insert 7, .insert 7, .reset 1, .contains 7]
    ⟨trivial, by decide, by decide, by decide, by decide, trivial, trivial⟩

end ReusableKeySet

end VeloGraphX
