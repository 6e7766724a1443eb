import Mathlib

/-!
# Runs of a step relation

An invariant that every step keeps holds along every run, and a natural number that every step
from an invariant state makes smaller bounds how many steps a run takes, whoever schedules them.
Where there is no such number, a schedule that gives a process its turn again and again still leads
it to a goal that its turns bring nearer.
-/

namespace Interleaving

variable {σ : Type*} {step : σ → σ → Prop} {I : σ → Prop}

/-- What every step keeps, every run keeps. -/
theorem run_keeps (keep : ∀ s s', I s → step s s' → I s') {s s' : σ}
    (h : Relation.ReflTransGen step s s') (hs : I s) : I s' := by
  induction h with
  | refl => exact hs
  | tail _ hstep ih => exact keep _ _ ih hstep

/-- A run takes no more steps than the measure of its first state. -/
theorem length_le_measure (keep : ∀ s s', I s → step s s' → I s') {measure : σ → ℕ}
    (less : ∀ s s', I s → step s s' → measure s' < measure s) {s : σ} (hs : I s)
    {run : List σ} (h : (s :: run).IsChain step) : run.length ≤ measure s := by
  induction run generalizing s with
  | nil => exact Nat.zero_le _
  | cons next rest ih =>
    obtain ⟨hstep, hrest⟩ := List.isChain_cons_cons.mp h
    have hless := less s next hs hstep
    have hlater := ih (keep s next hs hstep) hrest
    rw [List.length_cons]
    omega

section Fair

variable {ι : Type*} {turn : ℕ → ι} {i : ι} {start : ℕ}

/-- A schedule under which `i` takes its turn again and again. -/
def Fair (turn : ℕ → ι) (i : ι) : Prop := ∀ n, ∃ m ≥ n, turn m = i

/-- A measure that never grows stops changing. -/
theorem eventually_constant {measure : ℕ → ℕ} (h : ∀ n, measure (n + 1) ≤ measure n) :
    ∃ start, ∀ n ≥ start, measure n = measure start := by
  obtain ⟨start, hstart⟩ := Nat.sInf_mem (Set.range_nonempty measure)
  have hanti : Antitone measure := antitone_nat_of_succ_le h
  refine ⟨start, fun n hn => le_antisymm (hanti hn) ?_⟩
  rw [hstart]
  exact Nat.sInf_le ⟨n, rfl⟩

/-- What `i` alone can change is unchanged at its next turn. -/
theorem Fair.next_turn {γ : Type*} (h : Fair turn i) {place : ℕ → γ}
    (stay : ∀ n ≥ start, turn n ≠ i → place (n + 1) = place n) :
    ∃ n ≥ start, turn n = i ∧ place n = place start := by
  classical
  have hsome : ∃ k, turn (start + k) = i := by
    obtain ⟨m, hm, hturn⟩ := h start
    exact ⟨m - start, by rwa [Nat.add_sub_cancel' hm]⟩
  refine ⟨start + Nat.find hsome, Nat.le_add_right _ _, Nat.find_spec hsome, ?_⟩
  have hsame : ∀ k ≤ Nat.find hsome, place (start + k) = place start := by
    intro k hk
    induction k with
    | zero => rfl
    | succ k ih =>
      have hother : turn (start + k) ≠ i := Nat.find_min hsome (Nat.lt_of_succ_le hk)
      rw [← Nat.add_assoc, stay _ (Nat.le_add_right _ _) hother, ih (Nat.le_of_succ_le hk)]
  exact hsame _ le_rfl

/-- Turns of `i` that bring it nearer to a goal lead to one at which it is there. -/
theorem Fair.leads_to (h : Fair turn i) {goal : ℕ → Prop} {measure : ℕ → ℕ}
    (stay : ∀ n ≥ start, turn n ≠ i → measure (n + 1) ≤ measure n)
    (nearer : ∀ n ≥ start, turn n = i → goal n ∨ measure (n + 1) < measure n) :
    ∃ n ≥ start, turn n = i ∧ goal n := by
  by_contra hnever
  have hless : ∀ n ≥ start, turn n = i → measure (n + 1) < measure n := fun n hn hturn =>
    (nearer n hn hturn).resolve_left fun hgoal => hnever ⟨n, hn, hturn, hgoal⟩
  have hkeep : ∀ n, measure (start + (n + 1)) ≤ measure (start + n) := by
    intro n
    by_cases hturn : turn (start + n) = i
    · exact (hless _ (Nat.le_add_right _ _) hturn).le
    · exact stay _ (Nat.le_add_right _ _) hturn
  obtain ⟨last, hlast⟩ := @eventually_constant (fun n => measure (start + n)) hkeep
  obtain ⟨m, hm, hturn⟩ := h (start + last)
  obtain ⟨k, rfl⟩ := Nat.exists_eq_add_of_le ((Nat.le_add_right start last).trans hm)
  have hlt := hless _ (Nat.le_add_right _ _) hturn
  have hnow : measure (start + k) = measure (start + last) := hlast k (by omega)
  have hnext : measure (start + k + 1) = measure (start + last) := hlast (k + 1) (by omega)
  omega

end Fair

end Interleaving
