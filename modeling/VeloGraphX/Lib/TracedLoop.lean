import Mathlib
import VeloGraphX.Lib.FuelLoop

/-!
# Counting loops that record their turns

A counting loop is run together with a list of the counter's values, which does not change what it
does. Where the counter can hold the bound, every value below it has one turn, and no other has one.
-/

namespace FuelLoop

variable {σ τ : Type*}

/-- A loop that simulates another one through a map of its states. -/
theorem whileLoop_map (f : τ → σ) (cond : σ → Bool) (body : ℕ → σ → Option σ) (cond' : τ → Bool)
    (body' : ℕ → τ → Option τ) (hcond : ∀ t, cond' t = cond (f t))
    (hbody : ∀ fuel t, (body' fuel t).map f = body fuel (f t)) (fuel : ℕ) (t : τ) :
    (whileLoop cond' body' fuel t).map f = whileLoop cond body fuel (f t) := by
  induction fuel generalizing t with
  | zero => rfl
  | succ fuel ih =>
    rw [whileLoop, whileLoop, hcond]
    cases cond (f t) with
    | false => rfl
    | true =>
      rw [if_pos rfl, if_pos rfl, ← hbody]
      cases body' fuel t with
      | none => rfl
      | some next => exact ih next

variable {N : ℕ} [NeZero N] {bound : ℕ} {body : ℕ → Fin N → σ → Option σ}

/-- The counting loop with a list of the counter's values whose turns are over. -/
def tracedLoop (bound : ℕ) (body : ℕ → Fin N → σ → Option σ) (fuel : ℕ) (first : Fin N) (s : σ) :
    Option (List (Fin N) × σ) :=
  countLoop bound (fun fuel i state => (body fuel i state.2).map fun s => (state.1 ++ [i], s)) fuel
    first ([], s)

/-- The record does not change what the loop does. -/
theorem tracedLoop_erase (bound : ℕ) (body : ℕ → Fin N → σ → Option σ) (fuel : ℕ) (first : Fin N)
    (s : σ) : (tracedLoop bound body fuel first s).map Prod.snd = countLoop bound body fuel first s := by
  have hloop := whileLoop_map (fun state : Fin N × List (Fin N) × σ => (state.1, state.2.2))
    (fun state => decide (state.1.val < bound))
    (fun fuel state => (body fuel state.1 state.2).map fun s => (state.1 + 1, s))
    (fun state => decide (state.1.val < bound))
    (fun fuel state => ((body fuel state.1 state.2.2).map fun s =>
      (state.2.1 ++ [state.1], s)).map fun s => (state.1 + 1, s)) (fun _ => rfl)
    (fun fuel state => by simp only [Option.map_map, Function.comp_def]) fuel (first, [], s)
  rw [countLoop, ← hloop, tracedLoop, countLoop, Option.map_map, Option.map_map]
  rfl

/-- A recorded list in which every value below the bound comes once, and no other. -/
def EachOnce (bound : ℕ) (trace : List (Fin N)) : Prop :=
  ∀ i, trace.count i = if i.val < bound then 1 else 0

/-- The loop rule with the record. -/
theorem returns_tracedLoop (hbound : bound < N) (inv : ℕ → σ → Prop)
    (hbody : ∀ (i : Fin N) s, i.val < bound → inv i.val s →
      Returns (fun fuel => body fuel i s) (inv (i.val + 1))) {s : σ} (hs : inv 0 s) :
    Returns (fun fuel => tracedLoop bound body fuel 0 s) fun result =>
      EachOnce bound result.1 ∧ inv bound result.2 := by
  refine returns_countLoop hbound (fun k (state : List (Fin N) × σ) => EachOnce k state.1 ∧
    inv k state.2) (fun i state hi hstate => ?_) (Nat.zero_le bound) ⟨fun i => rfl, hs⟩
  refine Returns.map ((hbody i state.2 hi hstate.2).mono fun s hs => ⟨fun j => ?_, hs⟩)
  rw [List.count_append, hstate.1 j, List.count_singleton]
  by_cases hij : i = j
  · rw [hij]
    simp
  · have hne : i.val ≠ j.val := fun heq => hij (Fin.ext heq)
    simp only [beq_iff_eq, hij, if_false, Nat.add_zero]
    refine if_congr ?_ rfl rfl
    omega

/-- Where the counter cannot hold the bound, there is no record of the whole loop. -/
theorem diverges_tracedLoop (hbound : N ≤ bound) (body : ℕ → Fin N → σ → Option σ) (first : Fin N)
    (s : σ) : Diverges (fun fuel => tracedLoop bound body fuel first s) :=
  diverges_countLoop hbound _ first _

end FuelLoop
