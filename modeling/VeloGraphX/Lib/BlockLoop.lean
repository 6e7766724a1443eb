import Mathlib
import VeloGraphX.Lib.FuelLoop

/-!
# Loops that advance by whole blocks

A loop visits the starts of the blocks of a range with a counter of a fixed width. The counter
does not wrap around as long as the range is no longer than half of what the counter can hold.
-/

namespace FuelLoop

variable {σ ε : Type*} {width size step : ℕ}

/-- `for (first = 0; first < size; first += step)` with a counter that wraps around at the width. -/
def blockLoop (width size step : ℕ) (body : ℕ → σ → Except ε σ) :
    ℕ → ℕ → σ → Option (Except ε σ)
  | 0, _, _ => none
  | fuel + 1, first, s =>
    if first < size then
      match body first s with
      | .error e => some (.error e)
      | .ok s' => blockLoop width size step body fuel ((first + step) % width) s'
    else some (.ok s)

/-- The loop rule: an invariant of how much of the range has been visited, up to the end or to the
block that throws. -/
theorem returns_blockLoop_or_throws {body : ℕ → σ → Except ε σ} (hsize : 2 * size ≤ width)
    (hstep : 0 < step) (hwidth : step < width) (inv : ℕ → σ → Prop) (thrown : ε → Prop)
    (hbody : ∀ first s, first < size → first + step < width → inv first s →
      (∃ s', body first s = .ok s' ∧ inv (min size (first + step)) s') ∨
        ∃ e, body first s = .error e ∧ thrown e) {s : σ} (hs : inv 0 s) :
    Returns (fun fuel => blockLoop width size step body fuel 0 s) fun result =>
      (∃ s', result = .ok s' ∧ inv size s') ∨ ∃ e, result = .error e ∧ thrown e := by
  have hloop : ∀ m first s, size - first ≤ m → (first = 0 ∨ step ≤ first) →
      inv (min size first) s → ∃ result,
        ((∃ s', result = .ok s' ∧ inv size s') ∨ ∃ e, result = .error e ∧ thrown e) ∧
        ∀ fuel, m < fuel → blockLoop width size step body fuel first s = some result := by
    intro m
    induction m with
    | zero =>
      intro first s hm _ hinv
      rw [min_eq_left (by omega)] at hinv
      refine ⟨.ok s, Or.inl ⟨s, rfl, hinv⟩, fun fuel hfuel => ?_⟩
      obtain ⟨k, rfl⟩ := Nat.exists_eq_add_of_le' hfuel
      rw [blockLoop, if_neg (by omega)]
    | succ m ih =>
      intro first s hm hfirst hinv
      by_cases hlt : first < size
      · rw [min_eq_right hlt.le] at hinv
        have hfits : first + step < width := by omega
        have hnowrap : (first + step) % width = first + step := Nat.mod_eq_of_lt hfits
        rcases hbody first s hlt hfits hinv with ⟨s', hbody', hinv'⟩ | ⟨e, hthrow, he⟩
        · obtain ⟨last, hlast, hrun⟩ := ih (first + step) s' (by omega) (Or.inr (by omega)) hinv'
          refine ⟨last, hlast, fun fuel hfuel => ?_⟩
          obtain ⟨k, rfl⟩ := Nat.exists_eq_add_of_le' (show 1 ≤ fuel by omega)
          rw [blockLoop, if_pos hlt, hbody']
          dsimp only
          rw [hnowrap, hrun k (by omega)]
        · refine ⟨.error e, Or.inr ⟨e, rfl, he⟩, fun fuel hfuel => ?_⟩
          obtain ⟨k, rfl⟩ := Nat.exists_eq_add_of_le' (show 1 ≤ fuel by omega)
          rw [blockLoop, if_pos hlt, hthrow]
      · rw [min_eq_left (by omega)] at hinv
        refine ⟨.ok s, Or.inl ⟨s, rfl, hinv⟩, fun fuel hfuel => ?_⟩
        obtain ⟨k, rfl⟩ := Nat.exists_eq_add_of_le' (show 1 ≤ fuel by omega)
        rw [blockLoop, if_neg hlt]
  rw [← Nat.min_zero size] at hs
  obtain ⟨last, hlast, hrun⟩ := hloop size 0 s (by omega) (Or.inl rfl) hs
  exact ⟨last, hlast, size + 1, fun fuel hfuel => hrun fuel hfuel⟩

/-- The loop rule for a body that does not throw. -/
theorem returns_blockLoop {body : ℕ → σ → Except ε σ} (hsize : 2 * size ≤ width) (hstep : 0 < step)
    (hwidth : step < width) (inv : ℕ → σ → Prop)
    (hbody : ∀ first s, first < size → first + step < width → inv first s →
      ∃ s', body first s = .ok s' ∧ inv (min size (first + step)) s') {s : σ} (hs : inv 0 s) :
    Returns (fun fuel => blockLoop width size step body fuel 0 s) fun result =>
      ∃ s', result = .ok s' ∧ inv size s' := by
  refine (returns_blockLoop_or_throws hsize hstep hwidth inv (fun _ => False)
    (fun first s hlt hfits hinv => Or.inl (hbody first s hlt hfits hinv)) hs).mono
    fun result hresult => ?_
  exact hresult.resolve_right fun ⟨_, _, hfalse⟩ => hfalse

end FuelLoop
