import Mathlib

/-!
# Buffers whose bounds are checked

Reads and writes of a buffer that say when they leave it, and the counting loops that perform them.
A run that ends in anything but `outOfBounds` has touched nothing but its buffers.
-/

namespace CheckedMemory

/-- How a program on buffers fails: it leaves a buffer, or it throws. -/
inductive Fault (ε : Type*)
  | outOfBounds
  | thrown (e : ε)
deriving DecidableEq, Repr

universe u

variable {α β σ : Type u} {ε : Type*}

/-- Read one cell. -/
def readCell (memory : List α) (index : ℕ) : Except (Fault ε) α :=
  match memory[index]? with
  | some a => .ok a
  | none => .error .outOfBounds

/-- Read neighbouring cells. -/
def load (memory : List α) (start count : ℕ) : Except (Fault ε) (List α) :=
  if start + count ≤ memory.length then .ok ((memory.drop start).take count)
  else .error .outOfBounds

/-- Write neighbouring cells. -/
def store (memory : List α) (start : ℕ) (values : List α) : Except (Fault ε) (List α) :=
  if start + values.length ≤ memory.length then
    .ok (memory.take start ++ values ++ memory.drop (start + values.length))
  else .error .outOfBounds

/-- `for (i = first; count > 0; ++i, --count)`. -/
def countUp (body : ℕ → σ → Except ε σ) : (count first : ℕ) → σ → Except ε σ
  | 0, _, s => .ok s
  | count + 1, first, s => body first s >>= countUp body count (first + 1)

/-- A group of eight is not empty. -/
instance neZero_eight : NeZero 8 := ⟨by decide⟩

/-- `for (; i + width <= count; i += width)`, and where it leaves `i`. -/
def groupLoop (width count : ℕ) [NeZero width] (body : ℕ → σ → Except ε σ) (i : ℕ) (s : σ) :
    Except ε (ℕ × σ) :=
  if i + width ≤ count then body i s >>= groupLoop width count body (i + width) else .ok (i, s)
termination_by count - i
decreasing_by
  have hpos : 0 < width := Nat.pos_of_ne_zero (NeZero.ne width)
  omega

/-- What follows a step that returns. -/
theorem ok_bind (a : α) (next : α → Except ε β) : (Except.ok a >>= next) = next a := rfl

/-- A cell of the buffer. -/
theorem readCell_of_lt {memory : List α} {index : ℕ} {a : α} (h : memory[index]? = some a) :
    readCell memory index = (.ok a : Except (Fault ε) α) := by
  rw [readCell, h]

/-- Cells within the buffer. -/
theorem load_of_le {memory : List α} {start count : ℕ} (h : start + count ≤ memory.length) :
    load memory start count = (.ok ((memory.drop start).take count) : Except (Fault ε) (List α)) :=
  if_pos h

/-- Writing behind what has been written. -/
theorem store_behind {memory done : List α} (values : List α) (hdone : done <+: memory)
    (hfits : done.length + values.length ≤ memory.length) :
    ∃ memory', store memory done.length values = (.ok memory' : Except (Fault ε) (List α)) ∧
      done ++ values <+: memory' ∧ memory'.length = memory.length := by
  obtain ⟨rest, rfl⟩ := hdone
  refine ⟨_, if_pos hfits, ?_, ?_⟩
  · rw [List.take_left]
    exact List.prefix_append _ _
  · rw [List.length_append] at hfits
    simp only [List.take_left, List.length_append, List.length_drop]
    omega

/-- The loop rule: an invariant of the counter. -/
theorem countUp_rule {body : ℕ → σ → Except ε σ} (inv : ℕ → σ → Prop) (count first : ℕ) {s : σ}
    (hbody : ∀ i s, first ≤ i → i < first + count → inv i s →
      ∃ s', body i s = .ok s' ∧ inv (i + 1) s') (hs : inv first s) :
    ∃ s', countUp body count first s = .ok s' ∧ inv (first + count) s' := by
  induction count generalizing first s with
  | zero => exact ⟨s, rfl, hs⟩
  | succ count ih =>
    obtain ⟨next, hnext, hinv⟩ := hbody first s le_rfl (by omega) hs
    obtain ⟨last, hlast, hinv'⟩ :=
      ih (first + 1) (fun i s hle hlt => hbody i s (by omega) (by omega)) hinv
    refine ⟨last, ?_, ?_⟩
    · rw [countUp, hnext]
      exact hlast
    · rw [← Nat.add_assoc, Nat.add_right_comm]
      exact hinv'

/-- The loop rule for whole groups: what is left is less than a group. -/
theorem groupLoop_rule {width count : ℕ} [NeZero width] {body : ℕ → σ → Except ε σ}
    (inv : ℕ → σ → Prop) (hbody : ∀ i s, i + width ≤ count → inv i s →
      ∃ s', body i s = .ok s' ∧ inv (i + width) s') {i : ℕ} {s : σ} (hi : i ≤ count)
    (hs : inv i s) :
    ∃ i' s', groupLoop width count body i s = .ok (i', s') ∧ i' ≤ count ∧ inv i' s' := by
  induction hleft : count - i using Nat.strong_induction_on generalizing i s with
  | _ left ih =>
    rw [groupLoop]
    split
    · rename_i hroom
      have hpos : 0 < width := Nat.pos_of_ne_zero (NeZero.ne width)
      obtain ⟨next, hnext, hinv⟩ := hbody i s hroom hs
      rw [hnext]
      exact ih (count - (i + width)) (by omega) hroom hinv rfl
    · exact ⟨i, s, rfl, hi, hs⟩

/-- Two runs that return the same or throw alike; neither leaves a buffer. -/
def SameOutcome (alike : ε → ε → Prop) : Except (Fault ε) α → Except (Fault ε) α → Prop
  | .ok a, .ok b => a = b
  | .error (.thrown e), .error (.thrown e') => alike e e'
  | _, _ => False

variable {alike : ε → ε → Prop}

/-- Runs with the same outcome do not leave a buffer. -/
theorem SameOutcome.in_bounds {run run' : Except (Fault ε) α} (h : SameOutcome alike run run') :
    run ≠ .error .outOfBounds ∧ run' ≠ .error .outOfBounds := by
  match run, run', h with
  | .ok _, .ok _, _ => exact ⟨nofun, nofun⟩
  | .error (.thrown _), .error (.thrown _), _ => exact ⟨nofun, nofun⟩

/-- A run with the same outcome as one that returns. -/
theorem SameOutcome.eq_ok {run run' : Except (Fault ε) α} {a : α} (h : SameOutcome alike run run')
    (hrun : run = .ok a) : run' = .ok a := by
  match run, run', h with
  | .ok b, .ok _, rfl => exact hrun
  | .error _, .error _, _ => exact absurd hrun nofun

/-- A run with the same outcome as one that throws. -/
theorem SameOutcome.eq_thrown {run run' : Except (Fault ε) α} {e : ε}
    (h : SameOutcome alike run run') (hrun : run = .error (.thrown e)) :
    ∃ e', run' = .error (.thrown e') := by
  match run, run', h with
  | .ok _, .ok _, _ => exact absurd hrun nofun
  | .error (.thrown _), .error (.thrown e'), _ => exact ⟨e', rfl⟩

/-- Sequencing keeps outcomes the same. -/
theorem SameOutcome.bind {run run' : Except (Fault ε) α} {next next' : α → Except (Fault ε) β}
    (h : SameOutcome alike run run')
    (hnext : ∀ a, run = .ok a → SameOutcome alike (next a) (next' a)) :
    SameOutcome alike (run >>= next) (run' >>= next') := by
  match run, run', h with
  | .ok a, .ok _, rfl => exact hnext a rfl
  | .error (.thrown _), .error (.thrown _), halike => exact halike

/-- So does post-processing. -/
theorem SameOutcome.map {run run' : Except (Fault ε) α} (f : α → β)
    (h : SameOutcome alike run run') : SameOutcome alike (run.map f) (run'.map f) := by
  match run, run', h with
  | .ok _, .ok _, heq => exact congrArg f heq
  | .error (.thrown _), .error (.thrown _), halike => exact halike

/-- Loops whose turns have the same outcome. -/
theorem SameOutcome.countUp {body body' : ℕ → σ → Except (Fault ε) σ} (inv : σ → Prop)
    (count first : ℕ) {s : σ}
    (hbody : ∀ i s, first ≤ i → i < first + count → inv s →
      SameOutcome alike (body i s) (body' i s) ∧ ∀ s', body i s = .ok s' → inv s')
    (hs : inv s) :
    SameOutcome alike (CheckedMemory.countUp body count first s)
      (CheckedMemory.countUp body' count first s) := by
  induction count generalizing first s with
  | zero => exact rfl
  | succ count ih =>
    obtain ⟨hsame, hkeeps⟩ := hbody first s le_rfl (by omega) hs
    refine hsame.bind fun next hnext => ?_
    exact ih (first + 1) (fun i s hle hlt => hbody i s (by omega) (by omega)) (hkeeps next hnext)

/-- What every turn of a loop keeps. -/
theorem countUp_keeps {body : ℕ → σ → Except ε σ} (inv : σ → Prop) (count first : ℕ) {s s' : σ}
    (hbody : ∀ i s s', first ≤ i → i < first + count → inv s → body i s = .ok s' → inv s')
    (hs : inv s) (hrun : countUp body count first s = .ok s') : inv s' := by
  induction count generalizing first s with
  | zero => exact Except.ok.inj hrun ▸ hs
  | succ count ih =>
    rw [countUp] at hrun
    cases hnext : body first s with
    | error e =>
      rw [hnext] at hrun
      exact absurd hrun nofun
    | ok next =>
      rw [hnext] at hrun
      exact ih (first + 1) (fun i s s' hle hlt => hbody i s s' (by omega) (by omega))
        (hbody first s next le_rfl (by omega) hs hnext) hrun

end CheckedMemory
