import Mathlib

/-!
# Loops with fuel and their total-correctness rules

A loop whose exit is decided by data, not by a counter, is run on an explicit amount of
fuel; `none` records that the fuel ran out. `Returns` says that one result is reached by
every sufficiently fuelled run, so a program built from such loops is proved to terminate
and to be correct by the same rules: sequencing, folds, and an invariant with a measure.
-/

namespace FuelLoop

variable {σ α β : Type*}

/-- Run the body while the condition holds, spending one unit of fuel a turn. -/
def whileLoop (cond : σ → Bool) (body : ℕ → σ → Option σ) : ℕ → σ → Option σ
  | 0, _ => none
  | fuel + 1, s => if cond s then (body fuel s).bind (whileLoop cond body fuel) else some s

/-- Every sufficiently fuelled run ends in one and the same result, which satisfies `post`. -/
def Returns (run : ℕ → Option α) (post : α → Prop) : Prop :=
  ∃ a, post a ∧ ∃ bound, ∀ fuel, bound ≤ fuel → run fuel = some a

/-- No amount of fuel lets the run end. -/
def Diverges (run : ℕ → Option α) : Prop := ∀ fuel, run fuel = none

/-- A value that is already computed needs no fuel. -/
theorem Returns.pure {post : α → Prop} {a : α} (h : post a) : Returns (fun _ => some a) post :=
  ⟨a, h, 0, fun _ _ => rfl⟩

/-- A weaker postcondition also holds of the result. -/
theorem Returns.mono {run : ℕ → Option α} {post post' : α → Prop} (h : Returns run post)
    (himp : ∀ a, post a → post' a) : Returns run post' := by
  obtain ⟨a, ha, hrun⟩ := h
  exact ⟨a, himp a ha, hrun⟩

/-- Sequencing: the second program runs on the result of the first. -/
theorem Returns.bind {run : ℕ → Option α} {next : ℕ → α → Option β} {mid : α → Prop}
    {post : β → Prop} (h : Returns run mid)
    (hnext : ∀ a, mid a → Returns (fun fuel => next fuel a) post) :
    Returns (fun fuel => (run fuel).bind (next fuel)) post := by
  obtain ⟨a, ha, bound, hrun⟩ := h
  obtain ⟨b, hb, bound', hrun'⟩ := hnext a ha
  refine ⟨b, hb, max bound bound', fun fuel hfuel => ?_⟩
  simp only [hrun fuel (le_trans (le_max_left _ _) hfuel), Option.bind_some]
  exact hrun' fuel (le_trans (le_max_right _ _) hfuel)

/-- Post-processing a result takes no fuel. -/
theorem Returns.map {run : ℕ → Option α} {f : α → β} {post : β → Prop}
    (h : Returns run (fun a => post (f a))) : Returns (fun fuel => (run fuel).map f) post := by
  obtain ⟨a, ha, bound, hrun⟩ := h
  exact ⟨f a, ha, bound, fun fuel hfuel => by simp only [hrun fuel hfuel, Option.map_some]⟩

/-- A returning run does not diverge. -/
theorem Returns.not_diverges {run : ℕ → Option α} {post : α → Prop} (h : Returns run post) :
    ¬ Diverges run := by
  obtain ⟨a, -, bound, hrun⟩ := h
  intro hdiv
  have heq := hrun bound le_rfl
  rw [hdiv bound] at heq
  exact Option.some_ne_none a heq.symm

/-- Two descriptions of one run speak of the same result. -/
theorem Returns.and {run : ℕ → Option α} {post post' : α → Prop} (h : Returns run post)
    (h' : Returns run post') : Returns run (fun a => post a ∧ post' a) := by
  obtain ⟨a, ha, bound, hrun⟩ := h
  obtain ⟨a', ha', bound', hrun'⟩ := h'
  have heq : a' = a := by
    have h₁ := hrun (max bound bound') (le_max_left _ _)
    have h₂ := hrun' (max bound bound') (le_max_right _ _)
    rw [h₁] at h₂
    exact (Option.some.inj h₂).symm
  exact ⟨a, ⟨ha, heq ▸ ha'⟩, bound, hrun⟩

/-- What holds of every result holds of the one that is returned. -/
theorem Returns.and_of_some {run : ℕ → Option α} {post post' : α → Prop} (h : Returns run post)
    (hsome : ∀ fuel a, run fuel = some a → post' a) : Returns run fun a => post a ∧ post' a := by
  obtain ⟨a, ha, bound, hrun⟩ := h
  exact ⟨a, ⟨ha, hsome bound a (hrun bound le_rfl)⟩, bound, hrun⟩

/-- Sequencing inherits the divergence of its first program. -/
theorem Diverges.bind {run : ℕ → Option α} {next : ℕ → α → Option β} (h : Diverges run) :
    Diverges (fun fuel => (run fuel).bind (next fuel)) := fun fuel => by
  simp only [h fuel, Option.bind_none]

/-- So does post-processing. -/
theorem Diverges.map {run : ℕ → Option α} {f : α → β} (h : Diverges run) :
    Diverges (fun fuel => (run fuel).map f) := fun fuel => by
  simp only [h fuel, Option.map_none]

/-- The loop rule: an invariant with a variant that every turn lowers. -/
theorem returns_while {cond : σ → Bool} {body : ℕ → σ → Option σ} (inv : ℕ → σ → Prop)
    (hbody : ∀ m s, inv m s → cond s = true →
      Returns (fun fuel => body fuel s) (fun t => ∃ m' < m, inv m' t))
    {m : ℕ} {s : σ} (hs : inv m s) :
    Returns (fun fuel => whileLoop cond body fuel s) (fun t => (∃ m, inv m t) ∧ cond t = false) := by
  induction m using Nat.strong_induction_on generalizing s with
  | _ m ih =>
    cases hcond : cond s with
    | false =>
      refine ⟨s, ⟨⟨m, hs⟩, hcond⟩, 1, fun fuel hfuel => ?_⟩
      obtain ⟨k, rfl⟩ := Nat.exists_eq_add_of_le' hfuel
      simp [whileLoop, hcond]
    | true =>
      obtain ⟨t, ⟨m', hlt, ht⟩, bound, hrun⟩ := hbody m s hs hcond
      obtain ⟨a, ha, bound', hrun'⟩ := ih m' hlt ht
      refine ⟨a, ha, max bound bound' + 1, fun fuel hfuel => ?_⟩
      obtain ⟨k, rfl⟩ := Nat.exists_eq_add_of_le' (le_trans (Nat.le_add_left 1 _) hfuel)
      have hk : max bound bound' ≤ k := Nat.le_of_succ_le_succ hfuel
      simp only [whileLoop, hcond, if_true, hrun k (le_trans (le_max_left _ _) hk),
        Option.bind_some]
      exact hrun' k (le_trans (le_max_right _ _) hk)

/-- The partial rule: what every turn keeps holds when the loop is left. -/
theorem whileLoop_keeps {cond : σ → Bool} {body : ℕ → σ → Option σ} (inv : σ → Prop)
    (hbody : ∀ s, inv s → cond s = true → ∀ fuel t, body fuel s = some t → inv t) {s t : σ}
    (hs : inv s) {fuel : ℕ} (hrun : whileLoop cond body fuel s = some t) :
    inv t ∧ cond t = false := by
  induction fuel generalizing s with
  | zero => exact absurd hrun.symm (Option.some_ne_none t)
  | succ fuel ih =>
    cases hcond : cond s with
    | false =>
      simp only [whileLoop, hcond, Bool.false_eq_true, if_false, Option.some.injEq] at hrun
      exact hrun ▸ ⟨hs, hcond⟩
    | true =>
      simp only [whileLoop, hcond, if_true] at hrun
      obtain ⟨next, hnext, hrest⟩ := Option.bind_eq_some_iff.mp hrun
      exact ih (hbody s hs hcond fuel next hnext) hrest

/-- The simulation rule: loops whose turns keep their states related end together, in related
states. -/
theorem whileLoop_rel {τ : Type*} {cond : σ → Bool} {body : ℕ → σ → Option σ} {cond' : τ → Bool}
    {body' : ℕ → τ → Option τ} (rel : σ → τ → Prop) (hcond : ∀ s t, rel s t → cond s = cond' t)
    (hbody : ∀ fuel s t, rel s t → cond s = true → Option.Rel rel (body fuel s) (body' fuel t))
    (fuel : ℕ) {s : σ} {t : τ} (h : rel s t) :
    Option.Rel rel (whileLoop cond body fuel s) (whileLoop cond' body' fuel t) := by
  induction fuel generalizing s t with
  | zero => exact .none
  | succ fuel ih =>
    rw [whileLoop, whileLoop, ← hcond s t h]
    cases hgo : cond s with
    | false => exact .some h
    | true =>
      rw [if_pos rfl, if_pos rfl]
      have hturn := hbody fuel s t h hgo
      generalize body fuel s = next, body' fuel t = next' at hturn ⊢
      cases hturn with
      | none => exact .none
      | some hnext => exact ih hnext

/-- What related results agree on is computed by both programs. -/
theorem map_eq_of_rel {τ : Type*} {rel : σ → τ → Prop} {run : Option σ} {run' : Option τ}
    {f : σ → α} {f' : τ → α} (h : Option.Rel rel run run') (heq : ∀ s t, rel s t → f s = f' t) :
    run.map f = run'.map f' := by
  cases h with
  | none => rfl
  | some hrel => exact congrArg some (heq _ _ hrel)

/-- A loop none of whose reachable states is an exit diverges. -/
theorem diverges_while {cond : σ → Bool} {body : ℕ → σ → Option σ} (inv : σ → Prop)
    (hcond : ∀ s, inv s → cond s = true)
    (hbody : ∀ s, inv s → ∀ fuel t, body fuel s = some t → inv t) {s : σ} (hs : inv s) :
    Diverges (fun fuel => whileLoop cond body fuel s) := by
  intro fuel
  induction fuel generalizing s with
  | zero => rfl
  | succ fuel ih =>
    simp only [whileLoop, hcond s hs, if_true]
    cases hnext : body fuel s with
    | none => rfl
    | some t => exact ih (hbody s hs fuel t hnext)

/-- Run a fallible body over a list, threading the state. -/
def foldRun (body : σ → α → Option σ) : List α → σ → Option σ
  | [], s => some s
  | a :: rest, s => (body s a).bind (foldRun body rest)

/-- The fold rule: an invariant indexed by what is still to be processed. -/
theorem returns_foldRun {body : ℕ → σ → α → Option σ} (inv : List α → σ → Prop)
    (hbody : ∀ a rest s, inv (a :: rest) s →
      Returns (fun fuel => body fuel s a) (inv rest))
    (list : List α) (s : σ) (hs : inv list s) :
    Returns (fun fuel => foldRun (body fuel) list s) (inv []) := by
  induction list generalizing s with
  | nil => exact Returns.pure hs
  | cons a rest ih => exact (hbody a rest s hs).bind ih

/-- The partial fold rule: what every turn keeps holds at the end. -/
theorem foldRun_keeps {body : σ → α → Option σ} (inv : σ → Prop)
    (hbody : ∀ a s t, inv s → body s a = some t → inv t) {list : List α} {s t : σ} (hs : inv s)
    (hrun : foldRun body list s = some t) : inv t := by
  induction list generalizing s with
  | nil => exact Option.some.inj hrun ▸ hs
  | cons a rest ih =>
    obtain ⟨next, hnext, hrest⟩ := Option.bind_eq_some_iff.mp hrun
    exact ih (hbody a s next hs hnext) hrest

/-- More fuel does not change a result. -/
def Steady (run : ℕ → Option α) : Prop :=
  ∀ fuel a, run fuel = some a → ∀ fuel', fuel ≤ fuel' → run fuel' = some a

/-- A value that is already computed is steady. -/
theorem Steady.pure (a : Option α) : Steady fun _ => a := fun _ _ h _ _ => h

/-- Steady programs in sequence are steady. -/
theorem Steady.bind {run : ℕ → Option α} {next : ℕ → α → Option β} (h : Steady run)
    (hnext : ∀ a, Steady fun fuel => next fuel a) :
    Steady fun fuel => (run fuel).bind (next fuel) := by
  intro fuel b hrun fuel' hle
  obtain ⟨a, ha, hb⟩ := Option.bind_eq_some_iff.mp hrun
  exact Option.bind_eq_some_iff.mpr ⟨a, h fuel a ha fuel' hle, hnext a fuel b hb fuel' hle⟩

/-- Post-processing keeps a program steady. -/
theorem Steady.map {run : ℕ → Option α} (h : Steady run) (f : α → β) :
    Steady fun fuel => (run fuel).map f := by
  intro fuel b hrun fuel' hle
  obtain ⟨a, ha, hb⟩ := Option.map_eq_some_iff.mp hrun
  exact Option.map_eq_some_iff.mpr ⟨a, h fuel a ha fuel' hle, hb⟩

/-- A loop with a steady body is steady. -/
theorem steady_while {cond : σ → Bool} {body : ℕ → σ → Option σ}
    (h : ∀ s, Steady fun fuel => body fuel s) (s : σ) :
    Steady fun fuel => whileLoop cond body fuel s := by
  intro fuel t hrun
  induction fuel generalizing s with
  | zero => exact absurd hrun.symm (Option.some_ne_none t)
  | succ fuel ih =>
    intro fuel' hle
    obtain ⟨k, rfl⟩ := Nat.exists_eq_add_of_le' (le_trans (Nat.le_add_left 1 fuel) hle)
    have hk : fuel ≤ k := Nat.le_of_succ_le_succ hle
    cases hcond : cond s with
    | false =>
      simp only [whileLoop, hcond, Bool.false_eq_true, if_false] at hrun ⊢
      exact hrun
    | true =>
      simp only [whileLoop, hcond, if_true] at hrun ⊢
      obtain ⟨next, hnext, hrest⟩ := Option.bind_eq_some_iff.mp hrun
      exact Option.bind_eq_some_iff.mpr ⟨next, h s fuel next hnext k hk, ih next hrest k hk⟩

/-- A fold with a steady body is steady. -/
theorem steady_foldRun {body : ℕ → σ → α → Option σ}
    (h : ∀ s a, Steady fun fuel => body fuel s a) (list : List α) (s : σ) :
    Steady fun fuel => foldRun (body fuel) list s := by
  induction list generalizing s with
  | nil => exact Steady.pure (some s)
  | cons a rest ih => exact (h s a).bind ih

/-- A steady run that ends returns what it ends with. -/
theorem Steady.returns {run : ℕ → Option α} (h : Steady run) {fuel : ℕ} {a : α}
    (hrun : run fuel = some a) {post : α → Prop} (ha : post a) : Returns run post :=
  ⟨a, ha, fuel, h fuel a hrun⟩

/-- What a run returns it ends with on any fuel that suffices. -/
theorem Returns.of_steady {run : ℕ → Option α} {post : α → Prop} (h : Returns run post)
    (hsteady : Steady run) {fuel : ℕ} {a : α} (hrun : run fuel = some a) : post a := by
  obtain ⟨b, hb, bound, hbound⟩ := h
  have hmore := hsteady fuel a hrun (max fuel bound) (le_max_left _ _)
  rw [hbound _ (le_max_right _ _)] at hmore
  exact Option.some.inj hmore ▸ hb

/-- From some amount of fuel on, the run does not end. -/
def Starves (run : ℕ → Option α) : Prop := ∃ bound, ∀ fuel, bound ≤ fuel → run fuel = none

/-- A run that never ends starves. -/
theorem Diverges.starves {run : ℕ → Option α} (h : Diverges run) : Starves run :=
  ⟨0, fun fuel _ => h fuel⟩

/-- A steady run that starves never ends. -/
theorem Starves.diverges {run : ℕ → Option α} (h : Starves run) (hsteady : Steady run) :
    Diverges run := by
  obtain ⟨bound, hnone⟩ := h
  intro fuel
  cases hrun : run fuel with
  | none => rfl
  | some a =>
    have hmore := hsteady fuel a hrun (max bound fuel) (le_max_right _ _)
    rw [hnone _ (le_max_left _ _)] at hmore
    exact absurd hmore.symm (Option.some_ne_none a)

/-- A starving run does not return. -/
theorem Starves.not_returns {run : ℕ → Option α} {post : α → Prop} (h : Starves run) :
    ¬ Returns run post := by
  rintro ⟨a, -, bound, hrun⟩
  obtain ⟨bound', hnone⟩ := h
  have hsome := hrun (max bound bound') (le_max_left _ _)
  rw [hnone _ (le_max_right _ _)] at hsome
  exact Option.some_ne_none a hsome.symm

/-- Sequencing inherits the starving of its first program. -/
theorem Starves.bind {run : ℕ → Option α} {next : ℕ → α → Option β} (h : Starves run) :
    Starves (fun fuel => (run fuel).bind (next fuel)) := by
  obtain ⟨bound, hnone⟩ := h
  exact ⟨bound, fun fuel hfuel => by simp only [hnone fuel hfuel, Option.bind_none]⟩

/-- So does post-processing. -/
theorem Starves.map {run : ℕ → Option α} {f : α → β} (h : Starves run) :
    Starves (fun fuel => (run fuel).map f) := by
  obtain ⟨bound, hnone⟩ := h
  exact ⟨bound, fun fuel hfuel => by simp only [hnone fuel hfuel, Option.map_none]⟩

/-- Sequencing starves when the second program starves on what the first one returns. -/
theorem Returns.starves_bind {run : ℕ → Option α} {next : ℕ → α → Option β} {mid : α → Prop}
    (h : Returns run mid) (hnext : ∀ a, mid a → Starves (fun fuel => next fuel a)) :
    Starves (fun fuel => (run fuel).bind (next fuel)) := by
  obtain ⟨a, ha, bound, hrun⟩ := h
  obtain ⟨bound', hnone⟩ := hnext a ha
  refine ⟨max bound bound', fun fuel hfuel => ?_⟩
  simp only [hrun fuel (le_trans (le_max_left _ _) hfuel), Option.bind_some]
  exact hnone fuel (le_trans (le_max_right _ _) hfuel)

/-- The fold rule for starving: every step starves or leads on, and the end is not reached. -/
theorem starves_foldRun {body : ℕ → σ → α → Option σ} (inv : List α → σ → Prop)
    (hnil : ∀ s, ¬ inv [] s)
    (hbody : ∀ a rest s, inv (a :: rest) s →
      Starves (fun fuel => body fuel s a) ∨ Returns (fun fuel => body fuel s a) (inv rest))
    (list : List α) (s : σ) (hs : inv list s) :
    Starves (fun fuel => foldRun (body fuel) list s) := by
  induction list generalizing s with
  | nil => exact absurd hs (hnil s)
  | cons a rest ih =>
    rcases hbody a rest s hs with hstarves | hreturns
    · exact hstarves.bind
    · exact hreturns.starves_bind ih

section Counter

variable {N : ℕ}

/-- After a turn the counter has passed its old value as well. -/
theorem lt_next_iff {i j : Fin N} : j.val < i.val + 1 ↔ j.val < i.val ∨ j = i := by
  rw [Fin.ext_iff]
  omega

variable [NeZero N]

/-- `for (i = first; i < bound; ++i)` with a counter of `N` values that wraps around. -/
def countLoop (bound : ℕ) (body : ℕ → Fin N → σ → Option σ) (fuel : ℕ) (first : Fin N) (s : σ) :
    Option σ :=
  (whileLoop (fun state => decide (state.1.val < bound))
    (fun fuel state => (body fuel state.1 state.2).map fun s => (state.1 + 1, s)) fuel
    (first, s)).map Prod.snd

/-- The loop rule: where the counter can hold the bound, an invariant of the counter's value is
carried to the bound. -/
theorem returns_countLoop {bound : ℕ} (hbound : bound < N) {body : ℕ → Fin N → σ → Option σ}
    (inv : ℕ → σ → Prop)
    (hbody : ∀ (i : Fin N) s, i.val < bound → inv i.val s →
      Returns (fun fuel => body fuel i s) (inv (i.val + 1)))
    {first : Fin N} {s : σ} (hfirst : first.val ≤ bound) (hs : inv first.val s) :
    Returns (fun fuel => countLoop bound body fuel first s) (inv bound) := by
  have hstep : ∀ m (state : Fin N × σ),
      (state.1.val ≤ bound ∧ m = bound - state.1.val ∧ inv state.1.val state.2) →
      decide (state.1.val < bound) = true →
      Returns (fun fuel => (body fuel state.1 state.2).map fun s => (state.1 + 1, s))
        fun next => ∃ m' < m, next.1.val ≤ bound ∧ m' = bound - next.1.val ∧
          inv next.1.val next.2 := by
    intro m state hinv hcond
    obtain ⟨-, rfl, hinv⟩ := hinv
    have hlt : state.1.val < bound := of_decide_eq_true hcond
    have hnext : (state.1 + 1).val = state.1.val + 1 := Fin.val_add_one_of_lt' (by omega)
    refine Returns.map ((hbody state.1 state.2 hlt hinv).mono fun s hs => ?_)
    dsimp only
    rw [hnext]
    exact ⟨bound - (state.1.val + 1), by omega, hlt, rfl, hs⟩
  have hstart : (first, s).1.val ≤ bound ∧ bound - first.val = bound - (first, s).1.val ∧
      inv (first, s).1.val (first, s).2 := ⟨hfirst, rfl, hs⟩
  have hloop := returns_while (fun m (state : Fin N × σ) =>
    state.1.val ≤ bound ∧ m = bound - state.1.val ∧ inv state.1.val state.2) hstep hstart
  refine Returns.map (hloop.mono fun state hstate => ?_)
  obtain ⟨⟨m, hle, -, hinv⟩, hexit⟩ := hstate
  have heq : state.1.val = bound := le_antisymm hle (not_lt.mp (of_decide_eq_false hexit))
  exact heq ▸ hinv

/-- Where the counter cannot hold the bound, the loop does not end. -/
theorem diverges_countLoop {bound : ℕ} (hbound : N ≤ bound) (body : ℕ → Fin N → σ → Option σ)
    (first : Fin N) (s : σ) : Diverges (fun fuel => countLoop bound body fuel first s) := by
  refine Diverges.map (diverges_while (fun _ => True) (fun state _ => ?_) (fun _ _ _ _ _ => trivial)
    trivial)
  exact decide_eq_true (state.1.isLt.trans_le hbound)

/-- A counting loop with a steady body is steady. -/
theorem steady_countLoop (bound : ℕ) {body : ℕ → Fin N → σ → Option σ}
    (h : ∀ i s, Steady fun fuel => body fuel i s) (first : Fin N) (s : σ) :
    Steady fun fuel => countLoop bound body fuel first s :=
  (steady_while (fun state : Fin N × σ => (h state.1 state.2).map fun s => (state.1 + 1, s))
    (first, s)).map Prod.snd

end Counter

end FuelLoop
