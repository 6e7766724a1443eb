import Mathlib
import VeloGraphX.Runtime.PoolProgress

/-!
# The statistics of the work-stealing pool

`test_work_stealing.cpp` and `test_work_stealing_stress.cpp` compare the counters of `stats()` after a
wait. Each counter is incremented in a step of its own, so at other times they are exact up to the
threads that stand between what they did and its count. A steal is local when thief and victim are in
one group, and remote otherwise.
-/

namespace VeloGraphX

/-- The task that `outstanding_` counts and `submitted_` does not yet. -/
def Control.submitting : Control → ℕ
  | .counted _ _ _ => 1
  | _ => 0

/-- The task that `executed_` counts and that `outstanding_` still counts. -/
def Control.executed : Control → ℕ
  | .retiring _ _ => 1
  | _ => 0

/-- The attempt to steal that is still open. -/
def Control.trying : Control → ℕ
  | .tryingSteal _ _ => 1
  | _ => 0

/-- The task that was taken and has not run. -/
def Control.taken : Control → ℕ
  | .running _ _ => 1
  | _ => 0

/-- How a thread stands between its steps and the counters. -/
def Control.Stands (c : Control) (submitting executed trying taken : ℕ) : Prop :=
  c.submitting = submitting ∧ c.executed = executed ∧ c.trying = trying ∧ c.taken = taken

/-- How a step changes the standing of its thread. -/
def Act.Tallies (c c' : Control) : Act → Prop
  | .count _ => c.Stands 0 0 0 0 ∧ c'.Stands 1 0 0 0
  | .submitted => c.Stands 1 0 0 0 ∧ c'.Stands 0 0 0 0
  | .popBack _ | .popFront _ => c.Stands 0 0 0 0 ∧ c'.Stands 0 0 0 1
  | .attempt => c.Stands 0 0 0 0 ∧ c'.Stands 0 0 1 0
  | .steal _ _ => c.Stands 0 0 1 0 ∧ c'.Stands 0 0 0 1
  | .run _ => c.Stands 0 0 0 1 ∧ c'.Stands 0 0 0 0
  | .executed => c.Stands 0 0 0 0 ∧ c'.Stands 0 1 0 0
  | .retire _ => c.Stands 0 1 0 0 ∧ c'.Stands 0 0 0 0
  | _ => (c.Stands 0 0 0 0 ∨ c.Stands 0 0 1 0) ∧ c'.Stands 0 0 0 0

section Steps

variable {s s' : PoolState} {t k : ℕ} {c : Control}

/-- A thread that stands nowhere between a step and its count. -/
theorem Control.stands_zero {c : Control} (h : c.submitting + c.executed + c.trying + c.taken = 0) :
    c.Stands 0 0 0 0 := by
  refine ⟨?_, ?_, ?_, ?_⟩ <;> omega

theorem AfterSubmit.stands (after : AfterSubmit) : after.control.Stands 0 0 0 0 := by
  cases after <;> exact Control.stands_zero rfl

theorem AfterTask.stands (after : AfterTask) : after.control.Stands 0 0 0 0 := by
  cases after <;> exact Control.stands_zero rfl

/-- A search takes a task, or goes on. -/
theorem takeOr_tallies {found : Option Task} {a : Act} {after : AfterTask} {otherwise : Control}
    (hc : c.Stands 0 0 0 0 ∨ c.Stands 0 0 1 0) (hother : otherwise.Stands 0 0 0 0)
    (ha : ∀ task, a.Tallies c (.running task after)) :
    (takeOr found a after otherwise).1.Tallies c (takeOr found a after otherwise).2 := by
  cases found with
  | none => exact ⟨hc, hother⟩
  | some task => exact ha task

/-- Every step changes the standing of its thread in one of these ways. -/
theorem PoolState.transition_tallies (s : PoolState) (t : ℕ) (choice : Choice) (c : Control) :
    (s.transition t choice c).1.Tallies c (s.transition t choice c).2 := by
  have hzero : ∀ c : Control, c.submitting + c.executed + c.trying + c.taken = 0 →
      c.Stands 0 0 0 0 := fun _ => Control.stands_zero
  cases c with
  | idle =>
    cases choice with
    | proceed => exact ⟨Or.inl (hzero _ rfl), hzero _ rfl⟩
    | submit invocations hint => exact ⟨hzero _ rfl, rfl, rfl, rfl, rfl⟩
    | waitIdle => exact ⟨Or.inl (hzero _ rfl), hzero _ rfl⟩
    | parallelFor start stop fn grain =>
      simp only [PoolState.transition, PoolState.enter]
      split
      · exact ⟨Or.inl (hzero _ rfl), hzero _ rfl⟩
      · exact ⟨Or.inl (hzero _ rfl), hzero _ rfl⟩
  | looping call first grain hint =>
    simp only [PoolState.transition]
    split
    · exact ⟨hzero _ rfl, rfl, rfl, rfl, rfl⟩
    · exact ⟨Or.inl (hzero _ rfl), hzero _ rfl⟩
  | counted task hint after => exact ⟨⟨rfl, rfl, rfl, rfl⟩, hzero _ rfl⟩
  | pushing task hint after => exact ⟨Or.inl (hzero _ rfl), after.stands⟩
  | draining wait =>
    simp only [PoolState.transition]
    split
    · exact ⟨Or.inl (hzero _ rfl), hzero _ rfl⟩
    · exact ⟨Or.inl (hzero _ rfl), hzero _ rfl⟩
  | popAny wait i =>
    simp only [PoolState.transition]
    split
    · exact takeOr_tallies (Or.inl (hzero _ rfl)) (hzero _ rfl)
        fun task => ⟨hzero _ rfl, rfl, rfl, rfl, rfl⟩
    · exact ⟨Or.inl (hzero _ rfl), hzero _ rfl⟩
  | waiting wait => exact ⟨Or.inl (hzero _ rfl), hzero _ rfl⟩
  | rethrowing wait => exact ⟨Or.inl (hzero _ rfl), hzero _ rfl⟩
  | running task after =>
    simp only [PoolState.transition]
    split
    · exact ⟨⟨rfl, rfl, rfl, rfl⟩, hzero _ rfl⟩
    · exact ⟨⟨rfl, rfl, rfl, rfl⟩, hzero _ rfl⟩
  | recording task error after => exact ⟨Or.inl (hzero _ rfl), hzero _ rfl⟩
  | executing task after => exact ⟨hzero _ rfl, rfl, rfl, rfl, rfl⟩
  | retiring task after => exact ⟨⟨rfl, rfl, rfl, rfl⟩, after.stands⟩
  | testing => exact ⟨Or.inl (hzero _ rfl), hzero _ rfl⟩
  | popLocal =>
    exact takeOr_tallies (Or.inl (hzero _ rfl)) (hzero _ rfl)
      fun task => ⟨hzero _ rfl, rfl, rfl, rfl, rfl⟩
  | stealing same offset =>
    simp only [PoolState.transition]
    split
    · split
      · exact ⟨Or.inl (hzero _ rfl), hzero _ rfl⟩
      · exact ⟨hzero _ rfl, rfl, rfl, rfl, rfl⟩
    · cases same with
      | true => exact ⟨Or.inl (hzero _ rfl), hzero _ rfl⟩
      | false => exact ⟨Or.inl (hzero _ rfl), hzero _ rfl⟩
  | tryingSteal same offset =>
    exact takeOr_tallies (Or.inr ⟨rfl, rfl, rfl, rfl⟩) (hzero _ rfl)
      fun task => ⟨⟨rfl, rfl, rfl, rfl⟩, rfl, rfl, rfl, rfl⟩
  | sleeping => exact ⟨Or.inl (hzero _ rfl), hzero _ rfl⟩

/-- The counters after some number of steps. -/
structure PoolState.Tallied (s : PoolState) (steps : ℕ) : Prop where
  submitted : s.pool.stats.submitted + (s.threads.map Control.submitting).sum = s.counted.length
  executed : s.pool.stats.executed = s.completed.length + (s.threads.map Control.executed).sum
  stolen : s.pool.stats.localSteals + s.pool.stats.remoteSteals = s.pool.stats.successfulSteals
  attempts : s.pool.stats.successfulSteals + (s.threads.map Control.trying).sum ≤
    s.pool.stats.stealAttempts
  taken : s.pool.stats.successfulSteals ≤ s.runs.length + (s.threads.map Control.taken).sum
  few : s.pool.stats.submitted ≤ steps ∧ s.pool.stats.executed ≤ steps ∧
    s.pool.stats.stealAttempts ≤ steps

/-- Recording a failure leaves the counters alone. -/
theorem WorkStealingPool.stats_record (p : WorkStealingPool) (task : Task) (error : ExceptionPtr) :
    (p.act (.record task error)).stats = p.stats := by
  simp only [WorkStealingPool.act]
  split <;> rfl

/-- A counter that is not full goes up by one. -/
theorem addU64_one {x : ℕ} (hx : x ≤ k) (hk : k + 1 < 2 ^ 64) : addU64 x 1 = x + 1 :=
  Nat.mod_eq_of_lt (by omega)

/-- One step keeps the counters exact. -/
theorem PoolState.Tallied.step (h : s.Tallied k) (hk : k + 1 < 2 ^ 64) {choice : Choice}
    (hstep : s.step t choice = some s') : s'.Tallied (k + 1) := by
  obtain ⟨c, a, c', hc, htransition, rfl⟩ := PoolState.step_cases hstep
  have htallies : a.Tallies c c' := by
    have hall := s.transition_tallies t choice c
    rwa [htransition] at hall
  -- Each sum is what the other threads stand for, and what this one does.
  obtain ⟨_, hold₁, hnew₁⟩ := PointUpdate.sum_map_split hc Control.submitting
  obtain ⟨_, hold₂, hnew₂⟩ := PointUpdate.sum_map_split hc Control.executed
  obtain ⟨_, hold₃, hnew₃⟩ := PointUpdate.sum_map_split hc Control.trying
  obtain ⟨_, hold₄, hnew₄⟩ := PointUpdate.sum_map_split hc Control.taken
  obtain ⟨hsubmitted, hexecuted, hstolen, hattempts, htaken, hfew₁, hfew₂, hfew₃⟩ := h
  rw [hold₁] at hsubmitted
  rw [hold₂] at hexecuted
  rw [hold₃] at hattempts
  rw [hold₄] at htaken
  have hup₁ := addU64_one hfew₁ hk
  have hup₂ := addU64_one hfew₂ hk
  have hup₃ := addU64_one hfew₃ hk
  cases a with
  | steal i same =>
    -- The pass decides which of the two counters goes up with `successful_steals_`.
    obtain ⟨⟨hc₁, hc₂, hc₃, hc₄⟩, hc₁', hc₂', hc₃', hc₄'⟩ := htallies
    have hup₄ := @addU64_one k s.pool.stats.successfulSteals (by omega) hk
    have hup₅ := @addU64_one k s.pool.stats.localSteals (by omega) hk
    have hup₆ := @addU64_one k s.pool.stats.remoteSteals (by omega) hk
    cases same with
    | true =>
      refine ⟨?_, ?_, ?_, ?_, ?_, ?_⟩ <;>
        simp only [PoolState.advance, PoolState.act, WorkStealingPool.act,
          WorkStealingPool.setQueue, hnew₁, hnew₂, hnew₃, hnew₄, hup₄, hup₅, if_true] <;>
        omega
    | false =>
      refine ⟨?_, ?_, ?_, ?_, ?_, ?_⟩ <;>
        simp only [PoolState.advance, PoolState.act, WorkStealingPool.act,
          WorkStealingPool.setQueue, hnew₁, hnew₂, hnew₃, hnew₄, hup₄, hup₆, Bool.false_eq_true,
          if_false] <;>
        omega
  | record task error =>
    simp only [Act.Tallies, Control.Stands] at htallies
    have hstats := s.pool.stats_record task error
    refine ⟨?_, ?_, ?_, ?_, ?_, ?_⟩ <;>
      simp only [PoolState.advance, PoolState.act, hstats, hnew₁, hnew₂, hnew₃, hnew₄] <;>
      omega
  | _ =>
    -- What is added to a counter is what the thread no longer stands for.
    simp only [Act.Tallies, Control.Stands] at htallies
    refine ⟨?_, ?_, ?_, ?_, ?_, ?_⟩ <;>
      simp only [PoolState.advance, PoolState.act, WorkStealingPool.act, WorkStealingPool.setQueue,
        hnew₁, hnew₂, hnew₃, hnew₄, hup₁, hup₂, hup₃, List.length_append, List.length_singleton] <;>
      omega

/-- A new pool has counted nothing. -/
theorem PoolState.Tallied.start (threads : ℕ) (queueGroups : List ℕ) (clients : ℕ) :
    (PoolState.start threads queueGroups clients).Tallied 0 := by
  have hsum : ∀ f : Control → ℕ, f .testing = 0 → f .idle = 0 →
      ((PoolState.start threads queueGroups clients).threads.map f).sum = 0 := by
    intro f htesting hidle
    simp [PoolState.start, htesting, hidle]
  refine ⟨?_, ?_, rfl, ?_, ?_, Nat.le_refl 0, Nat.le_refl 0, Nat.le_refl 0⟩
  · rw [hsum _ rfl rfl]
    rfl
  · rw [hsum _ rfl rfl]
    rfl
  · rw [hsum _ rfl rfl]
    exact Nat.le_refl 0
  · exact Nat.zero_le _

/-- The counters stay exact for as long as none of them can be full. -/
theorem PoolState.Tallied.steps (h : s.Tallied k) {steps : List (ℕ × Choice)}
    (hfew : k + steps.length < 2 ^ 64) (hsteps : s.steps (fun _ _ _ => True) steps = some s') :
    s'.Tallied (k + steps.length) := by
  induction steps generalizing s k with
  | nil => exact Option.some.inj hsteps ▸ h
  | cons first rest ih =>
    rw [List.length_cons] at hfew ⊢
    rw [PoolState.steps, if_pos trivial] at hsteps
    obtain ⟨s₁, hstep, hrest⟩ := Option.bind_eq_some_iff.mp hsteps
    have hnext := ih (h.step (by omega) hstep) (by omega) hrest
    rwa [show k + 1 + rest.length = k + (rest.length + 1) by omega] at hnext

end Steps

section Groups

variable {s s' : PoolState} {t : ℕ} {c : Control}

/-- All queues are in one group. -/
def WorkStealingPool.OneGroup (p : WorkStealingPool) : Prop :=
  ∀ i < p.queues.length, ∀ j < p.queues.length, p.queueGroup i = p.queueGroup j

/-- Every queue is a group of its own. -/
def WorkStealingPool.OwnGroups (p : WorkStealingPool) : Prop :=
  ∀ i < p.queues.length, ∀ j < p.queues.length, p.queueGroup i = p.queueGroup j → i = j

/-- A thief never looks at its own queue, and attempts a steal only in the pass for the victim's
group. -/
def Control.Aims (p : WorkStealingPool) (t : ℕ) : Control → Prop
  | .stealing _ offset => 0 < offset
  | .tryingSteal same offset => 0 < offset ∧ offset < p.queues.length ∧
    (p.queueGroup ((t + offset) % p.queues.length) == p.queueGroup t) = same
  | _ => True

/-- A steal is from another queue, and counted by its group. -/
def Act.Aims (p : WorkStealingPool) (t : ℕ) : Act → Prop
  | .steal i same => t < p.queues.length ∧ i < p.queues.length ∧ i ≠ t ∧
    (p.queueGroup i == p.queueGroup t) = same
  | _ => True

/-- The groups stay what they are. -/
theorem WorkStealingPool.queueGroups_act (p : WorkStealingPool) (a : Act) :
    (p.act a).queueGroups = p.queueGroups := by
  cases a with
  | record task error =>
    simp only [act]
    split <;> rfl
  | _ => rfl

/-- A thief keeps its aim. -/
theorem Control.Aims.act {p : WorkStealingPool} (h : c.Aims p t) (a : Act) : c.Aims (p.act a) t := by
  cases c with
  | tryingSteal same offset =>
    rwa [Aims, WorkStealingPool.length_act, WorkStealingPool.queueGroup,
      WorkStealingPool.queueGroup, WorkStealingPool.queueGroups_act]
  | _ => exact h

/-- The offset of a victim leads to another queue than the thief's. -/
theorem add_mod_ne {t offset size : ℕ} (ht : t < size) (hpos : 0 < offset) (hlt : offset < size) :
    (t + offset) % size ≠ t := by
  rcases lt_or_ge (t + offset) size with hsmall | hlarge
  · rw [Nat.mod_eq_of_lt hsmall]
    omega
  · rw [Nat.mod_eq_sub_mod hlarge, Nat.mod_eq_of_lt (by omega)]
    omega

theorem AfterSubmit.aims (p : WorkStealingPool) (t : ℕ) (after : AfterSubmit) :
    after.control.Aims p t := by
  cases after <;> exact trivial

theorem AfterTask.aims (p : WorkStealingPool) (t : ℕ) (after : AfterTask) :
    after.control.Aims p t := by
  cases after <;> exact trivial

/-- A search takes aim when it takes a task, and when it goes on. -/
theorem takeOr_aims {p : WorkStealingPool} {found : Option Task} {a : Act} {after : AfterTask}
    {otherwise : Control} (ha : a.Aims p t) (hother : otherwise.Aims p t) :
    (takeOr found a after otherwise).1.Aims p t ∧ (takeOr found a after otherwise).2.Aims p t := by
  cases found with
  | none => exact ⟨trivial, hother⟩
  | some task => exact ⟨ha, trivial⟩

/-- A step of a worker that aims aims. -/
theorem PoolState.transition_aims (hrole : c.ofWorker = true ↔ t < s.pool.queues.length)
    (h : c.Aims s.pool t) (choice : Choice) :
    (s.transition t choice c).1.Aims s.pool t ∧ (s.transition t choice c).2.Aims s.pool t := by
  cases c with
  | idle =>
    cases choice with
    | parallelFor start stop fn grain =>
      simp only [PoolState.transition, PoolState.enter]
      split <;> exact ⟨trivial, trivial⟩
    | _ => exact ⟨trivial, trivial⟩
  | looping call first grain hint =>
    simp only [PoolState.transition]
    split <;> exact ⟨trivial, trivial⟩
  | pushing task hint after => exact ⟨trivial, after.aims s.pool t⟩
  | draining wait =>
    simp only [PoolState.transition]
    split <;> exact ⟨trivial, trivial⟩
  | popAny wait i =>
    simp only [PoolState.transition]
    split
    · exact takeOr_aims trivial trivial
    · exact ⟨trivial, trivial⟩
  | running task after =>
    simp only [PoolState.transition]
    split <;> exact ⟨trivial, trivial⟩
  | retiring task after => exact ⟨trivial, after.aims s.pool t⟩
  | popLocal => exact takeOr_aims trivial Nat.one_pos
  | stealing same offset =>
    simp only [PoolState.transition]
    split
    · rename_i hlt
      split
      · exact ⟨trivial, Nat.succ_pos offset⟩
      · rename_i hsame
        exact ⟨trivial, h, hlt, by simpa using hsame⟩
    · cases same with
      | true => exact ⟨trivial, Nat.one_pos⟩
      | false => exact ⟨trivial, trivial⟩
  | tryingSteal same offset =>
    obtain ⟨hpos, hlt, hsame⟩ := h
    have ht := hrole.mp rfl
    exact takeOr_aims ⟨ht, Nat.mod_lt _ (by omega), add_mod_ne ht hpos hlt, hsame⟩
      (Nat.succ_pos offset)
  | _ => exact ⟨trivial, trivial⟩

/-- Steals are counted by the groups of thief and victim. -/
structure PoolState.Grouped (s : PoolState) : Prop extends s.Roles where
  aims : ∀ (t : ℕ) (c : Control), s.threads[t]? = some c → c.Aims s.pool t
  near : s.pool.OneGroup → s.pool.stats.remoteSteals = 0
  far : s.pool.OwnGroups → s.pool.stats.localSteals = 0

/-- A step that aims counts no remote steal where all queues are in one group, and no local one where
no two are. -/
theorem Act.Aims.stats {p : WorkStealingPool} {a : Act} (h : a.Aims p t) :
    (p.OneGroup → (p.act a).stats.remoteSteals = p.stats.remoteSteals) ∧
      (p.OwnGroups → (p.act a).stats.localSteals = p.stats.localSteals) := by
  cases a with
  | steal i same =>
    obtain ⟨ht, hi, hne, hsame⟩ := h
    cases same with
    | true =>
      refine ⟨fun _ => rfl, fun hown => ?_⟩
      exact absurd (hown i hi t ht (beq_iff_eq.mp hsame)) hne
    | false =>
      refine ⟨fun hone => ?_, fun _ => rfl⟩
      exact absurd (hone i hi t ht) (beq_eq_false_iff_ne.mp hsame)
  | record task error =>
    rw [p.stats_record task error]
    exact ⟨fun _ => rfl, fun _ => rfl⟩
  | _ => exact ⟨fun _ => rfl, fun _ => rfl⟩

/-- One step keeps the groups of the steals. -/
theorem PoolState.Grouped.step (h : s.Grouped) {choice : Choice} (hstep : s.step t choice = some s') :
    s'.Grouped := by
  obtain ⟨c, a, c', hc, htransition, rfl⟩ := PoolState.step_cases hstep
  have haims : a.Aims s.pool t ∧ c'.Aims s.pool t := by
    have hall := PoolState.transition_aims (h.roles t c hc) (h.aims t c hc) choice
    rwa [htransition] at hall
  have hlength := s.pool.length_act a
  have hgroup : ∀ i, (s.pool.act a).queueGroup i = s.pool.queueGroup i := by
    intro i
    rw [WorkStealingPool.queueGroup, WorkStealingPool.queueGroups_act]
    rfl
  refine ⟨h.toRoles.step hstep, fun u d hd => ?_, fun hone => ?_, fun hown => ?_⟩
  · rw [PoolState.pool_advance]
    obtain ⟨rfl, rfl⟩ | hold := PoolState.thread_advance hc hd
    · exact haims.2.act a
    · exact (h.aims u d hold).act a
  · rw [PoolState.pool_advance] at hone ⊢
    simp only [WorkStealingPool.OneGroup, hlength, hgroup] at hone
    rw [haims.1.stats.1 hone]
    exact h.near hone
  · rw [PoolState.pool_advance] at hown ⊢
    simp only [WorkStealingPool.OwnGroups, hlength, hgroup] at hown
    rw [haims.1.stats.2 hown]
    exact h.far hown

/-- In a new pool nothing was stolen. -/
theorem PoolState.Grouped.start (threads : ℕ) (queueGroups : List ℕ) (clients : ℕ) :
    (PoolState.start threads queueGroups clients).Grouped := by
  refine ⟨.start threads queueGroups clients, fun t c hc => ?_, fun _ => rfl, fun _ => rfl⟩
  obtain ⟨rfl, -⟩ | ⟨rfl, -⟩ := PoolState.thread_start hc
  · exact trivial
  · exact trivial

/-- Wherever an interleaving leads, the steals are counted by the groups. -/
theorem PoolState.Grouped.run {ok : PoolState → ℕ → Choice → Prop} {s₀ : PoolState}
    (h : Run ok s₀ s) (h₀ : s₀.Grouped) : s.Grouped :=
  h.keeps (fun _ _ _ _ hgrouped _ hstep => hgrouped.step hstep) h₀

end Groups

section Idle

variable {s : PoolState}

end Idle

end VeloGraphX
