import Mathlib
import VeloGraphX.Runtime.PoolAccounting

/-!
# What the end of `wait_idle` says about the tasks

A failure passes from the task that threw to the slot `first_exception_`, and from there to one
waiter, in steps of its own. The slot holds the first failure recorded since the last rethrow, a
failing task is recorded before it is completed, and a wait ends only after a moment at which
nothing was outstanding.
-/

namespace VeloGraphX

/-- What a thread knows about the failure of the task in its hands, where `failed` are the tasks
whose failure was recorded. -/
def Control.Settled (failed : List Task) : Control → Prop
  | .recording task error _ => task.outcome = some error
  | .executing task _ | .retiring task _ => task.outcome ≠ none → task ∈ failed
  | _ => True

/-- The tasks whose failure was recorded. -/
def PoolState.failed (s : PoolState) : List Task := s.recorded ++ s.reported

/-- A failure that was recorded stays recorded. -/
theorem PoolState.failed_subset_act (s : PoolState) (a : Act) : s.failed ⊆ (s.act a).failed := by
  intro task htask
  simp only [PoolState.failed, List.mem_append] at htask ⊢
  cases a with
  | record other error =>
    simp only [PoolState.act, List.mem_append]
    tauto
  | rethrow wait =>
    simp only [PoolState.act, List.mem_append, List.not_mem_nil]
    tauto
  | _ => exact htask

/-- More recorded failures settle no less. -/
theorem Control.Settled.mono {failed failed' : List Task} {c : Control} (h : c.Settled failed)
    (hsubset : failed ⊆ failed') : c.Settled failed' := by
  cases c with
  | executing task after => exact fun houtcome => hsubset (h houtcome)
  | retiring task after => exact fun houtcome => hsubset (h houtcome)
  | recording task error after => exact h
  | _ => trivial

/-- Where a thread goes after `submit` it has no task in its hands. -/
theorem AfterSubmit.settled (after : AfterSubmit) (failed : List Task) :
    after.control.Settled failed := by
  cases after <;> trivial

/-- Where a thread goes after `complete_task` it has no task in its hands. -/
theorem AfterTask.settled (after : AfterTask) (failed : List Task) :
    after.control.Settled failed := by
  cases after <;> trivial

/-- A task that was just taken has not failed yet. -/
theorem takeOr_settled {failed : List Task} {found : Option Task} {a : Act} {after : AfterTask}
    {otherwise : Control} (hother : otherwise.Settled failed) :
    (takeOr found a after otherwise).2.Settled failed := by
  cases found with
  | none => exact hother
  | some task => trivial

/-- A failing task passes through `record_exception` on its way to completion. -/
theorem PoolState.transition_settled {s : PoolState} {c : Control} (h : c.Settled s.failed)
    (t : ℕ) (choice : Choice) :
    (s.transition t choice c).2.Settled (s.act (s.transition t choice c).1).failed := by
  cases c with
  | idle =>
    cases choice with
    | parallelFor start stop fn grain =>
      simp only [PoolState.transition, PoolState.enter]
      split <;> trivial
    | _ => trivial
  | looping call first grain hint =>
    simp only [PoolState.transition]
    split <;> trivial
  | pushing task hint after => exact after.settled _
  | draining wait =>
    simp only [PoolState.transition]
    split <;> trivial
  | popAny wait i =>
    simp only [PoolState.transition]
    split
    · exact takeOr_settled trivial
    · trivial
  | running task after =>
    simp only [PoolState.transition]
    split
    · assumption
    · rename_i houtcome
      exact fun hne => absurd houtcome hne
  | recording task error after =>
    exact fun _ => List.mem_append_left _ (List.mem_append_right _ (List.mem_singleton_self task))
  | executing task after => exact h
  | retiring task after => exact after.settled _
  | popLocal => exact takeOr_settled trivial
  | stealing same offset =>
    simp only [PoolState.transition]
    split
    · split <;> trivial
    · split <;> trivial
  | tryingSteal same offset => exact takeOr_settled trivial
  | _ => trivial

/-- What a step says about the failure of its task. -/
def Act.Honest (failed : List Task) : Act → Prop
  | .record task error => task.outcome = some error
  | .retire task => task.outcome ≠ none → task ∈ failed
  | _ => True

/-- Taking a task from a queue says nothing about its failure. -/
theorem takeOr_honest {failed : List Task} {found : Option Task} {a : Act} {after : AfterTask}
    {otherwise : Control} (ha : a.Honest failed) :
    (takeOr found a after otherwise).1.Honest failed := by
  cases found with
  | none => trivial
  | some task => exact ha

/-- A failure is recorded for the task that threw it, and completion comes after that. -/
theorem PoolState.transition_honest {s : PoolState} {c : Control} (h : c.Settled s.failed)
    (t : ℕ) (choice : Choice) : (s.transition t choice c).1.Honest s.failed := by
  cases c with
  | idle =>
    cases choice with
    | parallelFor start stop fn grain =>
      simp only [PoolState.transition, PoolState.enter]
      split <;> trivial
    | _ => trivial
  | looping call first grain hint =>
    simp only [PoolState.transition]
    split <;> trivial
  | popAny wait i =>
    simp only [PoolState.transition]
    split
    · exact takeOr_honest trivial
    · trivial
  | recording task error after => exact h
  | retiring task after => exact h
  | popLocal => exact takeOr_honest trivial
  | stealing same offset =>
    simp only [PoolState.transition]
    split
    · split <;> trivial
    · trivial
  | tryingSteal same offset => exact takeOr_honest trivial
  | _ => trivial

/-- The slot holds the first failure since the last rethrow, and no failing task completes
without having been recorded. -/
structure PoolState.Surfaced (s : PoolState) : Prop where
  since : s.completedSince ⊆ s.completed
  failures : ∀ task ∈ s.recorded, task.outcome ≠ none
  first : s.pool.firstException = s.recorded.head?.bind Task.outcome
  threads : ∀ c ∈ s.threads, c.Settled s.failed
  completed : ∀ task ∈ s.completed, task.outcome ≠ none → task ∈ s.failed

/-- Recording keeps the slot at the first failure. -/
theorem PoolState.Surfaced.record {s : PoolState} (h : s.Surfaced) {task : Task}
    {error : ExceptionPtr} (houtcome : task.outcome = some error) :
    (s.act (.record task error)).pool.firstException =
      (s.act (.record task error)).recorded.head?.bind Task.outcome := by
  have hfirst := h.first
  simp only [PoolState.act, WorkStealingPool.act]
  cases hrecorded : s.recorded with
  | nil =>
    have hempty : s.pool.firstException = none := by rw [hfirst, hrecorded]; rfl
    rw [if_pos hempty]
    exact houtcome.symm
  | cons head rest =>
    have hhead := h.failures head (by rw [hrecorded]; exact List.mem_cons_self)
    rw [hrecorded] at hfirst
    rw [if_neg (by rw [hfirst]; exact hhead)]
    exact hfirst

/-- One step keeps track of every failure. -/
theorem PoolState.Surfaced.step {s s' : PoolState} (h : s.Surfaced) {t : ℕ} {choice : Choice}
    (hstep : s.step t choice = some s') : s'.Surfaced := by
  obtain ⟨c, a, c', hc, htransition, rfl⟩ := PoolState.step_cases hstep
  have hsettled := PoolState.transition_settled (h.threads c (List.mem_of_getElem? hc)) t choice
  have hhonest := PoolState.transition_honest (h.threads c (List.mem_of_getElem? hc)) t choice
  rw [htransition] at hsettled hhonest
  have hsubset : s.failed ⊆ (s.advance t a c').failed := s.failed_subset_act a
  have hthreads : ∀ d ∈ (s.advance t a c').threads, d.Settled (s.advance t a c').failed := by
    intro d hd
    rcases List.mem_or_eq_of_mem_set hd with hold | rfl
    · exact (h.threads d hold).mono hsubset
    · exact hsettled
  have hold : ∀ task ∈ s.completed, task.outcome ≠ none → task ∈ (s.advance t a c').failed :=
    fun task htask houtcome => hsubset (h.completed task htask houtcome)
  cases a with
  | record task error =>
    refine ⟨h.since, fun other hother => ?_, h.record hhonest, hthreads, hold⟩
    rcases List.mem_append.mp hother with hmem | hmem
    · exact h.failures other hmem
    · rw [List.mem_singleton.mp hmem, hhonest]
      exact Option.some_ne_none error
  | retire task =>
    refine ⟨?_, h.failures, h.first, hthreads, fun other hother => ?_⟩
    · exact List.append_subset.mpr ⟨List.Subset.trans h.since (List.subset_append_left _ _),
        List.subset_append_right _ _⟩
    · rcases List.mem_append.mp hother with hmem | hmem
      · exact hold other hmem
      · rw [List.mem_singleton.mp hmem]
        exact fun houtcome => hsubset (hhonest houtcome)
  | rethrow wait =>
    exact ⟨List.nil_subset _, fun task htask => absurd htask List.not_mem_nil, rfl, hthreads, hold⟩
  | _ => exact ⟨h.since, h.failures, h.first, hthreads, hold⟩

/-- Nothing has failed in a new pool. -/
theorem PoolState.Surfaced.start (threads : ℕ) (queueGroups : List ℕ) (clients : ℕ) :
    (PoolState.start threads queueGroups clients).Surfaced := by
  refine ⟨List.Subset.refl _, fun task htask => absurd htask List.not_mem_nil, rfl, fun c hc => ?_,
    fun task htask => absurd htask List.not_mem_nil⟩
  rcases List.mem_append.mp hc with hmem | hmem
  · rw [List.eq_of_mem_replicate hmem]
    trivial
  · rw [List.eq_of_mem_replicate hmem]
    trivial

/-- Wherever an interleaving leads, every failure is kept track of. -/
theorem PoolState.Surfaced.run {ok : PoolState → ℕ → Choice → Prop} {s₀ s : PoolState}
    (h : Run ok s₀ s) (h₀ : s₀.Surfaced) : s.Surfaced :=
  h.keeps (fun _ _ _ _ hsurfaced _ hstep => hsurfaced.step hstep) h₀

/-- A task that completed with a failure is in the slot's account: the slot holds a failure, or
this one was taken from it. -/
theorem PoolState.Surfaced.throws {s : PoolState} (h : s.Surfaced) {task : Task}
    (htask : task ∈ s.completed) (houtcome : task.outcome ≠ none) (hnew : task ∉ s.reported) :
    s.pool.firstException ≠ none := by
  have hrecorded : task ∈ s.recorded :=
    (List.mem_append.mp (h.completed task htask houtcome)).resolve_right hnew
  have hfirst := h.first
  cases hlist : s.recorded with
  | nil => exact absurd (hlist ▸ hrecorded) List.not_mem_nil
  | cons head rest =>
    rw [hfirst, hlist]
    exact h.failures head (by rw [hlist]; exact List.mem_cons_self)

/-- The wait a thread is in. -/
def AfterTask.wait? : AfterTask → Option Wait
  | .worker => none
  | .drain wait => some wait

/-- The wait a thread is in. -/
def Control.wait? : Control → Option Wait
  | .draining wait | .popAny wait _ | .waiting wait | .rethrowing wait => some wait
  | .running _ after | .recording _ _ after | .executing _ after | .retiring _ after => after.wait?
  | _ => none

/-- A wait began in the past, and when it is past its loop everything it waits for is complete. -/
structure PoolState.Waits (s : PoolState) (c : Control) : Prop where
  since : ∀ wait, c.wait? = some wait → wait.since ≤ s.counted.length
  drained : ∀ wait, c = .rethrowing wait → ∀ task ∈ s.counted, task.id < wait.since →
    task ∈ s.completed

theorem AfterTask.control_wait? (after : AfterTask) : after.control.wait? = after.wait? := by
  cases after <;> rfl

theorem AfterSubmit.control_wait? (after : AfterSubmit) : after.control.wait? = none := by
  cases after <;> rfl

theorem takeOr_wait? {found : Option Task} {a : Act} {after : AfterTask} {otherwise : Control}
    (h : otherwise.wait? = after.wait?) :
    (takeOr found a after otherwise).2.wait? = after.wait? := by
  cases found with
  | none => exact h
  | some task => rfl

/-- A thread is in the wait it was in, or in one that begins now. -/
theorem PoolState.transition_wait? (s : PoolState) (t : ℕ) (choice : Choice) (c : Control)
    (wait : Wait) (hwait : (s.transition t choice c).2.wait? = some wait) :
    c.wait? = some wait ∨ wait.since = s.counted.length := by
  cases c with
  | idle =>
    cases choice with
    | waitIdle =>
      cases hwait
      exact Or.inr rfl
    | parallelFor start stop fn grain =>
      simp only [PoolState.transition, PoolState.enter] at hwait
      split at hwait <;> cases hwait
    | _ => cases hwait
  | looping call first grain hint =>
    simp only [PoolState.transition] at hwait
    split at hwait
    · cases hwait
    · cases hwait
      exact Or.inr rfl
  | pushing task hint after =>
    have hnone := after.control_wait?.symm.trans hwait
    cases hnone
  | draining entered =>
    simp only [PoolState.transition] at hwait
    split at hwait <;> exact Or.inl hwait
  | popAny entered i =>
    simp only [PoolState.transition] at hwait
    split at hwait
    · rw [takeOr_wait? rfl] at hwait
      exact Or.inl hwait
    · exact Or.inl hwait
  | running task after =>
    simp only [PoolState.transition] at hwait
    split at hwait <;> exact Or.inl hwait
  | retiring task after => exact Or.inl (after.control_wait?.symm.trans hwait)
  | popLocal =>
    have hnone := (takeOr_wait? rfl).symm.trans hwait
    cases hnone
  | stealing same offset =>
    simp only [PoolState.transition] at hwait
    split at hwait
    · split at hwait <;> cases hwait
    · split at hwait <;> cases hwait
  | tryingSteal same offset =>
    have hnone := (takeOr_wait? rfl).symm.trans hwait
    cases hnone
  | counted task hint after => cases hwait
  | rethrowing entered => cases hwait
  | testing => cases hwait
  | sleeping => cases hwait
  | _ => exact Or.inl hwait

theorem takeOr_ne_rethrowing {found : Option Task} {a : Act} {after : AfterTask}
    {otherwise : Control} {wait : Wait} (h : otherwise ≠ .rethrowing wait) :
    (takeOr found a after otherwise).2 ≠ .rethrowing wait := by
  cases found with
  | none => exact h
  | some task => exact nofun

theorem AfterTask.control_ne_rethrowing (after : AfterTask) (wait : Wait) :
    after.control ≠ .rethrowing wait := by
  cases after <;> exact nofun

theorem AfterSubmit.control_ne_rethrowing (after : AfterSubmit) (wait : Wait) :
    after.control ≠ .rethrowing wait := by
  cases after <;> exact nofun

/-- A thread leaves the loop of `drain_until_idle` when nothing is outstanding. -/
theorem PoolState.transition_rethrowing (s : PoolState) (t : ℕ) (choice : Choice) (c : Control)
    (wait : Wait) (h : (s.transition t choice c).2 = .rethrowing wait) :
    s.pool.outstanding = 0 ∧ (s.transition t choice c).1 = .silent := by
  cases c with
  | idle =>
    cases choice with
    | parallelFor start stop fn grain =>
      simp only [PoolState.transition, PoolState.enter] at h
      split at h <;> cases h
    | _ => cases h
  | looping call first grain hint =>
    simp only [PoolState.transition] at h
    split at h <;> cases h
  | pushing task hint after => exact absurd h (after.control_ne_rethrowing wait)
  | draining entered =>
    simp only [PoolState.transition] at h
    split at h
    · cases h
    · rename_i hidle
      exact ⟨not_not.mp hidle, rfl⟩
  | popAny entered i =>
    simp only [PoolState.transition] at h
    split at h
    · exact absurd h (takeOr_ne_rethrowing (by rintro ⟨⟩))
    · cases h
  | running task after =>
    simp only [PoolState.transition] at h
    split at h <;> cases h
  | retiring task after => exact absurd h (after.control_ne_rethrowing wait)
  | popLocal => exact absurd h (takeOr_ne_rethrowing (by rintro ⟨⟩))
  | stealing same offset =>
    simp only [PoolState.transition] at h
    split at h
    · split at h <;> cases h
    · split at h <;> cases h
  | tryingSteal same offset => exact absurd h (takeOr_ne_rethrowing (by rintro ⟨⟩))
  | _ => cases h

/-- Completed tasks stay completed. -/
theorem PoolState.completed_subset_act (s : PoolState) (a : Act) :
    s.completed ⊆ (s.act a).completed := by
  cases a with
  | retire task => exact List.subset_append_left _ _
  | _ => exact List.Subset.refl _

/-- Tasks are counted after those there are. -/
theorem PoolState.mem_counted_act {s : PoolState} {c c' : Control} {a : Act}
    (h : a.Handles s c c') {task : Task} (htask : task ∈ (s.act a).counted) :
    task ∈ s.counted ∨ task.id = s.counted.length := by
  cases a with
  | count other =>
    rcases List.mem_append.mp htask with hmem | hmem
    · exact Or.inl hmem
    · rw [List.mem_singleton.mp hmem]
      exact Or.inr h.1
  | _ => exact Or.inl htask

/-- There are never fewer counted tasks than before. -/
theorem PoolState.length_counted_act (s : PoolState) (a : Act) :
    s.counted.length ≤ (s.act a).counted.length := by
  cases a with
  | count task => exact (List.sublist_append_left _ _).length_le
  | _ => exact le_rfl

/-- A step of another thread leaves a wait as it is. -/
theorem PoolState.Waits.mono {s : PoolState} {c d d' : Control} {a : Act} (h : s.Waits c)
    (hhandles : a.Handles s d d') (t : ℕ) : (s.advance t a d').Waits c := by
  refine ⟨fun wait hwait => (h.since wait hwait).trans (s.length_counted_act a),
    fun wait hwait task htask hid => ?_⟩
  rcases PoolState.mem_counted_act hhandles htask with hold | hnew
  · exact s.completed_subset_act a (h.drained wait hwait task hold hid)
  · have hsince := h.since wait (by rw [hwait]; rfl)
    omega

/-- One step of a run keeps every wait sound. -/
theorem PoolState.Waits.step {s s' : PoolState} (hlocated : s.Located)
    (h : ∀ c ∈ s.threads, s.Waits c) {t : ℕ} {choice : Choice}
    (hstep : s.step t choice = some s') : ∀ c ∈ s'.threads, s'.Waits c := by
  obtain ⟨c, a, c', hc, htransition, rfl⟩ := PoolState.step_cases hstep
  have hhandles : a.Handles s c c' := by
    have hall := s.transition_handles hlocated.queues t choice c
    rwa [htransition] at hall
  intro d hd
  rcases List.mem_or_eq_of_mem_set hd with hold | rfl
  · exact (h d hold).mono hhandles t
  · refine ⟨fun wait hwait => ?_, fun wait hwait task htask _ => ?_⟩
    · have hfrom := s.transition_wait? t choice c wait (by rw [htransition]; exact hwait)
      have hmono := s.length_counted_act a
      rcases hfrom with hsame | hnew
      · exact ((h c (List.mem_of_getElem? hc)).since wait hsame).trans hmono
      · exact hnew.le.trans hmono
    · have hfrom := s.transition_rethrowing t choice c wait (by rw [htransition]; exact hwait)
      rw [htransition] at hfrom
      obtain ⟨hidle, rfl⟩ := hfrom
      exact hlocated.completed_of_idle hidle htask

/-- Wherever an interleaving leads, every wait is sound. -/
theorem PoolState.Waits.run {ok : PoolState → ℕ → Choice → Prop} {s₀ s : PoolState}
    (h : Run ok s₀ s) (hlocated : s₀.Located) (h₀ : ∀ c ∈ s₀.threads, s₀.Waits c) :
    ∀ c ∈ s.threads, s.Waits c := by
  induction h with
  | refl => exact h₀
  | step hrun _ hstep ih => exact Waits.step (hlocated.run hrun) ih hstep

end VeloGraphX
