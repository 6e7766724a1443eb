import Mathlib
import VeloGraphX.Runtime.PoolFailures

/-!
# `wait_idle` in any interleaving

`test_work_stealing_stress.cpp` counts the tasks that ran and the failures that came back.
These are the facts it relies on, for any number of workers and clients and any order of their
steps: no task is lost or runs twice, a wait ends only when what it waits for is complete, and
a failure is thrown by the first wait that ends after it was recorded.
-/

namespace VeloGraphX

/-- The account of the tasks at a point of a run. -/
structure PoolState.Accounted (s : PoolState) : Prop where
  distinct : s.counted.Nodup
  placed : (s.queued ++ s.inFlight ++ s.completed).Perm s.counted
  once : s.runs.Nodup
  ran : ∀ task ∈ s.completed, task ∈ s.runs
  outstanding : s.pool.outstanding + s.completed.length = s.counted.length

/-- What is known when a thread is about to return from `wait_idle`, or to throw what is in
`first_exception_`. -/
structure PoolState.WaitEnds (s : PoolState) (wait : Wait) : Prop where
  complete : ∀ task ∈ s.counted, task.id < wait.since → task ∈ s.completed
  throws : ∀ task ∈ s.completedSince, task.outcome ≠ none → task ∉ s.reported →
    s.pool.firstException ≠ none

/-- What a thread has not run, it has in its hands. -/
theorem Control.unrun_subset_holds (c : Control) : c.unrun ⊆ c.holds := by
  cases c <;> first | exact List.Subset.refl _ | exact List.nil_subset _

/-- A completed task has run. -/
theorem PoolState.Located.ran_of_completed {s : PoolState} (h : s.Located) {task : Task}
    (htask : task ∈ s.completed) : task ∈ s.runs := by
  have hdisjoint := List.disjoint_of_nodup_append (h.placed.nodup_iff.mpr h.nodup)
  have helsewhere : task ∉ s.queued ++ s.inFlight := fun hmem => hdisjoint hmem htask
  have hcounted : task ∈ s.counted := h.placed.mem_iff.mp (List.mem_append_right _ htask)
  rcases List.mem_append.mp (h.ran.mem_iff.mpr hcounted) with hmem | hunrun
  · rcases List.mem_append.mp hmem with hruns | hqueued
    · exact hruns
    · exact absurd (List.mem_append_left _ hqueued) helsewhere
  · obtain ⟨c, hc, hfresh⟩ := List.mem_flatMap.mp hunrun
    have hheld : task ∈ s.inFlight := List.mem_flatMap.mpr ⟨c, hc, c.unrun_subset_holds hfresh⟩
    exact absurd (List.mem_append_right _ hheld) helsewhere

/-- The account of the tasks, as a caller sees it. -/
theorem PoolState.Located.accounted {s : PoolState} (h : s.Located) : s.Accounted :=
  ⟨h.nodup, h.placed, h.runs_nodup, fun _ htask => h.ran_of_completed htask, h.outstanding⟩

/-- No thread of a new pool is in a wait. -/
theorem PoolState.Waits.start (threads : ℕ) (queueGroups : List ℕ) (clients : ℕ) :
    ∀ c ∈ (PoolState.start threads queueGroups clients).threads,
      (PoolState.start threads queueGroups clients).Waits c := by
  intro c hc
  rcases List.mem_append.mp hc with hmem | hmem
  · rw [List.eq_of_mem_replicate hmem]
    exact ⟨nofun, nofun⟩
  · rw [List.eq_of_mem_replicate hmem]
    exact ⟨nofun, nofun⟩

/-- In every state of every interleaving no task is lost or runs twice, and a wait that ends
knows what it waited for to be complete and throws when a task failed since the last rethrow,
unless that rethrow has already taken the failure. -/
theorem PoolState.wait_idle_reports (threads : ℕ) (queueGroups : List ℕ) (clients : ℕ)
    (s : PoolState) (h : Reachable (PoolState.start threads queueGroups clients) s) :
    s.Accounted ∧
      ∀ (t : ℕ) (wait : Wait), s.threads[t]? = some (.rethrowing wait) → s.WaitEnds wait := by
  have hlocated := PoolState.Located.run h (.start threads queueGroups clients)
  have hsurfaced := PoolState.Surfaced.run h (.start threads queueGroups clients)
  have hwaits := PoolState.Waits.run h (.start threads queueGroups clients)
    (.start threads queueGroups clients)
  refine ⟨hlocated.accounted, fun t wait hthread => ⟨?_, ?_⟩⟩
  · exact (hwaits _ (List.mem_of_getElem? hthread)).drained wait rfl
  · exact fun task htask houtcome hnew => hsurfaced.throws (hsurfaced.since htask) houtcome hnew

/-- Take the steps of a list of threads in order, each one that `ok` allows. -/
def PoolState.steps (ok : PoolState → ℕ → Choice → Prop)
    [∀ s t choice, Decidable (ok s t choice)] (s : PoolState) :
    List (ℕ × Choice) → Option PoolState
  | [] => some s
  | (t, choice) :: rest =>
    if ok s t choice then (s.step t choice).bind fun s' => s'.steps ok rest else none

/-- Steps taken in order make a run. -/
theorem Run.append_steps {ok : PoolState → ℕ → Choice → Prop}
    [∀ s t choice, Decidable (ok s t choice)] {s₀ s s' : PoolState} {steps : List (ℕ × Choice)}
    (h : Run ok s₀ s) (hsteps : s.steps ok steps = some s') : Run ok s₀ s' := by
  induction steps generalizing s with
  | nil => exact Option.some.inj hsteps ▸ h
  | cons first rest ih =>
    rw [PoolState.steps] at hsteps
    split at hsteps
    · rename_i hok
      obtain ⟨s₁, hstep, hrest⟩ := Option.bind_eq_some_iff.mp hsteps
      exact ih (h.step hok hstep) hrest
    · exact absurd hsteps nofun

/-- A client submits a task that throws, waits, takes the task itself and is about to throw. -/
theorem PoolState.wait_idle_reports_throw :
    ∃ s wait, Reachable (PoolState.start 1 [] 1) s ∧ s.pool.firstException = some 7 ∧
      s.Accounted ∧ s.WaitEnds wait := by
  have hsteps : ∃ s, (PoolState.start 1 [] 1).steps (fun _ _ _ => True)
      [(1, .submit [(0, some 7)] 0), (1, .proceed), (1, .proceed), (1, .waitIdle), (1, .proceed),
       (1, .proceed), (1, .proceed), (1, .proceed), (1, .proceed), (1, .proceed),
       (1, .proceed)] = some s ∧
      s.threads[1]? = some (.rethrowing ⟨1, none⟩) ∧ s.pool.firstException = some 7 :=
    ⟨_, rfl, rfl, rfl⟩
  obtain ⟨s, hs, hthread, hfirst⟩ := hsteps
  have hreach := Run.append_steps .refl hs
  have hall := PoolState.wait_idle_reports 1 [] 1 s hreach
  exact ⟨s, _, hreach, hfirst, hall.1, hall.2 1 _ hthread⟩

/-- A task's failure is thrown by a wait that ends between its recording and its completion; the
next wait then ends with a failed task since the last rethrow, and throws nothing. -/
theorem PoolState.not_wait_idle_throws :
    ¬ ∀ (threads : ℕ) (queueGroups : List ℕ) (clients : ℕ) (s : PoolState),
      Reachable (PoolState.start threads queueGroups clients) s →
      ∀ (t : ℕ) (wait : Wait), s.threads[t]? = some (.rethrowing wait) →
        ∀ task ∈ s.completedSince, task.outcome ≠ none → s.pool.firstException ≠ none := by
  intro h
  have hsteps : ∃ s, (PoolState.start 1 [] 2).steps (fun _ _ _ => True)
      [(1, .waitIdle), (1, .proceed), (2, .submit [(0, some 7)] 0), (2, .proceed), (2, .proceed),
       (0, .proceed), (0, .proceed), (0, .proceed), (0, .proceed), (1, .proceed), (0, .proceed),
       (0, .proceed), (1, .waitIdle), (1, .proceed)] = some s ∧
      s.threads[1]? = some (.rethrowing ⟨1, none⟩) ∧
      s.completedSince = [⟨0, none, [(0, some 7)]⟩] ∧ s.pool.firstException = none :=
    ⟨_, rfl, rfl, rfl, rfl⟩
  obtain ⟨s, hs, hthread, hcompleted, hfirst⟩ := hsteps
  refine h 1 [] 2 s (Run.append_steps .refl hs) 1 _ hthread ⟨0, none, [(0, some 7)]⟩ ?_ ?_ hfirst
  · rw [hcompleted]
    exact List.mem_singleton_self _
  · exact Option.some_ne_none 7

end VeloGraphX
