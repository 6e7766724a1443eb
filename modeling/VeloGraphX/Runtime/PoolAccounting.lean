import Mathlib
import VeloGraphX.Lib.PointUpdate
import VeloGraphX.Runtime.WorkStealingPool

/-!
# Where the tasks of the pool are

A counted task is in one queue, in the hands of one thread, or completed, at every point between
two steps. The argument looks at a step through what it does with the one task it touches
(`Act.Handles`); which loop of which function took the step no longer matters after that.
-/

namespace VeloGraphX

/-- The task a thread has in its hands. -/
def Control.holds : Control → List Task
  | .counted task _ _ | .pushing task _ _ | .running task _ | .recording task _ _
  | .executing task _ | .retiring task _ => [task]
  | _ => []

/-- The task a thread has in its hands and has not run. -/
def Control.unrun : Control → List Task
  | .counted task _ _ | .pushing task _ _ | .running task _ => [task]
  | _ => []

/-- What a thread has in its hands. -/
def Control.Owns (c : Control) (held fresh : List Task) : Prop :=
  c.holds = held ∧ c.unrun = fresh

/-- The tasks in the queues. -/
def PoolState.queued (s : PoolState) : List Task := s.pool.queues.flatten

/-- The tasks in the hands of the threads. -/
def PoolState.inFlight (s : PoolState) : List Task := s.threads.flatMap Control.holds

/-- The tasks in the hands of the threads that have not run. -/
def PoolState.unrun (s : PoolState) : List Task := s.threads.flatMap Control.unrun

/-- What a step does with the task it touches, when it takes its thread from `c` to `c'`. -/
def Act.Handles (s : PoolState) (c c' : Control) : Act → Prop
  | .count task => task.id = s.counted.length ∧ c.Owns [] [] ∧ c'.Owns [task] [task]
  | .push i task => i < s.pool.queues.length ∧ c.Owns [task] [task] ∧ c'.Owns [] []
  | .popBack i =>
    ∃ task, (s.pool.queue i).getLast? = some task ∧ c.Owns [] [] ∧ c'.Owns [task] [task]
  | .popFront i | .steal i _ =>
    ∃ task, (s.pool.queue i).head? = some task ∧ c.Owns [] [] ∧ c'.Owns [task] [task]
  | .run task => c.Owns [task] [task] ∧ c'.Owns [task] []
  | .retire task => c.Owns [task] [] ∧ c'.Owns [] []
  | _ => c'.Owns c.holds c.unrun

/-- A step is one thread's transition. -/
theorem PoolState.step_cases {s s' : PoolState} {t : ℕ} {choice : Choice}
    (h : s.step t choice = some s') :
    ∃ c a c', s.threads[t]? = some c ∧ s.transition t choice c = (a, c') ∧
      s' = s.advance t a c' := by
  rw [PoolState.step, Option.map_eq_some_iff] at h
  obtain ⟨c, hc, heq⟩ := h
  exact ⟨c, _, _, hc, rfl, heq.symm⟩

/-- What every step keeps, every interleaving keeps. -/
theorem Run.keeps {ok : PoolState → ℕ → Choice → Prop} {I : PoolState → Prop}
    (keep : ∀ (s s' : PoolState) (t : ℕ) (choice : Choice), I s → ok s t choice →
      s.step t choice = some s' → I s')
    {s₀ s : PoolState} (h : Run ok s₀ s) (h₀ : I s₀) : I s := by
  induction h with
  | refl => exact h₀
  | step _ hok hstep ih => exact keep _ _ _ _ ih hok hstep

@[simp] theorem AfterSubmit.owns (after : AfterSubmit) : after.control.Owns [] [] := by
  cases after <;> exact ⟨rfl, rfl⟩

@[simp] theorem AfterTask.owns (after : AfterTask) : after.control.Owns [] [] := by
  cases after <;> exact ⟨rfl, rfl⟩

/-- A search that takes what it finds touches that task, and nothing when it finds none. -/
theorem takeOr_handles {s : PoolState} {c otherwise : Control} {found : Option Task} {a : Act}
    {after : AfterTask} (hc : c.Owns [] []) (hother : otherwise.Owns [] [])
    (ha : ∀ task, found = some task →
      a.Handles s c (.running task after)) :
    (takeOr found a after otherwise).1.Handles s c (takeOr found a after otherwise).2 := by
  cases found with
  | none => exact ⟨hother.1.trans hc.1.symm, hother.2.trans hc.2.symm⟩
  | some task => exact ha task rfl

/-- Every step touches at most one task, and in one of the ways of `Act.Handles`. -/
theorem PoolState.transition_handles {s : PoolState} (hq : 0 < s.pool.queues.length) (t : ℕ)
    (choice : Choice) (c : Control) :
    (s.transition t choice c).1.Handles s c (s.transition t choice c).2 := by
  cases c with
  | idle =>
    cases choice with
    | proceed => exact ⟨rfl, rfl⟩
    | submit invocations hint => exact ⟨rfl, ⟨rfl, rfl⟩, rfl, rfl⟩
    | waitIdle => exact ⟨rfl, rfl⟩
    | parallelFor start stop fn grain =>
      simp only [PoolState.transition, PoolState.enter]
      split
      · exact ⟨rfl, rfl⟩
      · exact ⟨rfl, rfl⟩
  | looping call first grain hint =>
    simp only [PoolState.transition]
    split
    · exact ⟨rfl, ⟨rfl, rfl⟩, rfl, rfl⟩
    · exact ⟨rfl, rfl⟩
  | counted task hint after => exact ⟨rfl, rfl⟩
  | pushing task hint after => exact ⟨Nat.mod_lt _ hq, ⟨rfl, rfl⟩, after.owns⟩
  | draining wait =>
    simp only [PoolState.transition]
    split <;> exact ⟨rfl, rfl⟩
  | popAny wait i =>
    simp only [PoolState.transition]
    split
    · exact takeOr_handles ⟨rfl, rfl⟩ ⟨rfl, rfl⟩ fun task h => ⟨task, h, ⟨rfl, rfl⟩, rfl, rfl⟩
    · exact ⟨rfl, rfl⟩
  | waiting wait => exact ⟨rfl, rfl⟩
  | rethrowing wait => exact ⟨rfl, rfl⟩
  | running task after =>
    simp only [PoolState.transition]
    split <;> exact ⟨⟨rfl, rfl⟩, rfl, rfl⟩
  | recording task error after => exact ⟨rfl, rfl⟩
  | executing task after => exact ⟨rfl, rfl⟩
  | retiring task after => exact ⟨⟨rfl, rfl⟩, after.owns⟩
  | testing => exact ⟨rfl, rfl⟩
  | popLocal =>
    exact takeOr_handles ⟨rfl, rfl⟩ ⟨rfl, rfl⟩ fun task h => ⟨task, h, ⟨rfl, rfl⟩, rfl, rfl⟩
  | stealing same offset =>
    simp only [PoolState.transition]
    split
    · split <;> exact ⟨rfl, rfl⟩
    · split <;> exact ⟨rfl, rfl⟩
  | tryingSteal same offset =>
    exact takeOr_handles ⟨rfl, rfl⟩ ⟨rfl, rfl⟩ fun task h => ⟨task, h, ⟨rfl, rfl⟩, rfl, rfl⟩
  | sleeping => exact ⟨rfl, rfl⟩

/-- Replacing one queue changes what is queued by the difference. -/
theorem WorkStealingPool.count_setQueue {p : WorkStealingPool} {i : ℕ}
    (hi : i < p.queues.length) (tasks : List Task) (k : Task) :
    (p.setQueue i tasks).queues.flatten.count k + (p.queue i).count k =
      p.queues.flatten.count k + tasks.count k := by
  have hread : p.queues[i]? = some (p.queue i) := by
    rw [WorkStealingPool.queue, List.getD_eq_getElem _ _ hi]
    exact List.getElem?_eq_getElem hi
  have hcount := PointUpdate.count_flatMap_set hread tasks id k
  rwa [List.flatMap_id, List.flatMap_id] at hcount

/-- A queue with a task in it is one of the pool's queues. -/
theorem WorkStealingPool.lt_of_mem_queue {p : WorkStealingPool} {i : ℕ} {task : Task}
    (h : task ∈ p.queue i) : i < p.queues.length := by
  by_contra hi
  rw [WorkStealingPool.queue, List.getD_eq_default _ _ (not_lt.mp hi)] at h
  exact absurd h List.not_mem_nil

/-- Taking the first task of a queue. -/
theorem WorkStealingPool.count_tail {p : WorkStealingPool} {i : ℕ} {task : Task}
    (h : (p.queue i).head? = some task) (k : Task) :
    (p.setQueue i (p.queue i).tail).queues.flatten.count k + [task].count k =
      p.queues.flatten.count k := by
  have hsplit : (p.queue i).count k = [task].count k + (p.queue i).tail.count k := by
    rw [← List.count_append, List.singleton_append, List.cons_head?_tail h]
  have hset := p.count_setQueue (lt_of_mem_queue (List.mem_of_mem_head? h)) (p.queue i).tail k
  omega

/-- Taking the last task of a queue. -/
theorem WorkStealingPool.count_dropLast {p : WorkStealingPool} {i : ℕ} {task : Task}
    (h : (p.queue i).getLast? = some task) (k : Task) :
    (p.setQueue i (p.queue i).dropLast).queues.flatten.count k + [task].count k =
      p.queues.flatten.count k := by
  have hsplit : (p.queue i).count k = (p.queue i).dropLast.count k + [task].count k := by
    rw [← List.count_append, List.dropLast_append_getLast? task h]
  have hset := p.count_setQueue (lt_of_mem_queue (List.mem_of_getLast? h)) (p.queue i).dropLast k
  omega

/-- Every counted task is in exactly one place, and has run exactly when it is past its run. -/
structure PoolState.Located (s : PoolState) : Prop where
  queues : 0 < s.pool.queues.length
  ids : s.counted.map Task.id = List.range s.counted.length
  placed : (s.queued ++ s.inFlight ++ s.completed).Perm s.counted
  ran : (s.runs ++ s.queued ++ s.unrun).Perm s.counted
  outstanding : s.pool.outstanding + s.completed.length = s.counted.length

/-- Recording a failure leaves the queues alone. -/
theorem WorkStealingPool.queues_record (p : WorkStealingPool) (task : Task)
    (error : ExceptionPtr) : (p.act (.record task error)).queues = p.queues := by
  simp only [WorkStealingPool.act]
  split <;> rfl

/-- The queues of the pool after a step are as many as before. -/
theorem WorkStealingPool.length_act (p : WorkStealingPool) (a : Act) :
    (p.act a).queues.length = p.queues.length := by
  cases a with
  | push i task => exact List.length_set
  | popBack i => exact List.length_set
  | popFront i => exact List.length_set
  | steal i same => exact List.length_set
  | record task error => exact congrArg List.length (p.queues_record task error)
  | _ => rfl

/-- What the hands of all threads gain when one thread goes on. -/
theorem PoolState.count_hands {s : PoolState} {t : ℕ} {c c' : Control}
    (hc : s.threads[t]? = some c) {held fresh held' fresh' : List Task} (h : c.Owns held fresh)
    (h' : c'.Owns held' fresh') (k : Task) :
    ((s.threads.set t c').flatMap Control.holds).count k + held.count k =
        s.inFlight.count k + held'.count k ∧
      ((s.threads.set t c').flatMap Control.unrun).count k + fresh.count k =
        s.unrun.count k + fresh'.count k := by
  obtain ⟨rfl, rfl⟩ := h
  obtain ⟨rfl, rfl⟩ := h'
  exact ⟨PointUpdate.count_flatMap_set hc c' Control.holds k,
    PointUpdate.count_flatMap_set hc c' Control.unrun k⟩

/-- What the queues gain, counted for one task. -/
theorem PoolState.count_step {s : PoolState} {t : ℕ} {c c' : Control} {a : Act}
    (hc : s.threads[t]? = some c) (h : a.Handles s c c') (k : Task) :
    let s' := s.advance t a c'
    s'.queued.count k + s'.inFlight.count k + s'.completed.count k + s.counted.count k =
        s.queued.count k + s.inFlight.count k + s.completed.count k + s'.counted.count k ∧
      s'.runs.count k + s'.queued.count k + s'.unrun.count k + s.counted.count k =
        s.runs.count k + s.queued.count k + s.unrun.count k + s'.counted.count k := by
  simp only [PoolState.queued, PoolState.inFlight, PoolState.unrun, PoolState.advance]
  have hhands := fun {held fresh held' fresh' : List Task} (h : c.Owns held fresh)
    (h' : c'.Owns held' fresh') => PoolState.count_hands hc h h' k
  simp only [PoolState.inFlight, PoolState.unrun] at hhands
  cases a with
  | count task =>
    obtain ⟨-, hbefore, hafter⟩ := h
    obtain ⟨hheld, hunrun⟩ := hhands hbefore hafter
    simp only [PoolState.act, WorkStealingPool.act, List.count_append, List.count_nil] at *
    omega
  | push i task =>
    obtain ⟨hi, hbefore, hafter⟩ := h
    obtain ⟨hheld, hunrun⟩ := hhands hbefore hafter
    have hset := s.pool.count_setQueue hi (s.pool.queue i ++ [task]) k
    simp only [PoolState.act, WorkStealingPool.act, List.count_append, List.count_nil] at *
    omega
  | popBack i =>
    obtain ⟨task, htask, hbefore, hafter⟩ := h
    obtain ⟨hheld, hunrun⟩ := hhands hbefore hafter
    have hset := WorkStealingPool.count_dropLast htask k
    simp only [PoolState.act, WorkStealingPool.act, List.count_nil] at *
    omega
  | popFront i =>
    obtain ⟨task, htask, hbefore, hafter⟩ := h
    obtain ⟨hheld, hunrun⟩ := hhands hbefore hafter
    have hset := WorkStealingPool.count_tail htask k
    simp only [PoolState.act, WorkStealingPool.act, List.count_nil] at *
    omega
  | steal i same =>
    obtain ⟨task, htask, hbefore, hafter⟩ := h
    obtain ⟨hheld, hunrun⟩ := hhands hbefore hafter
    have hset := WorkStealingPool.count_tail htask k
    simp only [PoolState.act, WorkStealingPool.act, List.count_nil] at *
    omega
  | run task =>
    obtain ⟨hbefore, hafter⟩ := h
    obtain ⟨hheld, hunrun⟩ := hhands hbefore hafter
    simp only [PoolState.act, WorkStealingPool.act, List.count_append, List.count_nil] at *
    omega
  | retire task =>
    obtain ⟨hbefore, hafter⟩ := h
    obtain ⟨hheld, hunrun⟩ := hhands hbefore hafter
    simp only [PoolState.act, WorkStealingPool.act, List.count_append, List.count_nil] at *
    omega
  | record task error =>
    obtain ⟨hheld, hunrun⟩ := hhands ⟨rfl, rfl⟩ h
    simp only [PoolState.act, WorkStealingPool.queues_record]
    omega
  | _ =>
    obtain ⟨hheld, hunrun⟩ := hhands ⟨rfl, rfl⟩ h
    simp only [PoolState.act, WorkStealingPool.act]
    omega

/-- A task in a thread's hands is counted by `outstanding_`. -/
theorem PoolState.Located.outstanding_pos {s : PoolState} (h : s.Located) {c : Control} {t : ℕ}
    (hc : s.threads[t]? = some c) {task : Task} (hheld : c.holds = [task]) :
    0 < s.pool.outstanding := by
  have hmem : task ∈ s.inFlight :=
    List.mem_flatMap.mpr ⟨c, List.mem_of_getElem? hc, by rw [hheld]; exact List.mem_singleton_self _⟩
  have hpos := List.length_pos_of_mem hmem
  have hlength := h.placed.length_eq
  have hout := h.outstanding
  simp only [List.length_append] at hlength
  omega

/-- One step keeps every task in its one place. -/
theorem PoolState.Located.step {s s' : PoolState} (h : s.Located) {t : ℕ} {choice : Choice}
    (hstep : s.step t choice = some s') : s'.Located := by
  obtain ⟨c, a, c', hc, htransition, rfl⟩ := PoolState.step_cases hstep
  have hhandles : a.Handles s c c' := by
    have hall := s.transition_handles h.queues t choice c
    rwa [htransition] at hall
  have hcount := PoolState.count_step hc hhandles
  have hpool : (s.act a).pool = s.pool.act a := by
    cases a <;> rfl
  refine ⟨?_, ?_, ?_, ?_, ?_⟩
  · rw [PoolState.advance, hpool, WorkStealingPool.length_act]
    exact h.queues
  · cases a with
    | count task =>
      simp only [PoolState.advance, PoolState.act, List.map_append, h.ids, List.length_append,
        List.map_singleton, List.length_singleton, List.range_succ, hhandles.1]
    | _ => exact h.ids
  · refine List.perm_iff_count.mpr fun k => ?_
    have hold := List.perm_iff_count.mp h.placed k
    have hnew := (hcount k).1
    simp only [List.count_append] at hold ⊢
    omega
  · refine List.perm_iff_count.mpr fun k => ?_
    have hold := List.perm_iff_count.mp h.ran k
    have hnew := (hcount k).2
    simp only [List.count_append] at hold ⊢
    omega
  · have hout := h.outstanding
    cases a with
    | count task =>
      simp only [PoolState.advance, PoolState.act, WorkStealingPool.act, List.length_append,
        List.length_singleton]
      omega
    | retire task =>
      have hpos := h.outstanding_pos hc hhandles.1.1
      simp only [PoolState.advance, PoolState.act, WorkStealingPool.act, List.length_append,
        List.length_singleton]
      omega
    | record task error =>
      simp only [PoolState.advance, PoolState.act, WorkStealingPool.act]
      split <;> exact hout
    | _ => exact hout

/-- No thread of a new pool has anything in its hands. -/
theorem PoolState.start_flatMap (threads : ℕ) (queueGroups : List ℕ) (clients : ℕ) {β : Type*}
    (f : Control → List β) (htesting : f .testing = []) (hidle : f .idle = []) :
    (PoolState.start threads queueGroups clients).threads.flatMap f = [] := by
  simp [PoolState.start, htesting, hidle]

/-- A new pool holds no task. -/
theorem PoolState.Located.start (threads : ℕ) (queueGroups : List ℕ) (clients : ℕ) :
    (PoolState.start threads queueGroups clients).Located := by
  have hqueued : (PoolState.start threads queueGroups clients).queued = [] := by
    simp [PoolState.queued, PoolState.start, WorkStealingPool.make]
  have hinFlight : (PoolState.start threads queueGroups clients).inFlight = [] :=
    PoolState.start_flatMap threads queueGroups clients _ rfl rfl
  have hunrun : (PoolState.start threads queueGroups clients).unrun = [] :=
    PoolState.start_flatMap threads queueGroups clients _ rfl rfl
  refine ⟨?_, rfl, ?_, ?_, rfl⟩
  · simp only [PoolState.start, WorkStealingPool.make, List.length_replicate]
    split <;> omega
  · rw [hqueued, hinFlight]
    exact List.Perm.refl _
  · rw [hqueued, hunrun]
    exact List.Perm.refl _

/-- Wherever an interleaving leads, every task is in its one place. -/
theorem PoolState.Located.run {ok : PoolState → ℕ → Choice → Prop} {s₀ s : PoolState}
    (h : Run ok s₀ s) (h₀ : s₀.Located) : s.Located :=
  h.keeps (fun _ _ _ _ hlocated _ hstep => hlocated.step hstep) h₀

/-- The tasks are told apart by their numbers. -/
theorem PoolState.Located.nodup {s : PoolState} (h : s.Located) : s.counted.Nodup :=
  List.Nodup.of_map Task.id (by rw [h.ids]; exact List.nodup_range)

/-- No task runs twice. -/
theorem PoolState.Located.runs_nodup {s : PoolState} (h : s.Located) : s.runs.Nodup :=
  ((h.ran.nodup_iff.mpr h.nodup).of_append_left).of_append_left

/-- When `outstanding_` is zero, no task is in a queue or in the hands of a thread. -/
theorem PoolState.Located.empty_of_idle {s : PoolState} (h : s.Located)
    (hidle : s.pool.outstanding = 0) : s.queued = [] ∧ s.inFlight = [] := by
  have hout := h.outstanding
  have hlength := h.placed.length_eq
  simp only [List.length_append] at hlength
  exact ⟨List.length_eq_zero_iff.mp (by omega), List.length_eq_zero_iff.mp (by omega)⟩

/-- When `outstanding_` is zero, every counted task has completed. -/
theorem PoolState.Located.completed_of_idle {s : PoolState} (h : s.Located)
    (hidle : s.pool.outstanding = 0) {task : Task} (htask : task ∈ s.counted) :
    task ∈ s.completed := by
  obtain ⟨hqueued, hinFlight⟩ := h.empty_of_idle hidle
  have hmem := h.placed.mem_iff.mpr htask
  rwa [hqueued, hinFlight] at hmem

end VeloGraphX
