import Mathlib
import VeloGraphX.Types

/-!
# The work-stealing thread pool

`runtime/work_stealing_pool.hpp` as a step relation. Every atomic operation and every section
under a mutex is one step of one thread; what a thread computes between two of them belongs to
the step that follows. A condition variable only wakes a thread early, so a wait is a step that
changes nothing.

The pool itself is `WorkStealingPool`. `PoolState` adds where each thread stands in the code, and
a history that no thread reads: which tasks were counted, ran, completed, and which failures were
recorded before and after the last rethrow.
-/

namespace VeloGraphX

/-- A `std::exception_ptr` that is not null. -/
abbrev ExceptionPtr := ℕ

/-- `WorkStealingStats`. -/
structure WorkStealingStats where
  submitted : ℕ := 0
  executed : ℕ := 0
  stealAttempts : ℕ := 0
  successfulSteals : ℕ := 0
  localSteals : ℕ := 0
  remoteSteals : ℕ := 0
deriving DecidableEq, Repr

/-- A submitted closure: the invocations `fn(i)` it makes in order, each with what it throws. The
number and the `parallel_for` call it was submitted by are history. -/
structure Task where
  id : ℕ
  call : Option ℕ
  invocations : List (ℕ × Option ExceptionPtr)
deriving DecidableEq, Repr

/-- What `task()` throws: the exception of the first invocation that throws. -/
def Task.outcome (task : Task) : Option ExceptionPtr := task.invocations.findSome? Prod.snd

/-- One call `parallel_for(start, stop, fn, ..)`. -/
structure ParallelCall where
  id : ℕ
  start : ℕ
  stop : ℕ
  fn : ℕ → Option ExceptionPtr

/-- One call of `wait_idle`, on its own or by `parallel_for`. `since` is the number of tasks
that had been counted when it began. -/
structure Wait where
  since : ℕ
  call : Option ParallelCall

/-- What a thread does once `submit` returns. -/
inductive AfterSubmit
  | returned
  | chunks (call : ParallelCall) (first grain hint : ℕ)

/-- Where a thread goes once `complete_task` returns. -/
inductive AfterTask
  | worker
  | drain (wait : Wait)

/-- The next step of a thread. -/
inductive Control
  /-- A client outside the pool. -/
  | idle
  /-- The chunk loop of `parallel_for`. -/
  | looping (call : ParallelCall) (first grain hint : ℕ)
  /-- `submit`, after the increment of `outstanding_`. -/
  | counted (task : Task) (hint : ℕ) (after : AfterSubmit)
  /-- `submit`, before the queue is locked. -/
  | pushing (task : Task) (hint : ℕ) (after : AfterSubmit)
  /-- The loop head of `drain_until_idle`. -/
  | draining (wait : Wait)
  /-- `pop_any`, before queue `i` is locked. -/
  | popAny (wait : Wait) (i : ℕ)
  /-- `idle_cv_.wait_for`. -/
  | waiting (wait : Wait)
  /-- `rethrow_pending_exception`. -/
  | rethrowing (wait : Wait)
  /-- `complete_task`, before `task()`. -/
  | running (task : Task) (after : AfterTask)
  /-- `record_exception`. -/
  | recording (task : Task) (error : ExceptionPtr) (after : AfterTask)
  /-- `complete_task`, before the increment of `executed_`. -/
  | executing (task : Task) (after : AfterTask)
  /-- `complete_task`, before the decrement of `outstanding_`. -/
  | retiring (task : Task) (after : AfterTask)
  /-- The loop head of `worker`. -/
  | testing
  /-- `pop_local`. -/
  | popLocal
  /-- The loops of `steal`: the first pass over the thief's own group, then the other. -/
  | stealing (same : Bool) (offset : ℕ)
  /-- `try_steal_from`, after the increment of `steal_attempts_`. -/
  | tryingSteal (same : Bool) (offset : ℕ)
  /-- `cv_.wait_for`. -/
  | sleeping

/-- Where a thread goes after `submit`. -/
def AfterSubmit.control : AfterSubmit → Control
  | .returned => .idle
  | .chunks call first grain hint => .looping call first grain hint

/-- Where a thread goes after `complete_task`. -/
def AfterTask.control : AfterTask → Control
  | .worker => .testing
  | .drain wait => .draining wait

/-- The fields of the pool. `outstanding` counts tasks that are in memory, so it is not cut off. -/
structure WorkStealingPool where
  queues : List (List Task)
  queueGroups : List ℕ
  outstanding : ℕ := 0
  stats : WorkStealingStats := {}
  firstException : Option ExceptionPtr := none

/-- The constructor. -/
def WorkStealingPool.make (threads : ℕ) (queueGroups : List ℕ) : WorkStealingPool :=
  let threads := if threads = 0 then 1 else threads
  { queues := List.replicate threads []
    queueGroups := if queueGroups.length ≠ threads then List.replicate threads 0
      else queueGroups }

/-- `size()`: there are as many workers as queues. -/
def WorkStealingPool.size (p : WorkStealingPool) : ℕ := p.queues.length

/-- `queue_group`. -/
def WorkStealingPool.queueGroup (p : WorkStealingPool) (index : ℕ) : ℕ :=
  p.queueGroups.getD index 0

/-- `adaptive_grain`. -/
def WorkStealingPool.adaptiveGrain (workItems threads : ℕ) : ℕ :=
  let threads := if threads = 0 then 1 else threads
  let targetChunks := threads * 8 % 2 ^ 64
  let grain := subU64 (addU64 workItems targetChunks) 1 / targetChunks
  if grain = 0 then 1 else grain

/-- The tasks of one queue. -/
def WorkStealingPool.queue (p : WorkStealingPool) (i : ℕ) : List Task := p.queues.getD i []

/-- Replace the tasks of one queue. -/
def WorkStealingPool.setQueue (p : WorkStealingPool) (i : ℕ) (tasks : List Task) :
    WorkStealingPool := { p with queues := p.queues.set i tasks }

/-- The end of the chunk that starts at `first`. -/
def ParallelCall.chunkLast (call : ParallelCall) (first grain : ℕ) : ℕ :=
  if addU64 first grain < call.stop then addU64 first grain else call.stop

/-- The closure `parallel_for` submits for the chunk that starts at `first`. -/
def ParallelCall.chunk (call : ParallelCall) (id first grain : ℕ) : Task where
  id := id
  call := some call.id
  invocations := (List.range' first (call.chunkLast first grain - first)).map fun i => (i, call.fn i)

/-- What a step does to the pool, and to the history. -/
inductive Act
  /-- Nothing that another thread can see. -/
  | silent
  /-- `parallel_for` is entered. -/
  | enter
  /-- `parallel_for` returns at once, over an empty range. -/
  | enterEmpty (call : ParallelCall)
  /-- `outstanding_.fetch_add(1)`. -/
  | count (task : Task)
  /-- `submitted_.fetch_add(1)`. -/
  | submitted
  /-- `queues_[i]->tasks.push_back(task)`. -/
  | push (i : ℕ) (task : Task)
  /-- `queues_[i]->tasks.pop_back()`. -/
  | popBack (i : ℕ)
  /-- `queues_[i]->tasks.pop_front()`. -/
  | popFront (i : ℕ)
  /-- `steal_attempts_.fetch_add(1)`. -/
  | attempt
  /-- `queues_[i]->tasks.pop_front()` by a thief. -/
  | steal (i : ℕ) (same : Bool)
  /-- `task()`. -/
  | run (task : Task)
  /-- The section of `record_exception`. -/
  | record (task : Task) (error : ExceptionPtr)
  /-- `executed_.fetch_add(1)`. -/
  | executed
  /-- `outstanding_.fetch_sub(1)`. -/
  | retire (task : Task)
  /-- The section of `rethrow_pending_exception`, after which the wait returns or throws. -/
  | rethrow (wait : Wait)

/-- The pool, its threads, and the history of the run. -/
structure PoolState where
  pool : WorkStealingPool
  threads : List Control
  /-- Every task so far, in the order in which `outstanding_` counted them. -/
  counted : List Task := []
  /-- The executions `task()` so far. -/
  runs : List Task := []
  /-- The tasks that `outstanding_` no longer counts. -/
  completed : List Task := []
  /-- Those of them that completed since the last rethrow. -/
  completedSince : List Task := []
  /-- The tasks whose failure was recorded since the last rethrow. -/
  recorded : List Task := []
  /-- The tasks whose failure was recorded before it. -/
  reported : List Task := []
  /-- The number of calls of `parallel_for` so far. -/
  calls : ℕ := 0
  /-- The calls of `parallel_for` that are over, with what they threw. -/
  returns : List (ParallelCall × Option ExceptionPtr) := []

/-- A new pool with its workers and some client threads. -/
def PoolState.start (threads : ℕ) (queueGroups : List ℕ) (clients : ℕ) : PoolState :=
  let pool := WorkStealingPool.make threads queueGroups
  { pool := pool
    threads := List.replicate pool.size .testing ++ List.replicate clients .idle }

/-- The effect of a step on the pool. -/
def WorkStealingPool.act (p : WorkStealingPool) : Act → WorkStealingPool
  | .silent | .enter | .enterEmpty _ | .run _ => p
  | .count _ => { p with outstanding := p.outstanding + 1 }
  | .submitted => { p with stats.submitted := addU64 p.stats.submitted 1 }
  | .push i task => p.setQueue i (p.queue i ++ [task])
  | .popBack i => p.setQueue i (p.queue i).dropLast
  | .popFront i => p.setQueue i (p.queue i).tail
  | .attempt => { p with stats.stealAttempts := addU64 p.stats.stealAttempts 1 }
  | .steal i same =>
    let stats := { p.stats with successfulSteals := addU64 p.stats.successfulSteals 1 }
    { p.setQueue i (p.queue i).tail with
      stats :=
        if same then { stats with localSteals := addU64 stats.localSteals 1 }
        else { stats with remoteSteals := addU64 stats.remoteSteals 1 } }
  | .record _ error =>
    if p.firstException = none then { p with firstException := some error } else p
  | .executed => { p with stats.executed := addU64 p.stats.executed 1 }
  | .retire _ => { p with outstanding := p.outstanding - 1 }
  | .rethrow _ => { p with firstException := none }

/-- The effect of a step on the pool and the history. -/
def PoolState.act (s : PoolState) (a : Act) : PoolState :=
  let s' := { s with pool := s.pool.act a }
  match a with
  | .enter => { s' with calls := s.calls + 1 }
  | .enterEmpty call => { s' with calls := s.calls + 1, returns := s.returns ++ [(call, none)] }
  | .count task => { s' with counted := s.counted ++ [task] }
  | .run task => { s' with runs := s.runs ++ [task] }
  | .record task _ => { s' with recorded := s.recorded ++ [task] }
  | .retire task =>
    { s' with
      completed := s.completed ++ [task]
      completedSince := s.completedSince ++ [task] }
  | .rethrow wait =>
    { s' with
      completedSince := []
      reported := s.reported ++ s.recorded
      recorded := []
      returns := match wait.call with
        | none => s.returns
        | some call => s.returns ++ [(call, s.pool.firstException)] }
  | _ => s'

/-- What the environment decides: nothing, except which function an idle client calls. -/
inductive Choice
  | proceed
  | submit (invocations : List (ℕ × Option ExceptionPtr)) (hint : ℕ)
  | waitIdle
  | parallelFor (start stop : ℕ) (fn : ℕ → Option ExceptionPtr) (grain : ℕ)

/-- The call an idle client makes: its first step and where the client stands after it. -/
def PoolState.enter (s : PoolState) : Choice → Act × Control
  | .proceed => (.silent, .idle)
  | .submit invocations hint =>
    let task : Task := ⟨s.counted.length, none, invocations⟩
    (.count task, .counted task hint .returned)
  | .waitIdle => (.silent, .draining ⟨s.counted.length, none⟩)
  | .parallelFor start stop fn grain =>
    let call : ParallelCall := ⟨s.calls, start, stop, fn⟩
    if stop ≤ start then (.enterEmpty call, .idle)
    else
      let grain :=
        if grain = 0 then WorkStealingPool.adaptiveGrain (stop - start) s.pool.size else grain
      (.enter, .looping call start grain 0)

/-- Take a task that was found in a queue, or go on. -/
def takeOr (found : Option Task) (a : Act) (after : AfterTask) (otherwise : Control) :
    Act × Control :=
  match found with
  | some task => (a, .running task after)
  | none => (.silent, otherwise)

/-- The next step of thread `t`, and where the thread stands after it. -/
def PoolState.transition (s : PoolState) (t : ℕ) (choice : Choice) : Control → Act × Control
  | .idle => s.enter choice
  | .looping call first grain hint =>
    if first < call.stop then
      let task := call.chunk s.counted.length first grain
      (.count task, .counted task hint (.chunks call (addU64 first grain) grain (addU64 hint 1)))
    else (.silent, .draining ⟨s.counted.length, some call⟩)
  | .counted task hint after => (.submitted, .pushing task hint after)
  | .pushing task hint after => (.push (hint % s.pool.queues.length) task, after.control)
  | .draining wait =>
    (.silent, if s.pool.outstanding ≠ 0 then .popAny wait 0 else .rethrowing wait)
  | .popAny wait i =>
    if i < s.pool.queues.length then
      takeOr (s.pool.queue i).head? (.popFront i) (.drain wait) (.popAny wait (i + 1))
    else (.silent, .waiting wait)
  | .waiting wait => (.silent, .draining wait)
  | .rethrowing wait => (.rethrow wait, .idle)
  | .running task after =>
    (.run task, match task.outcome with
      | some error => .recording task error after
      | none => .executing task after)
  | .recording task error after => (.record task error, .executing task after)
  | .executing task after => (.executed, .retiring task after)
  | .retiring task after => (.retire task, after.control)
  | .testing => (.silent, .popLocal)
  | .popLocal => takeOr (s.pool.queue t).getLast? (.popBack t) .worker (.stealing true 1)
  | .stealing same offset =>
    if offset < s.pool.queues.length then
      let victim := (t + offset) % s.pool.queues.length
      if (s.pool.queueGroup victim == s.pool.queueGroup t) != same then
        (.silent, .stealing same (offset + 1))
      else (.attempt, .tryingSteal same offset)
    else (.silent, if same then .stealing false 1 else .sleeping)
  | .tryingSteal same offset =>
    let victim := (t + offset) % s.pool.queues.length
    takeOr (s.pool.queue victim).head? (.steal victim same) .worker (.stealing same (offset + 1))
  | .sleeping => (.silent, .testing)

/-- The state after thread `t` has taken a step and stands at `control`. -/
def PoolState.advance (s : PoolState) (t : ℕ) (a : Act) (control : Control) : PoolState :=
  { s.act a with threads := s.threads.set t control }

/-- One step of thread `t`; there is none when the thread does not exist. -/
def PoolState.step (s : PoolState) (t : ℕ) (choice : Choice) : Option PoolState :=
  s.threads[t]?.map fun control =>
    let next := s.transition t choice control
    s.advance t next.1 next.2

/-- The states an interleaving can reach when every step of it is one that `ok` allows. -/
inductive Run (ok : PoolState → ℕ → Choice → Prop) (s₀ : PoolState) : PoolState → Prop
  | refl : Run ok s₀ s₀
  | step {s s' : PoolState} {t : ℕ} {choice : Choice} :
      Run ok s₀ s → ok s t choice → s.step t choice = some s' → Run ok s₀ s'

/-- The states any interleaving can reach. -/
abbrev Reachable (s₀ s : PoolState) : Prop := Run (fun _ _ _ => True) s₀ s

end VeloGraphX
