import Mathlib

/-!
# The thread pool with condition variables

`runtime/thread_pool.hpp` as a step relation. Every section under `mu_` is one step of one thread,
and so is every notification made outside of one. A thread that waits on a condition variable and
finds its predicate false gives up the mutex and falls asleep in that same step; once it is woken
it tests the predicate again, in a section of its own.

`System` adds to the pool where each thread stands in the code, and a history that no thread
reads: the closures pushed, taken and returned from so far.
-/

namespace VeloGraphX

/-- A `std::function<void()>`: the closures it submits to the pool, in order, before it returns. -/
inductive ThreadPool.Fn
  | mk (id : ℕ) (submits : List ThreadPool.Fn)

/-- The fields that `mu_` protects. -/
structure ThreadPool where
  tasks : List ThreadPool.Fn := []
  stop : Bool := false
  active : ℕ := 0

namespace ThreadPool

/-- The closures that `fn()` submits. -/
def Fn.submits : Fn → List Fn
  | .mk _ submits => submits

/-- Where a thread stands in `worker()`. -/
inductive Worker
  /-- Before the section that tests `stop_||!tasks_.empty()`. -/
  | testing
  /-- In `cv_.wait`, asleep. -/
  | asleep
  /-- In `fn()`, with what it has still to submit. -/
  | running (fn : Fn) (rest : List Fn)
  /-- In a `submit` that `fn()` makes, before `cv_.notify_one()`. -/
  | notifying (fn : Fn) (rest : List Fn)
  /-- Before the section that decrements `active_`. -/
  | finishing
  /-- After `return`. -/
  | exited

/-- Where a thread outside the pool stands. -/
inductive Client
  /-- Outside every call. -/
  | idle
  /-- In `submit`, before `cv_.notify_one()`. -/
  | notifying
  /-- In `wait_idle`, before the section that tests `tasks_.empty() && active_==0`. -/
  | waiting
  /-- In `idle_cv_.wait`, asleep. -/
  | asleep
  /-- In `~ThreadPool`, before the section that sets `stop_`. -/
  | stopping
  /-- In `~ThreadPool`, before `cv_.notify_all()`. -/
  | notifyingAll
  /-- In `~ThreadPool`, before it joins worker `i`. -/
  | joining (i : ℕ)
  /-- After `~ThreadPool`. -/
  | destroyed

/-- A worker that is asleep is woken. -/
def Worker.wake : Worker → Worker
  | .asleep => .testing
  | w => w

/-- A client that is asleep is woken. -/
def Client.wake : Client → Client
  | .asleep => .waiting
  | k => k

/-- The client is in `~ThreadPool`, or past it. -/
def Client.closing : Client → Bool
  | .stopping | .notifyingAll | .joining _ | .destroyed => true
  | _ => false

/-- The predicate of `idle_cv_.wait`. -/
def isIdle (p : ThreadPool) : Bool := p.tasks.isEmpty && p.active == 0

/-- The pool, its threads, the threads that use it, and the history of the run. -/
structure System where
  pool : ThreadPool := {}
  workers : List Worker
  clients : List Client
  /-- The closures pushed so far, in order. -/
  submitted : List Fn := []
  /-- The closures taken from the queue so far, in order. -/
  started : List Fn := []
  /-- The closures that have returned so far, in order. -/
  finished : List Fn := []

namespace System

/-- The constructor. A worker that its loop has not created yet has not taken a step. -/
def make (threads clients : ℕ) : System where
  workers := List.replicate (if threads = 0 then 1 else threads) .testing
  clients := List.replicate clients .idle

/-- Worker `i` goes on to `w`. -/
def setWorker (s : System) (i : ℕ) (w : Worker) : System :=
  { s with workers := s.workers.set i w }

/-- Client `c` goes on to `k`. -/
def setClient (s : System) (c : ℕ) (k : Client) : System :=
  { s with clients := s.clients.set c k }

/-- The section of `submit`. -/
def push (s : System) (fn : Fn) : System :=
  { s with
    pool := { s.pool with tasks := s.pool.tasks ++ [fn] }
    submitted := s.submitted ++ [fn] }

/-- The first section of `worker()`. -/
def fetch (s : System) (i : ℕ) : System :=
  match s.pool.tasks with
  | [] => s.setWorker i (if s.pool.stop then .exited else .asleep)
  | fn :: rest =>
    { s.setWorker i (.running fn fn.submits) with
      pool := { s.pool with tasks := rest, active := s.pool.active + 1 }
      started := s.started ++ [fn] }

/-- `fn()` returns. -/
def returnFrom (s : System) (i : ℕ) (fn : Fn) : System :=
  { s.setWorker i .finishing with finished := s.finished ++ [fn] }

/-- The second section of `worker()`, with its `idle_cv_.notify_all()`. -/
def complete (s : System) (i : ℕ) : System :=
  let pool := { s.pool with active := s.pool.active - 1 }
  { s.setWorker i .testing with
    pool := pool
    clients := if pool.isIdle then s.clients.map Client.wake else s.clients }

/-- `cv_.notify_one()` can wake worker `j`, or nobody when nobody is asleep. -/
def CanWake (s : System) : Option ℕ → Prop
  | some j => s.workers[j]? = some .asleep
  | none => ∀ w ∈ s.workers, w ≠ .asleep

/-- `cv_.notify_one()`. -/
def notifyOne (s : System) : Option ℕ → System
  | some j => s.setWorker j .testing
  | none => s

/-- `cv_.notify_all()`. -/
def notifyAll (s : System) : System := { s with workers := s.workers.map Worker.wake }

/-- The section of `~ThreadPool`. -/
def setStop (s : System) : System := { s with pool := { s.pool with stop := true } }

/-- One step of a thread inside the code of the pool, or inside a closure it runs. -/
inductive Step : System → System → Prop
  | fetch {s : System} {i : ℕ} (h : s.workers[i]? = some .testing) : Step s (s.fetch i)
  | submit {s : System} {i : ℕ} {fn next : Fn} {rest : List Fn}
      (h : s.workers[i]? = some (.running fn (next :: rest))) :
      Step s ((s.push next).setWorker i (.notifying fn rest))
  | notify {s : System} {i : ℕ} {fn : Fn} {rest : List Fn} {woken : Option ℕ}
      (h : s.workers[i]? = some (.notifying fn rest)) (hw : s.CanWake woken) :
      Step s ((s.notifyOne woken).setWorker i (.running fn rest))
  | returnFrom {s : System} {i : ℕ} {fn : Fn} (h : s.workers[i]? = some (.running fn [])) :
      Step s (s.returnFrom i fn)
  | complete {s : System} {i : ℕ} (h : s.workers[i]? = some .finishing) : Step s (s.complete i)
  | clientNotify {s : System} {c : ℕ} {woken : Option ℕ}
      (h : s.clients[c]? = some .notifying) (hw : s.CanWake woken) :
      Step s ((s.notifyOne woken).setClient c .idle)
  | waitIdle {s : System} {c : ℕ} (h : s.clients[c]? = some .waiting) :
      Step s (s.setClient c (if s.pool.isIdle then .idle else .asleep))
  | stop {s : System} {c : ℕ} (h : s.clients[c]? = some .stopping) :
      Step s (s.setStop.setClient c .notifyingAll)
  | notifyAll {s : System} {c : ℕ} (h : s.clients[c]? = some .notifyingAll) :
      Step s (s.notifyAll.setClient c (.joining 0))
  | join {s : System} {c i : ℕ} (h : s.clients[c]? = some (.joining i))
      (hi : s.workers[i]? = some .exited) : Step s (s.setClient c (.joining (i + 1)))
  | destroyed {s : System} {c i : ℕ} (h : s.clients[c]? = some (.joining i))
      (hi : s.workers.length ≤ i) : Step s (s.setClient c .destroyed)

/-- No thread has entered `~ThreadPool`. -/
def Alive (s : System) : Prop := ∀ k ∈ s.clients, k.closing = false

/-- What the pool does not decide: the calls of its clients, and the wake-ups that no
notification caused. Nothing calls a pool whose destructor has been entered, and the destructor
is entered when every call has returned. -/
inductive Call : System → System → Prop
  | submit {s : System} {c : ℕ} (fn : Fn) (h : s.clients[c]? = some .idle) (alive : s.Alive) :
      Call s ((s.push fn).setClient c .notifying)
  | waitIdle {s : System} {c : ℕ} (h : s.clients[c]? = some .idle) (alive : s.Alive) :
      Call s (s.setClient c .waiting)
  | destroy {s : System} {c : ℕ} (h : s.clients[c]? = some .idle)
      (alone : ∀ k ∈ s.clients, k = .idle) : Call s (s.setClient c .stopping)
  | spuriousWorker {s : System} {i : ℕ} (h : s.workers[i]? = some .asleep) :
      Call s (s.setWorker i .testing)
  | spuriousClient {s : System} {c : ℕ} (h : s.clients[c]? = some .asleep) :
      Call s (s.setClient c .waiting)

/-- The states that any interleaving can reach. -/
def Reachable (s₀ s : System) : Prop :=
  Relation.ReflTransGen (fun s s' => s.Step s' ∨ s.Call s') s₀ s

end System
end ThreadPool
end VeloGraphX
