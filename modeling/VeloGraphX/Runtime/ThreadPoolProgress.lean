import Mathlib
import VeloGraphX.Lib.Interleaving
import VeloGraphX.Runtime.ThreadPoolAccounting

/-!
# The thread pool always gets done

No fairness is assumed: as long as no client makes another call and nobody is woken without a
notification, every step that any thread can take uses up part of a finite amount. `load` counts
the steps that push, take or complete closures, or stop the pool; `light` counts what can happen
between two of them. Where no thread can take a step, nothing is left to do.
-/

namespace VeloGraphX

namespace ThreadPool

mutual

/-- The steps that a closure in the queue will still take, with those of all it submits. -/
def Fn.load : Fn → ℕ
  | .mk _ submits => Fn.loads submits + 3

/-- The steps of closures that are still to be submitted. -/
def Fn.loads : List Fn → ℕ
  | [] => 0
  | fn :: rest => fn.load + 1 + Fn.loads rest

end

/-- The steps that the closure in a worker's hands will still take. -/
def Worker.load : Worker → ℕ
  | .running _ rest | .notifying _ rest => Fn.loads rest + 2
  | .finishing => 1
  | _ => 0

/-- The steps by which a destructor will still change the pool. -/
def Client.load : Client → ℕ
  | .stopping => 2
  | .notifyingAll => 1
  | _ => 0

/-- The steps that will still change the queue, `active_` or `stop_`. -/
def System.load (s : System) : ℕ :=
  (s.pool.tasks.map Fn.load).sum + (s.workers.map Worker.load).sum + (s.clients.map Client.load).sum

/-- The steps a worker can take before it next changes the pool. -/
def Worker.light : Worker → ℕ
  | .testing => 1
  | .notifying _ _ => 2
  | _ => 0

/-- The steps a client can take before it next changes the pool. -/
def Client.light (size : ℕ) : Client → ℕ
  | .notifying => 2
  | .waiting => 1
  | .joining i => size - i + 1
  | _ => 0

/-- The steps that threads can take before one next changes the pool. -/
def System.light (s : System) : ℕ :=
  (s.workers.map Worker.light).sum + (s.clients.map (Client.light s.workers.length)).sum

/-- What a step can add to `light`, and one more. -/
def System.scale (s : System) : ℕ := 2 * s.workers.length + s.clients.length + 3

/-- How many steps are left. -/
def System.remaining (s : System) : ℕ := s.scale * s.load + s.light

/-- A step changes the pool, or does one of the things that can happen in between. -/
def System.Lighter (s s' : System) : Prop :=
  s'.scale = s.scale ∧
    ((s'.load < s.load ∧ s'.light < s.light + s.scale) ∨ (s'.load = s.load ∧ s'.light < s.light))

/-- Such a step leaves fewer steps. -/
theorem System.Lighter.remaining {s s' : System} (h : s.Lighter s') :
    s'.remaining < s.remaining := by
  obtain ⟨hscale, ⟨hload, hlight⟩ | ⟨hload, hlight⟩⟩ := h
  · have hmul := Nat.mul_le_mul_left s.scale hload
    simp only [System.remaining, hscale]
    calc s.scale * s'.load + s'.light
        < s.scale * s'.load + (s.light + s.scale) := by omega
      _ = s.scale * (s'.load + 1) + s.light := by rw [Nat.mul_succ]; omega
      _ ≤ s.scale * s.load + s.light := Nat.add_le_add_right hmul _
  · simp only [System.remaining, hscale, hload]
    omega

/-- The totals of the workers when one of them goes on. -/
theorem worker_totals {workers : List Worker} {i : ℕ} {w : Worker} (h : workers[i]? = some w) :
    ∃ load light, (workers.map Worker.load).sum = load + w.load ∧
      (workers.map Worker.light).sum = light + w.light ∧
      ∀ w', ((workers.set i w').map Worker.load).sum = load + w'.load ∧
        ((workers.set i w').map Worker.light).sum = light + w'.light := by
  obtain ⟨load, hload, hload'⟩ := PointUpdate.sum_map_split h Worker.load
  obtain ⟨light, hlight, hlight'⟩ := PointUpdate.sum_map_split h Worker.light
  exact ⟨load, light, hload, hlight, fun w' => ⟨hload' w', hlight' w'⟩⟩

/-- The totals of the clients when one of them goes on. -/
theorem client_totals {clients : List Client} {c : ℕ} {k : Client} (size : ℕ)
    (h : clients[c]? = some k) :
    ∃ load light, (clients.map Client.load).sum = load + k.load ∧
      (clients.map (Client.light size)).sum = light + k.light size ∧
      ∀ k', ((clients.set c k').map Client.load).sum = load + k'.load ∧
        ((clients.set c k').map (Client.light size)).sum = light + k'.light size := by
  obtain ⟨load, hload, hload'⟩ := PointUpdate.sum_map_split h Client.load
  obtain ⟨light, hlight, hlight'⟩ := PointUpdate.sum_map_split h (Client.light size)
  exact ⟨load, light, hload, hlight, fun k' => ⟨hload' k', hlight' k'⟩⟩

/-- Waking a worker puts at most one step back. -/
theorem Worker.light_wake (w : Worker) : w.wake.light ≤ w.light + 1 ∧ w.wake.load = w.load := by
  cases w with
  | asleep => exact ⟨le_rfl, rfl⟩
  | _ => exact ⟨Nat.le_succ _, rfl⟩

/-- Waking a client puts at most one step back. -/
theorem Client.light_wake (size : ℕ) (k : Client) :
    k.wake.light size ≤ k.light size + 1 ∧ k.wake.load = k.load := by
  cases k with
  | asleep => exact ⟨le_rfl, rfl⟩
  | _ => exact ⟨Nat.le_succ _, rfl⟩

/-- Waking all workers puts at most one step back into each. -/
theorem light_wake_workers (workers : List Worker) :
    ((workers.map Worker.wake).map Worker.light).sum ≤
        (workers.map Worker.light).sum + workers.length ∧
      ((workers.map Worker.wake).map Worker.load).sum = (workers.map Worker.load).sum := by
  induction workers with
  | nil => exact ⟨le_rfl, rfl⟩
  | cons w others ih =>
    obtain ⟨hlight, hload⟩ := w.light_wake
    simp only [List.map_cons, List.sum_cons, List.length_cons, hload, ih.2, and_true]
    omega

/-- Waking all clients puts at most one step back into each. -/
theorem light_wake_clients (size : ℕ) (clients : List Client) :
    ((clients.map Client.wake).map (Client.light size)).sum ≤
        (clients.map (Client.light size)).sum + clients.length ∧
      ((clients.map Client.wake).map Client.load).sum = (clients.map Client.load).sum := by
  induction clients with
  | nil => exact ⟨le_rfl, rfl⟩
  | cons k others ih =>
    obtain ⟨hlight, hload⟩ := k.light_wake size
    simp only [List.map_cons, List.sum_cons, List.length_cons, hload, ih.2, and_true]
    omega

/-- The steps of a closure in the queue are those of what it submits, and three. -/
theorem Fn.load_eq (fn : Fn) : fn.load = Fn.loads fn.submits + 3 := by
  cases fn
  rw [Fn.load, Fn.submits]

/-- A push adds the steps of the closure. -/
theorem load_push (tasks : List Fn) (fn : Fn) :
    ((tasks ++ [fn]).map Fn.load).sum = (tasks.map Fn.load).sum + fn.load := by
  rw [List.map_append, List.sum_append, List.map_singleton, List.sum_singleton]

/-- A notification puts at most one step back. -/
theorem System.light_notifyOne {s : System} {woken : Option ℕ} (hw : s.CanWake woken) :
    (s.notifyOne woken).scale = s.scale ∧ (s.notifyOne woken).load = s.load ∧
      (s.notifyOne woken).light ≤ s.light + 1 := by
  cases woken with
  | none => exact ⟨rfl, rfl, Nat.le_succ _⟩
  | some j =>
    obtain ⟨load, light, hload, hlight, hnew⟩ := worker_totals hw
    refine ⟨by simp only [scale, notifyOne, setWorker, List.length_set], ?_, ?_⟩
    · simp only [System.load, notifyOne, setWorker, hload, hnew, Worker.load]
    · simp only [System.light, notifyOne, setWorker, hlight, hnew, List.length_set, Worker.light]
      omega

/-- Every step leaves fewer steps. -/
theorem System.Step.lighter {s s' : System} (h : s.Step s') : s.Lighter s' := by
  cases h with
  | @fetch i h =>
    obtain ⟨load, light, hload, hlight, hnew⟩ := worker_totals h
    unfold System.fetch
    split
    · refine ⟨by simp only [scale, setWorker, List.length_set], .inr ?_⟩
      simp only [System.load, System.light, setWorker, hload, hlight, hnew, List.length_set]
      cases s.pool.stop <;> simp only [Worker.load, Worker.light] <;> constructor <;> grind
    · rename_i fn rest htasks
      have hfn := fn.load_eq
      refine ⟨by simp only [scale, setWorker, List.length_set], .inl ?_⟩
      simp only [System.load, System.light, scale, setWorker, hload, hlight, hnew, htasks,
        List.length_set, List.map_cons, List.sum_cons, Worker.load, Worker.light]
      omega
  | @submit i fn next rest h =>
    obtain ⟨load, light, hload, hlight, hnew⟩ := worker_totals h
    refine ⟨by simp only [scale, setWorker, push, List.length_set], .inl ?_⟩
    simp only [System.load, System.light, scale, setWorker, push, hload, hlight, hnew, load_push,
      List.length_set, Worker.load, Worker.light, Fn.loads]
    omega
  | @notify i fn rest woken h hw =>
    obtain ⟨hscale, hsame, hlighter⟩ := light_notifyOne hw
    have hawake : Worker.notifying fn rest ≠ .asleep := by simp
    obtain ⟨load, light, hload, hlight, hnew⟩ := worker_totals (getElem?_notifyOne hw h hawake)
    refine ⟨by simpa only [scale, setWorker, List.length_set] using hscale, .inr ⟨?_, ?_⟩⟩
    · rw [← hsame]
      simp only [System.load, setWorker, hload, hnew, Worker.load]
    · have hstep : ((s.notifyOne woken).setWorker i (.running fn rest)).light + 2 =
          (s.notifyOne woken).light := by
        simp only [System.light, setWorker, hlight, hnew, List.length_set, Worker.light]
        omega
      omega
  | returnFrom h =>
    obtain ⟨load, light, hload, hlight, hnew⟩ := worker_totals h
    refine ⟨by simp only [scale, setWorker, System.returnFrom, List.length_set], .inl ?_⟩
    simp only [System.load, System.light, scale, setWorker, System.returnFrom, hload, hlight, hnew,
      List.length_set, Worker.load, Worker.light, Fn.loads]
    omega
  | complete h =>
    obtain ⟨load, light, hload, hlight, hnew⟩ := worker_totals h
    obtain ⟨hclight, hcload⟩ := light_wake_clients s.workers.length s.clients
    unfold System.complete
    refine ⟨?_, .inl ?_⟩
    · simp only [scale, setWorker, List.length_set]
      split <;> simp only [List.length_map]
    · simp only [System.load, System.light, scale, setWorker, hload, hlight, hnew,
        List.length_set, Worker.load, Worker.light]
      split <;> omega
  | @clientNotify c woken h hw =>
    obtain ⟨hscale, hsame, hlighter⟩ := light_notifyOne hw
    have hclients : (s.notifyOne woken).clients = s.clients := by cases woken <;> rfl
    obtain ⟨load, light, hload, hlight, hnew⟩ :=
      client_totals (s.notifyOne woken).workers.length (hclients ▸ h)
    refine ⟨by simpa only [scale, setClient, List.length_set] using hscale, .inr ⟨?_, ?_⟩⟩
    · rw [← hsame]
      simp only [System.load, setClient, hload, hnew, Client.load]
    · have hstep : ((s.notifyOne woken).setClient c .idle).light + 2 =
          (s.notifyOne woken).light := by
        simp only [System.light, setClient, hlight, hnew, Client.light]
        omega
      omega
  | waitIdle h =>
    obtain ⟨load, light, hload, hlight, hnew⟩ := client_totals s.workers.length h
    refine ⟨by simp only [scale, setClient, List.length_set], .inr ?_⟩
    simp only [System.load, System.light, setClient, hload, hlight, hnew]
    cases s.pool.isIdle <;> simp only [Client.load, Client.light] <;> constructor <;> grind
  | stop h =>
    obtain ⟨load, light, hload, hlight, hnew⟩ := client_totals s.workers.length h
    refine ⟨by simp only [scale, setClient, setStop, List.length_set], .inl ?_⟩
    simp only [System.load, System.light, scale, setClient, setStop, hload, hlight, hnew,
      Client.load, Client.light]
    omega
  | notifyAll h =>
    obtain ⟨load, light, hload, hlight, hnew⟩ := client_totals s.workers.length h
    obtain ⟨hwlight, hwload⟩ := light_wake_workers s.workers
    refine ⟨by simp only [scale, setClient, System.notifyAll, List.length_set, List.length_map], .inl ?_⟩
    simp only [System.load, System.light, scale, setClient, System.notifyAll, List.length_map, hload,
      hlight, hnew, hwload, Client.load, Client.light]
    omega
  | join h hi =>
    obtain ⟨load, light, hload, hlight, hnew⟩ := client_totals s.workers.length h
    have hlt := (List.getElem?_eq_some_iff.mp hi).1
    refine ⟨by simp only [scale, setClient, List.length_set], .inr ?_⟩
    simp only [System.load, System.light, setClient, hload, hlight, hnew, Client.load,
      Client.light, true_and]
    omega
  | destroyed h hi =>
    obtain ⟨load, light, hload, hlight, hnew⟩ := client_totals s.workers.length h
    refine ⟨by simp only [scale, setClient, List.length_set], .inr ?_⟩
    simp only [System.load, System.light, setClient, hload, hlight, hnew, Client.load,
      Client.light, true_and]
    omega

/-- No thread can take a step. -/
def System.Stuck (s : System) : Prop := ∀ s', ¬ s.Step s'

/-- `cv_.notify_one()` can always return. -/
theorem System.exists_canWake (s : System) : ∃ woken, s.CanWake woken := by
  by_cases hasleep : ∃ w ∈ s.workers, w = .asleep
  · obtain ⟨w, hw, rfl⟩ := hasleep
    obtain ⟨j, hj⟩ := List.getElem?_of_mem hw
    exact ⟨some j, hj⟩
  · exact ⟨none, fun w hw heq => hasleep ⟨w, hw, heq⟩⟩

/-- A worker that cannot take a step is asleep, or has returned. -/
theorem System.Stuck.worker {s : System} (hs : s.Stuck) {w : Worker} (hw : w ∈ s.workers) :
    w = .asleep ∨ w = .exited := by
  obtain ⟨i, hi⟩ := List.getElem?_of_mem hw
  cases w with
  | testing => exact absurd (.fetch hi) (hs _)
  | asleep => exact .inl rfl
  | running fn rest =>
    cases rest with
    | nil => exact absurd (.returnFrom hi) (hs _)
    | cons next rest => exact absurd (.submit hi) (hs _)
  | notifying fn rest =>
    obtain ⟨woken, hwoken⟩ := s.exists_canWake
    exact absurd (.notify hi hwoken) (hs _)
  | finishing => exact absurd (.complete hi) (hs _)
  | exited => exact .inr rfl

/-- A client that cannot take a step is outside, asleep, past the destructor, or about to join a
worker that has not returned. -/
theorem System.Stuck.client {s : System} (hs : s.Stuck) {k : Client} (hk : k ∈ s.clients) :
    k = .idle ∨ k = .asleep ∨ k = .destroyed ∨
      ∃ i w, k = .joining i ∧ s.workers[i]? = some w ∧ w ≠ .exited := by
  obtain ⟨c, hc⟩ := List.getElem?_of_mem hk
  cases k with
  | idle => exact .inl rfl
  | notifying =>
    obtain ⟨woken, hwoken⟩ := s.exists_canWake
    exact absurd (.clientNotify hc hwoken) (hs _)
  | waiting => exact absurd (.waitIdle hc) (hs _)
  | asleep => exact .inr (.inl rfl)
  | stopping => exact absurd (.stop hc) (hs _)
  | notifyingAll => exact absurd (.notifyAll hc) (hs _)
  | joining i =>
    refine .inr (.inr (.inr ?_))
    cases hi : s.workers[i]? with
    | none => exact absurd (.destroyed hc (List.getElem?_eq_none_iff.mp hi)) (hs _)
    | some w =>
      refine ⟨i, w, rfl, hi, ?_⟩
      rintro rfl
      exact absurd (.join hc hi) (hs _)
  | destroyed => exact .inr (.inr (.inl rfl))

/-- Workers that are asleep or gone are neither busy nor about to look at the queue. -/
theorem workerTally_resting {workers : List Worker}
    (h : ∀ w ∈ workers, w = .asleep ∨ w = .exited) :
    (workerTally workers).busy = 0 ∧ (workerTally workers).stirring = 0 := by
  induction workers with
  | nil => exact ⟨rfl, rfl⟩
  | cons w others ih =>
    have hrest := ih fun v hv => h v (List.mem_cons_of_mem _ hv)
    rcases h w List.mem_cons_self with rfl | rfl
    · exact hrest
    · exact hrest

/-- Clients that cannot take a step are not about to wake a worker. -/
theorem System.Stuck.clientTally {s : System} (hs : s.Stuck) {clients : List Client}
    (h : clients ⊆ s.clients) :
    (ThreadPool.clientTally clients).stirring = 0 ∧
      (ThreadPool.clientTally clients).announcing = 0 := by
  induction clients with
  | nil => exact ⟨rfl, rfl⟩
  | cons k others ih =>
    obtain ⟨hk, hothers⟩ := List.cons_subset.mp h
    have hrest := ih hothers
    rcases hs.client hk with rfl | rfl | rfl | ⟨i, w, rfl, -⟩
    · exact hrest
    · exact hrest
    · exact hrest
    · exact hrest

/-- In a stuck state no worker sleeps through a closure in the queue. -/
theorem System.Sound.stuck_idle {s : System} (hs : s.Sound) (hstuck : s.Stuck) :
    s.pool.tasks.length = 0 ∧ s.pool.active = 0 := by
  obtain ⟨hbusy, hstirring⟩ := workerTally_resting fun w hw => hstuck.worker hw
  have hclients := hstuck.clientTally (List.Subset.refl s.clients)
  refine ⟨?_, hs.balance.counted.trans hbusy⟩
  rcases hs.balance.woken with hsleeping | hqueued
  · have hexited : ∀ w ∈ s.workers, w = .exited := fun w hw => by
      refine (hstuck.worker hw).resolve_left ?_
      rintro rfl
      obtain ⟨i, hi⟩ := List.getElem?_of_mem hw
      obtain ⟨rest, hold, -⟩ := workerTally_split hi
      rw [hold] at hsleeping
      exact absurd hsleeping (Nat.succ_ne_zero _)
    exact hs.balance.emptied (by rw [workerTally_exited hexited])
  · omega

/-- In a stuck state every call has returned. -/
theorem System.Sound.stuck_client {s : System} (hs : s.Sound) (hstuck : s.Stuck) {k : Client}
    (hk : k ∈ s.clients) : k = .idle ∨ k = .destroyed := by
  obtain ⟨hqueued, hactive⟩ := hs.stuck_idle hstuck
  have hclients := hstuck.clientTally (List.Subset.refl s.clients)
  obtain ⟨c, hc⟩ := List.getElem?_of_mem hk
  obtain ⟨rest, hold, -⟩ := clientTally_split hc
  rcases hstuck.client hk with rfl | rfl | rfl | ⟨i, w, rfl, hi, hw⟩
  · exact .inl rfl
  · have hwaits := hs.balance.waits
    rw [hold] at hwaits
    simp only [ClientTally.add] at hwaits
    omega
  · exact .inr rfl
  · -- a worker that the destructor waits for is asleep, but `notify_all` has been made
    have hasleep := (hstuck.worker (List.mem_of_getElem? hi)).resolve_right hw
    subst hasleep
    obtain ⟨wrest, hwold, -⟩ := workerTally_split hi
    have hstop : s.pool.stop = true := by
      refine hs.balance.stopped.mpr ?_
      rw [hold]
      exact Nat.succ_pos _
    have hannounced := hs.balance.announced hstop
    rw [hwold] at hannounced
    simp only [WorkerTally.add] at hannounced
    omega

/-- From any state that an interleaving can reach, and under any scheduler, the threads take only
so many steps unless a client makes another call or a thread wakes up by itself; and where none
can take one, the queue is empty, every closure pushed has returned, and so has every call of
`submit`, of `wait_idle` and of the destructor. -/
theorem System.drains (threads clients : ℕ) (s : System)
    (h : Reachable (make threads clients) s) :
    (∀ run, (s :: run).IsChain Step → run.length ≤ s.remaining) ∧
      ∀ s', Relation.ReflTransGen Step s s' → s'.Stuck →
        s'.pool.tasks = [] ∧ s'.finished.Perm s'.submitted ∧
          ∀ k ∈ s'.clients, k = .idle ∨ k = .destroyed := by
  have hs := Sound.run h (.make threads clients)
  refine ⟨fun run hrun => ?_, fun s' hrun hstuck => ?_⟩
  · exact Interleaving.length_le_measure (I := System.Sound) (fun _ _ hs hstep => hs.step hstep)
      (fun _ _ _ hstep => hstep.lighter.remaining) hs hrun
  · have hs' := Interleaving.run_keeps (I := System.Sound) (fun _ _ hs hstep => hs.step hstep)
      hrun hs
    obtain ⟨hqueued, hactive⟩ := hs'.stuck_idle hstuck
    refine ⟨List.length_eq_zero_iff.mp hqueued, ?_, fun k hk => hs'.stuck_client hstuck hk⟩
    exact hs'.finished_of_isIdle ((isIdle_iff _).mpr (by omega))

/-- A pool in which a client waits takes at most so many steps more. -/
theorem System.drains_waiting :
    ∃ s : System, s.clients = [.waiting] ∧ s.remaining = 2 ∧
      (∀ run, (s :: run).IsChain Step → run.length ≤ s.remaining) := by
  obtain ⟨s, hs, hclients, hworkers, hpool, -⟩ := reachable_waiting
  refine ⟨s, hclients, ?_, (drains 1 1 s hs).1⟩
  simp only [remaining, scale, System.load, System.light, hclients, hworkers, hpool]
  rfl

end ThreadPool

end VeloGraphX
