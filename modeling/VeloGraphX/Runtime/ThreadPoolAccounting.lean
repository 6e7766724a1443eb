import Mathlib
import VeloGraphX.Lib.PointUpdate
import VeloGraphX.Lib.Interleaving
import VeloGraphX.Runtime.ThreadPool

/-!
# What the thread pool keeps true

Two invariants carry everything. `Accounts` follows the closures: what was taken from the queue
and what is still in it are, in order, what was pushed, and what was taken has returned or is in
the hands of one worker. `Balance` is about numbers only: how many workers are asleep, busy,
about to look at the queue or about to wake a worker that will, and the same for the clients. Its
line `woken` is why no wake-up is lost: while a worker sleeps, there are at least as many threads
about to look at the queue, or to wake one that will, as there are closures in it.
-/

namespace VeloGraphX

namespace ThreadPool

/-- The closure a worker has taken and not returned from. -/
def Worker.holds : Worker → List Fn
  | .running fn _ | .notifying fn _ => [fn]
  | _ => []

/-- How many of some workers are counted by `active_`, asleep, about to look at the queue or to
wake a worker, and not gone. -/
structure WorkerTally where
  busy : ℕ
  sleeping : ℕ
  stirring : ℕ
  living : ℕ

/-- One more worker. -/
def WorkerTally.add (t : WorkerTally) : Worker → WorkerTally
  | .testing => { t with stirring := t.stirring + 1, living := t.living + 1 }
  | .asleep => { t with sleeping := t.sleeping + 1, living := t.living + 1 }
  | .running _ _ | .finishing => { t with busy := t.busy + 1, living := t.living + 1 }
  | .notifying _ _ =>
    { t with busy := t.busy + 1, stirring := t.stirring + 1, living := t.living + 1 }
  | .exited => t

/-- How many of some clients are asleep, about to wake a worker, past the section that sets
`stop_`, and about to wake all workers. -/
structure ClientTally where
  sleeping : ℕ
  stirring : ℕ
  stopping : ℕ
  announcing : ℕ

/-- One more client. -/
def ClientTally.add (t : ClientTally) : Client → ClientTally
  | .idle | .waiting | .stopping => t
  | .notifying => { t with stirring := t.stirring + 1 }
  | .asleep => { t with sleeping := t.sleeping + 1 }
  | .notifyingAll => { t with stopping := t.stopping + 1, announcing := t.announcing + 1 }
  | .joining _ | .destroyed => { t with stopping := t.stopping + 1 }

/-- The tally of a list of workers. -/
def workerTally (workers : List Worker) : WorkerTally :=
  workers.foldr (fun w t => t.add w) ⟨0, 0, 0, 0⟩

/-- The tally of a list of clients. -/
def clientTally (clients : List Client) : ClientTally :=
  clients.foldr (fun k t => t.add k) ⟨0, 0, 0, 0⟩

/-- Workers are tallied in any order. -/
theorem WorkerTally.add_comm (t : WorkerTally) (v w : Worker) :
    (t.add v).add w = (t.add w).add v := by
  cases v <;> cases w <;> rfl

/-- Clients are tallied in any order. -/
theorem ClientTally.add_comm (t : ClientTally) (k l : Client) :
    (t.add k).add l = (t.add l).add k := by
  cases k <;> cases l <;> rfl

/-- One worker adds its own part to the tally, and any replacement adds its own. -/
theorem workerTally_split {workers : List Worker} {i : ℕ} {w : Worker}
    (h : workers[i]? = some w) :
    ∃ rest : WorkerTally, workerTally workers = rest.add w ∧
      ∀ w', workerTally (workers.set i w') = rest.add w' :=
  PointUpdate.foldr_split WorkerTally.add_comm _ h

/-- One client adds its own part to the tally, and any replacement adds its own. -/
theorem clientTally_split {clients : List Client} {c : ℕ} {k : Client}
    (h : clients[c]? = some k) :
    ∃ rest : ClientTally, clientTally clients = rest.add k ∧
      ∀ k', clientTally (clients.set c k') = rest.add k' :=
  PointUpdate.foldr_split ClientTally.add_comm _ h

/-- Nobody is asleep after all workers were woken, and those that were are about to look. -/
theorem workerTally_wake (workers : List Worker) :
    workerTally (workers.map Worker.wake) =
      { workerTally workers with
        sleeping := 0
        stirring := (workerTally workers).stirring + (workerTally workers).sleeping } := by
  induction workers with
  | nil => rfl
  | cons w others ih =>
    have hcons : workerTally ((w :: others).map Worker.wake) =
        (workerTally (others.map Worker.wake)).add w.wake := rfl
    have hold : workerTally (w :: others) = (workerTally others).add w := rfl
    rw [hcons, hold, ih]
    cases w <;> simp only [WorkerTally.add, Worker.wake] <;> congr 1 <;> omega

/-- No client is asleep after all clients were woken. -/
theorem clientTally_wake (clients : List Client) :
    clientTally (clients.map Client.wake) = { clientTally clients with sleeping := 0 } := by
  induction clients with
  | nil => rfl
  | cons k others ih =>
    have hcons : clientTally ((k :: others).map Client.wake) =
        (clientTally (others.map Client.wake)).add k.wake := rfl
    have hold : clientTally (k :: others) = (clientTally others).add k := rfl
    rw [hcons, hold, ih]
    cases k <;> rfl

/-- What the numbers of a pool of `size` workers with `queued` closures always satisfy. -/
structure PoolBalance (size queued active : ℕ) (stop : Bool) (w : WorkerTally) (c : ClientTally) :
    Prop where
  manned : 0 < size
  counted : active = w.busy
  woken : w.sleeping = 0 ∨ queued ≤ w.stirring + c.stirring
  waits : c.sleeping = 0 ∨ 0 < queued + active
  stopped : stop = true ↔ 0 < c.stopping
  announced : stop = true → w.sleeping = 0 ∨ 0 < c.announcing
  exited : stop = false → w.living = size
  emptied : w.living = 0 → queued = 0

/-- The numbers of the pool are balanced. -/
def System.Balance (s : System) : Prop :=
  PoolBalance s.workers.length s.pool.tasks.length s.pool.active s.pool.stop
    (workerTally s.workers) (clientTally s.clients)

section numbers

variable {size queued active : ℕ} {stop : Bool} {w : WorkerTally} {c : ClientTally}
  {fn next : Fn} {rest : List Fn}

/-- A worker that finds no closure falls asleep, or returns when the pool is being destroyed. -/
theorem PoolBalance.rests (h : PoolBalance size 0 active stop (w.add .testing) c) :
    PoolBalance size 0 active stop (w.add (if stop then .exited else .asleep)) c := by
  cases stop with
  | false =>
    exact ⟨h.manned, h.counted, .inr (Nat.zero_le _), h.waits, h.stopped, nofun, h.exited,
      fun _ => rfl⟩
  | true =>
    exact ⟨h.manned, h.counted, .inr (Nat.zero_le _), h.waits, h.stopped, h.announced, nofun,
      fun _ => rfl⟩

/-- A worker takes a closure. -/
theorem PoolBalance.takes (h : PoolBalance size (queued + 1) active stop (w.add .testing) c) :
    PoolBalance size queued (active + 1) stop (w.add (.running fn rest)) c := by
  refine ⟨h.manned, congrArg (· + 1) h.counted, ?_, .inr (by omega), h.stopped, h.announced,
    h.exited, fun h0 => absurd h0 (Nat.succ_ne_zero _)⟩
  have hwoken := h.woken
  simp only [WorkerTally.add] at hwoken ⊢
  omega

/-- A closure that runs submits another. -/
theorem PoolBalance.submits
    (h : PoolBalance size queued active stop (w.add (.running fn (next :: rest))) c) :
    PoolBalance size (queued + 1) active stop (w.add (.notifying fn rest)) c := by
  refine ⟨h.manned, h.counted, ?_, .inr (by omega), h.stopped, h.announced, h.exited,
    fun h0 => absurd h0 (Nat.succ_ne_zero _)⟩
  have hwoken := h.woken
  simp only [WorkerTally.add] at hwoken ⊢
  omega

/-- A worker that was asleep is woken. -/
theorem PoolBalance.wakes (h : PoolBalance size queued active stop (w.add .asleep) c) :
    PoolBalance size queued active stop (w.add .testing) c := by
  refine ⟨h.manned, h.counted, ?_, h.waits, h.stopped, fun hstop => ?_, h.exited, h.emptied⟩
  · have hwoken := h.woken
    simp only [WorkerTally.add] at hwoken ⊢
    omega
  · have hannounced := h.announced hstop
    simp only [WorkerTally.add] at hannounced ⊢
    omega

/-- The closure's notification reaches a worker that is asleep. -/
theorem PoolBalance.notifiesOne {v : WorkerTally}
    (h : PoolBalance size queued active stop (w.add .asleep) c)
    (hv : w.add .testing = v.add (.notifying fn rest)) :
    PoolBalance size queued active stop (v.add (.running fn rest)) c := by
  have hwoken := h.woken
  have hwakes := hv ▸ h.wakes
  have hstirring := congrArg WorkerTally.stirring hv
  refine ⟨h.manned, hwakes.counted, .inr ?_, h.waits, h.stopped, hwakes.announced, hwakes.exited,
    hwakes.emptied⟩
  simp only [WorkerTally.add] at hwoken hstirring ⊢
  omega

/-- The closure's notification finds nobody asleep. -/
theorem PoolBalance.notifiesNone
    (h : PoolBalance size queued active stop (w.add (.notifying fn rest)) c)
    (hw : w.sleeping = 0) : PoolBalance size queued active stop (w.add (.running fn rest)) c :=
  ⟨h.manned, h.counted, .inl hw, h.waits, h.stopped, h.announced, h.exited, h.emptied⟩

/-- A client's notification reaches a worker that is asleep. -/
theorem PoolBalance.clientNotifiesOne
    (h : PoolBalance size queued active stop (w.add .asleep) (c.add .notifying)) :
    PoolBalance size queued active stop (w.add .testing) (c.add .idle) := by
  have hwoken := h.woken
  refine ⟨h.manned, h.counted, .inr ?_, h.waits, h.stopped, h.wakes.announced, h.exited,
    h.emptied⟩
  simp only [WorkerTally.add, ClientTally.add] at hwoken ⊢
  omega

/-- A client's notification finds nobody asleep. -/
theorem PoolBalance.clientNotifiesNone
    (h : PoolBalance size queued active stop w (c.add .notifying)) (hw : w.sleeping = 0) :
    PoolBalance size queued active stop w (c.add .idle) :=
  ⟨h.manned, h.counted, .inl hw, h.waits, h.stopped, h.announced, h.exited, h.emptied⟩

/-- A closure returns. -/
theorem PoolBalance.returns (h : PoolBalance size queued active stop (w.add (.running fn [])) c) :
    PoolBalance size queued active stop (w.add .finishing) c :=
  ⟨h.manned, h.counted, h.woken, h.waits, h.stopped, h.announced, h.exited, h.emptied⟩

/-- A worker is done with a closure, and wakes whoever waits when it was the last. -/
theorem PoolBalance.completes (h : PoolBalance size queued active stop (w.add .finishing) c) :
    PoolBalance size queued (active - 1) stop (w.add .testing)
      (if queued + (active - 1) = 0 then { c with sleeping := 0 } else c) := by
  have hcounted := h.counted
  have hwoken := h.woken
  simp only [WorkerTally.add] at hcounted hwoken
  split
  · refine ⟨h.manned, ?_, .inr ?_, .inl rfl, h.stopped, h.announced, h.exited, h.emptied⟩
    · simp only [WorkerTally.add]
      omega
    · omega
  · refine ⟨h.manned, ?_, ?_, .inr (by omega), h.stopped, h.announced, h.exited, h.emptied⟩
    · simp only [WorkerTally.add]
      omega
    · simp only [WorkerTally.add]
      omega

/-- A client that tests `idle_cv_`'s predicate goes on, or falls asleep. -/
theorem PoolBalance.tests (h : PoolBalance size queued active stop w (c.add .waiting)) :
    PoolBalance size queued active stop w
      (c.add (if queued + active = 0 then .idle else .asleep)) := by
  split
  · exact ⟨h.manned, h.counted, h.woken, h.waits, h.stopped, h.announced, h.exited, h.emptied⟩
  · exact ⟨h.manned, h.counted, h.woken, .inr (by omega), h.stopped, h.announced, h.exited,
      h.emptied⟩

/-- The destructor sets `stop_`. -/
theorem PoolBalance.stops (h : PoolBalance size queued active stop w (c.add .stopping)) :
    PoolBalance size queued active true w (c.add .notifyingAll) :=
  ⟨h.manned, h.counted, h.woken, h.waits, ⟨fun _ => Nat.succ_pos _, fun _ => rfl⟩,
    fun _ => .inr (Nat.succ_pos _), nofun, h.emptied⟩

/-- The destructor wakes all workers. -/
theorem PoolBalance.wakesAll {i : ℕ}
    (h : PoolBalance size queued active stop w (c.add .notifyingAll)) :
    PoolBalance size queued active stop
      { w with sleeping := 0, stirring := w.stirring + w.sleeping } (c.add (.joining i)) :=
  ⟨h.manned, h.counted, .inl rfl, h.waits, h.stopped, fun _ => .inl rfl, h.exited, h.emptied⟩

/-- A client submits a closure to a pool that is not being destroyed. -/
theorem PoolBalance.clientSubmits (h : PoolBalance size queued active stop w (c.add .idle))
    (hc : c.stopping = 0) :
    PoolBalance size (queued + 1) active stop w (c.add .notifying) := by
  have hstop : stop = false := by
    refine Bool.eq_false_iff.mpr fun htrue => ?_
    exact absurd (h.stopped.mp htrue) (by simp only [ClientTally.add, hc]; omega)
  have hliving := h.exited hstop
  have hwoken := h.woken
  have hmanned := h.manned
  simp only [ClientTally.add] at hwoken
  refine ⟨h.manned, h.counted, ?_, .inr (by omega), h.stopped, h.announced, h.exited, ?_⟩
  · simp only [ClientTally.add]
    omega
  · omega

end numbers

/-- Nobody is asleep when no worker is. -/
theorem workerTally_sleeping {workers : List Worker} (h : ∀ w ∈ workers, w ≠ .asleep) :
    (workerTally workers).sleeping = 0 := by
  induction workers with
  | nil => rfl
  | cons w others ih =>
    have hold : workerTally (w :: others) = (workerTally others).add w := rfl
    have hrest := ih fun v hv => h v (List.mem_cons_of_mem _ hv)
    have hw := h w List.mem_cons_self
    rw [hold]
    cases w with
    | asleep => exact absurd rfl hw
    | _ => exact hrest

/-- Nobody is past the section that sets `stop_` while no thread has entered the destructor. -/
theorem clientTally_stopping {clients : List Client} (h : ∀ k ∈ clients, k.closing = false) :
    (clientTally clients).stopping = 0 := by
  induction clients with
  | nil => rfl
  | cons k others ih =>
    have hold : clientTally (k :: others) = (clientTally others).add k := rfl
    have hrest := ih fun l hl => h l (List.mem_cons_of_mem _ hl)
    have hk := h k List.mem_cons_self
    rw [hold]
    cases k with
    | notifyingAll => exact absurd hk nofun
    | joining i => exact absurd hk nofun
    | destroyed => exact absurd hk nofun
    | _ => exact hrest

/-- The predicate of `idle_cv_` as a number. -/
theorem isIdle_iff (p : ThreadPool) : p.isIdle = true ↔ p.tasks.length + p.active = 0 := by
  simp [isIdle]

/-- A notification leaves a worker that is not asleep where it stands. -/
theorem System.getElem?_notifyOne {s : System} {woken : Option ℕ} (hw : s.CanWake woken) {i : ℕ}
    {w : Worker} (h : s.workers[i]? = some w) (hawake : w ≠ .asleep) :
    (s.notifyOne woken).workers[i]? = some w := by
  cases woken with
  | none => exact h
  | some j =>
    have hne : j ≠ i := by
      rintro rfl
      exact hawake (Option.some.inj (h.symm.trans hw))
    exact (List.getElem?_set_ne hne).trans h

/-- Every step keeps the balance. -/
theorem System.Balance.step {s s' : System} (hs : s.Balance) (h : s.Step s') : s'.Balance := by
  cases h with
  | @fetch i h =>
    obtain ⟨rest, hold, hnew⟩ := workerTally_split h
    rw [Balance, hold] at hs
    unfold fetch
    split
    · rename_i htasks
      rw [htasks, List.length_nil] at hs
      simp only [Balance, setWorker, List.length_set, hnew, htasks, List.length_nil]
      exact hs.rests
    · rename_i fn others htasks
      rw [htasks, List.length_cons] at hs
      simp only [Balance, setWorker, List.length_set, hnew]
      exact hs.takes
  | submit h =>
    obtain ⟨rest, hold, hnew⟩ := workerTally_split h
    rw [Balance, hold] at hs
    simp only [Balance, push, setWorker, List.length_set, List.length_append, hnew]
    exact hs.submits
  | @notify i fn others woken h hw =>
    cases woken with
    | none =>
      obtain ⟨rest, hold, hnew⟩ := workerTally_split h
      have hsleeping := workerTally_sleeping hw
      rw [hold] at hsleeping
      rw [Balance, hold] at hs
      simp only [Balance, notifyOne, setWorker, List.length_set, hnew]
      exact hs.notifiesNone hsleeping
    | some j =>
      obtain ⟨rest, hold, hwoken⟩ := workerTally_split hw
      obtain ⟨_, hmiddle, hnew⟩ := workerTally_split (getElem?_notifyOne hw h nofun)
      simp only [notifyOne, setWorker] at hmiddle hnew
      rw [Balance, hold] at hs
      rw [hwoken] at hmiddle
      simp only [Balance, notifyOne, setWorker, List.length_set, hnew]
      exact hs.notifiesOne hmiddle
  | returnFrom h =>
    obtain ⟨rest, hold, hnew⟩ := workerTally_split h
    rw [Balance, hold] at hs
    simp only [Balance, returnFrom, setWorker, List.length_set, hnew]
    exact hs.returns
  | complete h =>
    obtain ⟨rest, hold, hnew⟩ := workerTally_split h
    rw [Balance, hold] at hs
    have hcompletes := hs.completes
    simp only [Balance, complete, setWorker, List.length_set, hnew, isIdle_iff]
    split at hcompletes
    · rename_i hidle
      rw [if_pos hidle, clientTally_wake]
      exact hcompletes
    · rename_i hbusy
      rw [if_neg hbusy]
      exact hcompletes
  | @clientNotify c woken h hw =>
    obtain ⟨rest, hold, hnew⟩ := clientTally_split h
    cases woken with
    | none =>
      rw [Balance, hold] at hs
      simp only [Balance, notifyOne, setClient, hnew]
      exact hs.clientNotifiesNone (workerTally_sleeping hw)
    | some j =>
      obtain ⟨wrest, hwold, hwnew⟩ := workerTally_split hw
      rw [Balance, hold, hwold] at hs
      simp only [Balance, notifyOne, setClient, setWorker, List.length_set, hnew, hwnew]
      exact hs.clientNotifiesOne
  | waitIdle h =>
    obtain ⟨rest, hold, hnew⟩ := clientTally_split h
    rw [Balance, hold] at hs
    simp only [Balance, setClient, hnew, isIdle_iff]
    exact hs.tests
  | stop h =>
    obtain ⟨rest, hold, hnew⟩ := clientTally_split h
    rw [Balance, hold] at hs
    simp only [Balance, setStop, setClient, hnew]
    exact hs.stops
  | notifyAll h =>
    obtain ⟨rest, hold, hnew⟩ := clientTally_split h
    rw [Balance, hold] at hs
    simp only [Balance, notifyAll, setClient, hnew, workerTally_wake, List.length_map]
    exact hs.wakesAll
  | join h hi =>
    obtain ⟨rest, hold, hnew⟩ := clientTally_split h
    rw [Balance, hold] at hs
    simp only [Balance, setClient, hnew]
    exact hs
  | destroyed h hi =>
    obtain ⟨rest, hold, hnew⟩ := clientTally_split h
    rw [Balance, hold] at hs
    simp only [Balance, setClient, hnew]
    exact hs

/-- Every call, and every spurious wake-up, keeps the balance. -/
theorem System.Balance.call {s s' : System} (hs : s.Balance) (h : s.Call s') : s'.Balance := by
  cases h with
  | submit fn h alive =>
    obtain ⟨rest, hold, hnew⟩ := clientTally_split h
    have hstopping := clientTally_stopping alive
    rw [hold] at hstopping
    rw [Balance, hold] at hs
    simp only [Balance, push, setClient, hnew, List.length_append]
    exact hs.clientSubmits hstopping
  | waitIdle h alive =>
    obtain ⟨rest, hold, hnew⟩ := clientTally_split h
    rw [Balance, hold] at hs
    simp only [Balance, setClient, hnew]
    exact hs
  | destroy h alone =>
    obtain ⟨rest, hold, hnew⟩ := clientTally_split h
    rw [Balance, hold] at hs
    simp only [Balance, setClient, hnew]
    exact hs
  | spuriousWorker h =>
    obtain ⟨rest, hold, hnew⟩ := workerTally_split h
    rw [Balance, hold] at hs
    simp only [Balance, setWorker, List.length_set, hnew]
    exact hs.wakes
  | spuriousClient h =>
    obtain ⟨rest, hold, hnew⟩ := clientTally_split h
    rw [Balance, hold] at hs
    simp only [Balance, setClient, hnew]
    exact ⟨hs.manned, hs.counted, hs.woken, hs.waits.imp nofun id, hs.stopped, hs.announced,
      hs.exited, hs.emptied⟩

/-- A new pool is balanced. -/
theorem System.Balance.make (threads clients : ℕ) : (System.make threads clients).Balance := by
  have hworkers (n : ℕ) : workerTally (List.replicate n .testing) = ⟨0, 0, n, n⟩ := by
    induction n with
    | zero => rfl
    | succ n ih => exact congrArg (fun t => t.add .testing) ih
  have hclients (n : ℕ) : clientTally (List.replicate n .idle) = ⟨0, 0, 0, 0⟩ := by
    induction n with
    | zero => rfl
    | succ n ih => exact congrArg (fun t => t.add .idle) ih
  simp only [Balance, System.make, hworkers, hclients, List.length_replicate]
  refine ⟨?_, rfl, .inl rfl, .inl rfl, ⟨nofun, nofun⟩, nofun, fun _ => rfl, fun _ => rfl⟩
  split <;> omega

/-- The closures in the hands of the workers. -/
def System.inHand (s : System) : List Fn := s.workers.flatMap Worker.holds

/-- Every closure pushed is taken in turn, and every closure taken has returned or is in the hands
of one worker. -/
structure System.Accounts (s : System) : Prop where
  taken : s.started ++ s.pool.tasks = s.submitted
  placed : (s.finished ++ s.inHand).Perm s.started

/-- A worker that goes on with what it holds changes nothing. -/
theorem holds_set {workers : List Worker} {i : ℕ} {w w' : Worker} (h : workers[i]? = some w)
    (hw : w'.holds = w.holds) :
    ((workers.set i w').flatMap Worker.holds).Perm (workers.flatMap Worker.holds) := by
  have hset := PointUpdate.flatMap_set_perm h w' Worker.holds
  rw [hw] at hset
  exact (List.perm_append_right_iff _).mp hset

/-- Waking a worker leaves what it holds. -/
theorem Worker.holds_wake (w : Worker) : w.wake.holds = w.holds := by
  cases w <;> rfl

/-- A worker that goes on with what it holds leaves the accounts. -/
theorem System.Accounts.setWorker {s : System} (hs : s.Accounts) {i : ℕ} {w w' : Worker}
    (h : s.workers[i]? = some w) (hw : w'.holds = w.holds) : (s.setWorker i w').Accounts :=
  ⟨hs.taken, ((holds_set h hw).append_left _).trans hs.placed⟩

/-- A push is accounted for. -/
theorem System.Accounts.push {s : System} (hs : s.Accounts) (fn : Fn) : (s.push fn).Accounts := by
  refine ⟨?_, hs.placed⟩
  calc s.started ++ (s.pool.tasks ++ [fn])
      = s.started ++ s.pool.tasks ++ [fn] := (List.append_assoc _ _ _).symm
    _ = s.submitted ++ [fn] := by rw [hs.taken]

/-- A notification leaves the accounts. -/
theorem System.Accounts.notifyOne {s : System} (hs : s.Accounts) {woken : Option ℕ}
    (hw : s.CanWake woken) : (s.notifyOne woken).Accounts := by
  cases woken with
  | none => exact hs
  | some j => exact hs.setWorker hw rfl

/-- The section that takes a closure is accounted for. -/
theorem System.Accounts.fetch {s : System} (hs : s.Accounts) {i : ℕ}
    (h : s.workers[i]? = some .testing) : (s.fetch i).Accounts := by
  unfold System.fetch
  split
  · refine hs.setWorker h ?_
    split <;> rfl
  · rename_i fn rest htasks
    have hset := PointUpdate.flatMap_set_perm h (.running fn fn.submits) Worker.holds
    rw [show Worker.holds .testing = [] from rfl, List.append_nil] at hset
    refine ⟨?_, ?_⟩
    · have htaken := hs.taken
      rw [htasks] at htaken
      calc s.started ++ [fn] ++ rest
          = s.started ++ fn :: rest := by rw [List.append_assoc, List.singleton_append]
        _ = s.submitted := htaken
    · have hplaced : (s.finished ++ (s.inHand ++ [fn])).Perm (s.started ++ [fn]) := by
        rw [← List.append_assoc]
        exact hs.placed.append_right _
      exact (hset.append_left _).trans hplaced

/-- The return of a closure is accounted for. -/
theorem System.Accounts.returnFrom {s : System} (hs : s.Accounts) {i : ℕ} {fn : Fn}
    (h : s.workers[i]? = some (.running fn [])) : (s.returnFrom i fn).Accounts := by
  have hset := PointUpdate.flatMap_set_perm h .finishing Worker.holds
  rw [show Worker.holds .finishing = [] from rfl, List.append_nil] at hset
  refine ⟨hs.taken, ?_⟩
  have hmove : (s.finished ++ [fn] ++ (s.workers.set i .finishing).flatMap Worker.holds).Perm
      (s.finished ++ s.inHand) := by
    rw [List.append_assoc]
    exact (List.perm_append_comm.trans hset).append_left _
  exact hmove.trans hs.placed

/-- Every step keeps the accounts. -/
theorem System.Accounts.step {s s' : System} (hs : s.Accounts) (h : s.Step s') :
    s'.Accounts := by
  cases h with
  | fetch h => exact hs.fetch h
  | @submit i fn next rest h => exact (hs.push next).setWorker h rfl
  | notify h hw => exact (hs.notifyOne hw).setWorker (getElem?_notifyOne hw h nofun) rfl
  | returnFrom h => exact hs.returnFrom h
  | @complete i h =>
    have hset : (s.setWorker i .testing).Accounts := hs.setWorker h rfl
    exact ⟨hset.taken, hset.placed⟩
  | clientNotify h hw => exact ⟨(hs.notifyOne hw).taken, (hs.notifyOne hw).placed⟩
  | waitIdle h => exact ⟨hs.taken, hs.placed⟩
  | stop h => exact ⟨hs.taken, hs.placed⟩
  | notifyAll h =>
    refine ⟨hs.taken, ?_⟩
    have hwake : (s.workers.map Worker.wake).flatMap Worker.holds = s.inHand := by
      rw [List.flatMap_map]
      exact congrArg (s.workers.flatMap ·) (funext Worker.holds_wake)
    exact ((List.Perm.of_eq hwake).append_left _).trans hs.placed
  | join h hi => exact ⟨hs.taken, hs.placed⟩
  | destroyed h hi => exact ⟨hs.taken, hs.placed⟩

/-- Every call keeps the accounts. -/
theorem System.Accounts.call {s s' : System} (hs : s.Accounts) (h : s.Call s') :
    s'.Accounts := by
  cases h with
  | submit fn h alive => exact ⟨(hs.push fn).taken, (hs.push fn).placed⟩
  | waitIdle h alive => exact ⟨hs.taken, hs.placed⟩
  | destroy h alone => exact ⟨hs.taken, hs.placed⟩
  | spuriousWorker h => exact hs.setWorker h rfl
  | spuriousClient h => exact ⟨hs.taken, hs.placed⟩

/-- How many workers a client in the destructor has joined. -/
def Client.joined (size : ℕ) : Client → ℕ
  | .joining i => i
  | .destroyed => size
  | _ => 0

/-- The workers that were joined have returned. -/
def System.Joined (s : System) : Prop :=
  ∀ k ∈ s.clients, ∀ j < k.joined s.workers.length, s.workers[j]? = some .exited

/-- A worker that has not returned goes on without one that has. -/
theorem getElem?_set_exited {workers : List Worker} {i j : ℕ} {w : Worker}
    (h : workers[i]? = some w) (hw : w ≠ .exited) (w' : Worker)
    (hj : workers[j]? = some .exited) : (workers.set i w')[j]? = some .exited := by
  have hne : i ≠ j := by
    rintro rfl
    exact hw (Option.some.inj (h.symm.trans hj))
  rwa [List.getElem?_set_ne hne]

/-- A worker that has not returned goes on without an effect on the joins. -/
theorem System.Joined.setWorker {s : System} (hs : s.Joined) {i : ℕ} {w : Worker}
    (h : s.workers[i]? = some w) (hw : w ≠ .exited) (w' : Worker) :
    (s.setWorker i w').Joined := by
  intro k hk j hj
  rw [System.setWorker, List.length_set] at hj
  exact getElem?_set_exited h hw w' (hs k hk j hj)

/-- A client goes on to where it has joined no more than workers that have returned. -/
theorem System.Joined.setClient {s : System} (hs : s.Joined) (c : ℕ) {k' : Client}
    (hk : ∀ j < k'.joined s.workers.length, s.workers[j]? = some .exited) :
    (s.setClient c k').Joined := by
  intro k hmem
  rcases List.mem_or_eq_of_mem_set hmem with hold | rfl
  · exact hs k hold
  · exact hk

/-- A notification leaves the joins. -/
theorem System.Joined.notifyOne {s : System} (hs : s.Joined) {woken : Option ℕ}
    (hw : s.CanWake woken) : (s.notifyOne woken).Joined := by
  cases woken with
  | none => exact hs
  | some j => exact hs.setWorker hw nofun .testing

/-- Every step keeps the joins. -/
theorem System.Joined.step {s s' : System} (hs : s.Joined) (h : s.Step s') : s'.Joined := by
  cases h with
  | fetch h =>
    unfold fetch
    split
    · exact hs.setWorker h nofun _
    · exact hs.setWorker h nofun _
  | submit h => exact hs.setWorker h nofun _
  | notify h hw => exact (hs.notifyOne hw).setWorker (getElem?_notifyOne hw h nofun) nofun _
  | returnFrom h => exact hs.setWorker h nofun _
  | @complete i h =>
    have hset := hs.setWorker h nofun .testing
    intro k hk
    simp only [complete] at hk
    split at hk
    · obtain ⟨l, hl, rfl⟩ := List.mem_map.mp hk
      cases l with
      | asleep => exact nofun
      | _ => exact hset _ hl
    · exact hset k hk
  | clientNotify h hw => exact (hs.notifyOne hw).setClient _ nofun
  | @waitIdle c h =>
    refine hs.setClient c ?_
    split <;> exact nofun
  | @stop c h => exact System.Joined.setClient (s := s.setStop) hs c nofun
  | @notifyAll c h =>
    refine System.Joined.setClient (s := s.notifyAll) (fun k hk j hj => ?_) c nofun
    simp only [notifyAll, List.length_map] at hj
    simp only [notifyAll, List.getElem?_map, hs k hk j hj, Option.map_some, Worker.wake]
  | @join c i h hi =>
    refine hs.setClient c fun j hj => ?_
    rcases Nat.lt_succ_iff_lt_or_eq.mp hj with hlt | rfl
    · exact hs _ (List.mem_of_getElem? h) j hlt
    · exact hi
  | @destroyed c i h hi =>
    exact hs.setClient c fun j hj => hs _ (List.mem_of_getElem? h) j (lt_of_lt_of_le hj hi)

/-- Every call keeps the joins. -/
theorem System.Joined.call {s s' : System} (hs : s.Joined) (h : s.Call s') : s'.Joined := by
  cases h with
  | submit fn h alive => exact System.Joined.setClient (s := s.push fn) hs _ nofun
  | waitIdle h alive => exact hs.setClient _ nofun
  | destroy h alone => exact hs.setClient _ nofun
  | spuriousWorker h => exact hs.setWorker h nofun _
  | spuriousClient h => exact hs.setClient _ nofun

/-- What holds in every state that an interleaving can reach. -/
structure System.Sound (s : System) : Prop where
  balance : s.Balance
  accounts : s.Accounts
  joined : s.Joined

/-- A new pool is sound. -/
theorem System.Sound.make (threads clients : ℕ) : (System.make threads clients).Sound := by
  refine ⟨.make threads clients, ⟨rfl, ?_⟩, fun k hk => ?_⟩
  · have hnone (n : ℕ) : (List.replicate n Worker.testing).flatMap Worker.holds = [] := by
      rw [List.flatMap_eq_nil_iff]
      intro w hw
      rw [List.eq_of_mem_replicate hw]
      rfl
    simp only [inHand, System.make, hnone]
    exact .refl _
  · rw [List.eq_of_mem_replicate hk]
    exact nofun

/-- Every step keeps a sound state sound. -/
theorem System.Sound.step {s s' : System} (hs : s.Sound) (h : s.Step s') : s'.Sound :=
  ⟨hs.balance.step h, hs.accounts.step h, hs.joined.step h⟩

/-- Every state that an interleaving can reach is sound. -/
theorem System.Sound.run {s₀ s : System} (h : System.Reachable s₀ s) (hs : s₀.Sound) : s.Sound :=
  Interleaving.run_keeps (I := System.Sound)
    (fun _ _ hs hstep => hstep.elim hs.step fun hcall =>
      ⟨hs.balance.call hcall, hs.accounts.call hcall, hs.joined.call hcall⟩) h hs

/-- When the queue is empty and no worker is busy, every closure pushed has returned. -/
theorem System.Sound.all_finished {s : System} (hs : s.Sound) (htasks : s.pool.tasks = [])
    (hactive : s.inHand = []) : s.finished.Perm s.submitted := by
  have hplaced := hs.accounts.placed
  have htaken := hs.accounts.taken
  rw [hactive, List.append_nil] at hplaced
  rw [htasks, List.append_nil] at htaken
  exact htaken ▸ hplaced

/-- A worker that is not busy holds nothing. -/
theorem holds_eq_nil {workers : List Worker} (h : (workerTally workers).busy = 0) :
    workers.flatMap Worker.holds = [] := by
  induction workers with
  | nil => rfl
  | cons w others ih =>
    have hold : workerTally (w :: others) = (workerTally others).add w := rfl
    rw [hold] at h
    cases w with
    | testing => exact ih h
    | asleep => exact ih h
    | exited => exact ih h
    | _ => exact absurd h (Nat.succ_ne_zero _)

/-- While `idle_cv_`'s predicate holds, every closure pushed has returned. -/
theorem System.Sound.finished_of_isIdle {s : System} (hs : s.Sound) (h : s.pool.isIdle = true) :
    s.finished.Perm s.submitted := by
  rw [isIdle_iff] at h
  have hcounted := hs.balance.counted
  exact hs.all_finished (List.length_eq_zero_iff.mp (by omega)) (holds_eq_nil (by omega))

/-- Nobody lives when all workers have returned. -/
theorem workerTally_exited {workers : List Worker} (h : ∀ w ∈ workers, w = .exited) :
    workerTally workers = ⟨0, 0, 0, 0⟩ := by
  induction workers with
  | nil => rfl
  | cons w others ih =>
    obtain rfl := h w List.mem_cons_self
    exact ih fun v hv => h v (List.mem_cons_of_mem _ hv)

/-- Once all workers have returned, every closure pushed has. -/
theorem System.Sound.finished_of_exited {s : System} (hs : s.Sound)
    (h : ∀ w ∈ s.workers, w = .exited) : s.finished.Perm s.submitted := by
  have htally := workerTally_exited h
  refine hs.all_finished (List.length_eq_zero_iff.mp (hs.balance.emptied ?_)) (holds_eq_nil ?_)
  · rw [htally]
  · rw [htally]

/-- A client that stands before the section of `wait_idle` and stands outside after a step has
found the predicate true. -/
theorem System.Step.isIdle_of_returns {s s' : System} (h : s.Step s') {c : ℕ}
    (hwaiting : s.clients[c]? = some .waiting) (hidle : s'.clients[c]? = some .idle) :
    s.pool.isIdle = true := by
  have hset : ∀ {d : ℕ} {k k' : Client}, s.clients[d]? = some k → k ≠ .waiting →
      (s.clients.set d k')[c]? = some .waiting := fun {d k k'} hd hk => by
    have hne : d ≠ c := by
      rintro rfl
      exact hk (Option.some.inj (hd.symm.trans hwaiting))
    rwa [List.getElem?_set_ne hne]
  have hsame : s.clients[c]? ≠ some .idle := by
    rw [hwaiting]
    exact nofun
  cases h with
  | fetch h =>
    refine absurd hidle ?_
    unfold System.fetch
    split <;> exact hsame
  | submit h => exact absurd hidle hsame
  | @notify i fn rest woken h hw => cases woken <;> exact absurd hidle hsame
  | returnFrom h => exact absurd hidle hsame
  | complete h =>
    refine absurd hidle ?_
    simp only [System.complete]
    split
    · rw [List.getElem?_map, hwaiting]
      exact nofun
    · exact hsame
  | @clientNotify d woken h hw =>
    cases woken <;> exact absurd (hidle.symm.trans (hset h nofun)) nofun
  | @waitIdle d h =>
    by_cases hd : d = c
    · subst hd
      by_contra hbusy
      simp only [setClient, if_neg hbusy] at hidle
      rw [List.getElem?_set_self (List.getElem?_eq_some_iff.mp h).1] at hidle
      exact absurd hidle nofun
    · simp only [setClient, List.getElem?_set_ne hd] at hidle
      exact absurd hidle hsame
  | stop h => exact absurd (hidle.symm.trans (hset h nofun)) nofun
  | notifyAll h => exact absurd (hidle.symm.trans (hset h nofun)) nofun
  | join h hi => exact absurd (hidle.symm.trans (hset h nofun)) nofun
  | destroyed h hi => exact absurd (hidle.symm.trans (hset h nofun)) nofun

/-- In every state of every interleaving the closures have been taken from the queue in the order
in which they were pushed, each once, and `active_` counts the workers that are busy with one; a
`wait_idle` returns only when every closure pushed so far has returned. -/
theorem System.takes_each_once (threads clients : ℕ) (s : System)
    (h : Reachable (make threads clients) s) :
    s.started ++ s.pool.tasks = s.submitted ∧ (s.finished ++ s.inHand).Perm s.started ∧
      s.pool.active = (workerTally s.workers).busy ∧
      ∀ (s' : System) (c : ℕ), s.Step s' → s.clients[c]? = some .waiting →
        s'.clients[c]? = some .idle → s.finished.Perm s.submitted := by
  have hs := Sound.run h (.make threads clients)
  exact ⟨hs.accounts.taken, hs.accounts.placed, hs.balance.counted, fun s' c hstep hwaiting hidle =>
    hs.finished_of_isIdle (hstep.isIdle_of_returns hwaiting hidle)⟩

/-- A client submits a closure that submits another, both return, and the client is about to test
whether the pool is idle. -/
theorem System.reachable_waiting :
    ∃ s, Reachable (make 1 1) s ∧ s.clients = [.waiting] ∧ s.workers = [.testing] ∧
      s.pool = {} ∧ s.submitted = [.mk 0 [.mk 1 []], .mk 1 []] := by
  have hcall : Reachable (make 1 1) _ :=
    .tail .refl (.inr (.submit (c := 0) (.mk 0 [.mk 1 []]) rfl (List.forall_mem_singleton.mpr rfl)))
  have hfirst := (((((((hcall.tail
    (.inl (.clientNotify (c := 0) rfl
      (show CanWake _ none from List.forall_mem_singleton.mpr nofun)))).tail
    (.inl (.fetch (i := 0) rfl))).tail
    (.inl (.submit (i := 0) rfl))).tail
    (.inl (.notify (i := 0) rfl
      (show CanWake _ none from List.forall_mem_singleton.mpr nofun)))).tail
    (.inl (.returnFrom (i := 0) rfl))).tail
    (.inl (.complete (i := 0) rfl)))).tail
    (.inl (.fetch (i := 0) rfl))
  have hsecond := ((hfirst.tail
    (.inl (.returnFrom (i := 0) rfl))).tail
    (.inl (.complete (i := 0) rfl))).tail
    (.inr (.waitIdle (c := 0) rfl (List.forall_mem_singleton.mpr rfl)))
  exact ⟨_, hsecond, rfl, rfl, rfl, rfl⟩

/-- The wait in that state returns, and both closures have. -/
theorem System.takes_each_once_waiting :
    ∃ s s' : System, s.Step s' ∧ s.clients = [.waiting] ∧ s'.clients = [.idle] ∧
      s.submitted = [.mk 0 [.mk 1 []], .mk 1 []] ∧ s.finished.Perm s.submitted := by
  obtain ⟨s, hs, hclients, -, hpool, hsubmitted⟩ := reachable_waiting
  have hwaiting : s.clients[0]? = some .waiting := by rw [hclients]; rfl
  have hidle : (s.setClient 0 (if s.pool.isIdle then .idle else .asleep)).clients = [.idle] := by
    simp only [setClient, hclients, hpool]
    rfl
  have hstep := Step.waitIdle hwaiting
  exact ⟨s, _, hstep, hclients, hidle, hsubmitted,
    (takes_each_once 1 1 s hs).2.2.2 _ 0 hstep hwaiting (by rw [hidle]; rfl)⟩

/-- Where the destructor has returned, every worker has, and so has every closure ever pushed,
those included that other closures pushed while the destructor ran. -/
theorem System.destroyed_after_all (threads clients : ℕ) (s : System)
    (h : Reachable (make threads clients) s) (hdestroyed : .destroyed ∈ s.clients) :
    (∀ w ∈ s.workers, w = .exited) ∧ s.pool.tasks = [] ∧ s.finished.Perm s.submitted := by
  have hs := Sound.run h (.make threads clients)
  have hexited : ∀ w ∈ s.workers, w = .exited := fun w hw => by
    obtain ⟨j, hj, rfl⟩ := List.getElem_of_mem hw
    have hget := hs.joined _ hdestroyed j hj
    exact Option.some.inj ((List.getElem?_eq_getElem hj).symm.trans hget)
  have hliving : (workerTally s.workers).living = 0 := by rw [workerTally_exited hexited]
  exact ⟨hexited, List.length_eq_zero_iff.mp (hs.balance.emptied hliving),
    hs.finished_of_exited hexited⟩

/-- The client then destroys the pool. -/
theorem System.destroyed_after_all_joined :
    ∃ s : System, s.clients = [.destroyed] ∧ s.submitted = [.mk 0 [.mk 1 []], .mk 1 []] ∧
      s.finished.Perm s.submitted := by
  obtain ⟨s, hs, hclients, hworkers, hpool, hsubmitted⟩ := reachable_waiting
  obtain ⟨pool, workers, clients, submitted, started, finished⟩ := s
  dsimp only at hclients hworkers hpool hsubmitted
  subst hclients hworkers hpool
  have hdestroy := (hs.tail (.inl (.waitIdle (c := 0) rfl))).tail
    (.inr (.destroy (c := 0) rfl (List.forall_mem_singleton.mpr rfl)))
  have hjoined := ((((hdestroy.tail
    (.inl (.stop (c := 0) rfl))).tail
    (.inl (.fetch (i := 0) rfl))).tail
    (.inl (.notifyAll (c := 0) rfl))).tail
    (.inl (.join (c := 0) (i := 0) rfl rfl))).tail
    (.inl (.destroyed (c := 0) (i := 1) rfl le_rfl))
  have hall := destroyed_after_all 1 1 _ hjoined List.mem_cons_self
  exact ⟨_, rfl, hsubmitted, hall.2.2⟩

end ThreadPool

end VeloGraphX
