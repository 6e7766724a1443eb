import Mathlib
import VeloGraphX.Lib.Interleaving
import VeloGraphX.Runtime.ChunkLoop
import VeloGraphX.Runtime.WaitIdle

/-!
# The work-stealing pool gets done

Workers without work and clients that wait look again and again, so no run is bounded as those of
the simple pool are. But a step that is not a look uses up part of a finite `load`, and every look
brings a worker closer to its own queue, and a waiting client closer to `outstanding_`.
-/

namespace VeloGraphX

open Interleaving

section Load

variable {call : ParallelCall} {first grain : ℕ}

/-- The turns a chunk loop still takes from `first`. -/
def ParallelCall.turnsLeft (call : ParallelCall) (first grain : ℕ) : ℕ :=
  (call.stop - first + grain - 1) / grain

/-- None of the sums of these turns wraps around. -/
def ParallelCall.Fits (call : ParallelCall) (first grain : ℕ) : Prop :=
  0 < grain ∧ first + call.turnsLeft first grain * grain < 2 ^ 64

/-- One turn of the chunk loop. -/
theorem ParallelCall.Fits.next (h : call.Fits first grain) (hlt : first < call.stop) :
    call.turnsLeft (addU64 first grain) grain + 1 = call.turnsLeft first grain ∧
      call.Fits (addU64 first grain) grain := by
  obtain ⟨hgrain, hfits⟩ := h
  have hturn : call.turnsLeft first grain = (call.stop - first - 1) / grain + 1 := by
    rw [turnsLeft, show call.stop - first + grain - 1 = call.stop - first - 1 + grain by omega,
      Nat.add_div_right _ hgrain]
  have hnext : call.turnsLeft (first + grain) grain = (call.stop - first - 1) / grain := by
    rw [turnsLeft]
    by_cases hmore : first + grain ≤ call.stop
    · congr 1
      omega
    · rw [Nat.div_eq_of_lt (by omega), Nat.div_eq_of_lt (by omega)]
  rw [hturn, ← hnext, Nat.succ_mul] at hfits
  have hsum : addU64 first grain = first + grain := Nat.mod_eq_of_lt (by omega)
  rw [hsum]
  exact ⟨by rw [hnext, hturn], hgrain, by omega⟩

/-- The steps of a `submit` and of all the loop does behind it. -/
def AfterSubmit.load : AfterSubmit → ℕ
  | .returned => 0
  | .chunks call first grain _ => 8 * call.turnsLeft first grain + 3

/-- The steps of the wait that a thread goes back to. -/
def AfterTask.load : AfterTask → ℕ
  | .worker => 0
  | .drain _ => 2

/-- The steps that a thread will still take without a look. A task in a queue is worth five. -/
def Control.load : Control → ℕ
  | .looping call first grain _ => 8 * call.turnsLeft first grain + 3
  | .counted _ _ after => after.load + 7
  | .pushing _ _ after => after.load + 6
  | .draining _ | .popAny _ _ | .waiting _ => 2
  | .rethrowing _ => 1
  | .running _ after => after.load + 4
  | .recording _ _ after => after.load + 3
  | .executing _ after => after.load + 2
  | .retiring _ after => after.load + 1
  | _ => 0

/-- The steps that will still be taken without a look. -/
def PoolState.load (s : PoolState) : ℕ := 5 * s.queued.length + (s.threads.map Control.load).sum

/-- The looks a thread takes before it starts over. -/
def Control.looks (size : ℕ) : Control → ℕ
  | .waiting _ | .testing => 1
  | .popAny _ i => size - i + 2
  | .sleeping => 2
  | .stealing same offset => (if same then 2 * size else 0) + 2 * (size - offset) + 3
  | .tryingSteal same offset => (if same then 2 * size else 0) + 2 * (size - (offset + 1)) + 4
  | _ => 0

/-- Where a look is the first of a round, and finds nothing. -/
def PoolState.StartsOver (s : PoolState) (t : ℕ) : Control → Prop
  | .idle => True
  | .draining _ => s.pool.outstanding ≠ 0
  | .popLocal => s.pool.queue t = []
  | _ => False

/-- A look that finds nothing. -/
structure PoolState.Looks (s : PoolState) (t : ℕ) (c : Control) (a : Act) (c' : Control) : Prop where
  queues : (s.pool.act a).queues = s.pool.queues
  load : c'.load = c.load
  holds : c.holds = []
  round : s.StartsOver t c ∨ c'.looks s.pool.queues.length < c.looks s.pool.queues.length

/-- A step that uses up load. -/
def PoolState.Spends (s : PoolState) (c : Control) (a : Act) (c' : Control) : Prop :=
  5 * (s.pool.act a).queues.flatten.length + c'.load < 5 * s.queued.length + c.load

/-- The chunk loop that a thread is in, or goes back to. -/
def Control.loop? : Control → Option (ParallelCall × ℕ × ℕ)
  | .looping call first grain _ | .counted _ _ (.chunks call first grain _)
  | .pushing _ _ (.chunks call first grain _) => some (call, first, grain)
  | _ => none

/-- A thread whose chunk loop does not wrap around. -/
def Control.Fits (c : Control) : Prop :=
  ∀ call first grain, c.loop? = some (call, first, grain) → call.Fits first grain

end Load

section Steps

variable {s : PoolState} {t : ℕ} {c : Control}

@[simp] theorem AfterSubmit.load_control (after : AfterSubmit) : after.control.load = after.load := by
  cases after <;> rfl

@[simp] theorem AfterTask.load_control (after : AfterTask) : after.control.load = after.load := by
  cases after <;> rfl

/-- What all queues gain when one is replaced. -/
theorem WorkStealingPool.length_setQueue {p : WorkStealingPool} {i : ℕ} (hi : i < p.queues.length)
    (tasks : List Task) : (p.setQueue i tasks).queues.flatten.length + (p.queue i).length =
      p.queues.flatten.length + tasks.length := by
  have hget : p.queues[i]? = some (p.queue i) := by
    rw [List.getElem?_eq_getElem hi, queue, List.getD_eq_getElem _ _ hi]
  obtain ⟨rest, hold, hnew⟩ := PointUpdate.sum_map_split hget List.length
  rw [List.length_flatten, List.length_flatten, setQueue, hnew, hold]
  omega

/-- A task that was found in a queue leaves it. -/
theorem WorkStealingPool.length_taken {p : WorkStealingPool} {i : ℕ} {task : Task} {rest : List Task}
    (hmem : task ∈ p.queue i) (hrest : rest.length + 1 = (p.queue i).length) :
    (p.setQueue i rest).queues.flatten.length + 1 = p.queues.flatten.length := by
  have hset := p.length_setQueue (lt_of_mem_queue hmem) rest
  omega

/-- A search spends when it finds a task, and looks when it does not. -/
theorem takeOr_progress {found : Option Task} {a : Act} {after : AfterTask} {otherwise : Control}
    (hload : c.load = after.load) (hholds : c.holds = []) (hother : otherwise.load = c.load)
    (hround : found = none → s.StartsOver t c ∨
      otherwise.looks s.pool.queues.length < c.looks s.pool.queues.length)
    (htaken : ∀ task, found = some task →
      (s.pool.act a).queues.flatten.length + 1 = s.pool.queues.flatten.length) :
    s.Spends c (takeOr found a after otherwise).1 (takeOr found a after otherwise).2 ∨
      s.Looks t c (takeOr found a after otherwise).1 (takeOr found a after otherwise).2 := by
  cases found with
  | none => exact Or.inr ⟨rfl, hother, hholds, hround rfl⟩
  | some task =>
    have htaken := htaken task rfl
    refine Or.inl ?_
    change 5 * (s.pool.act a).queues.flatten.length + (after.load + 4) <
      5 * s.pool.queues.flatten.length + c.load
    omega

/-- Every step spends or looks, unless a client makes another call. -/
theorem PoolState.transition_progress (hq : 0 < s.pool.queues.length) (t : ℕ) (hfits : c.Fits) :
    s.Spends c (s.transition t .proceed c).1 (s.transition t .proceed c).2 ∨
      s.Looks t c (s.transition t .proceed c).1 (s.transition t .proceed c).2 := by
  cases c with
  | idle => exact Or.inr ⟨rfl, rfl, rfl, Or.inl trivial⟩
  | looping call first grain hint =>
    left
    simp only [PoolState.transition]
    split
    · rename_i hlt
      have hturns := ((hfits call first grain rfl).next hlt).1
      simp only [PoolState.Spends, PoolState.queued, WorkStealingPool.act, Control.load,
        AfterSubmit.load]
      omega
    · simp only [PoolState.Spends, PoolState.queued, WorkStealingPool.act, Control.load]
      omega
  | counted task hint after =>
    left
    simp [Spends, queued, transition, WorkStealingPool.act, Control.load]
  | pushing task hint after =>
    have hset := s.pool.length_setQueue (Nat.mod_lt hint hq)
      (s.pool.queue (hint % s.pool.queues.length) ++ [task])
    rw [List.length_append, List.length_singleton] at hset
    have hload := after.load_control
    left
    change 5 * (s.pool.setQueue _ _).queues.flatten.length + after.control.load <
      5 * s.pool.queues.flatten.length + (after.load + 6)
    omega
  | draining wait =>
    simp only [PoolState.transition]
    split
    · rename_i hmore
      exact Or.inr ⟨rfl, rfl, rfl, Or.inl hmore⟩
    · exact Or.inl (by simp [Spends, queued, WorkStealingPool.act, Control.load])
  | popAny wait i =>
    simp only [PoolState.transition]
    split
    · rename_i hi
      refine takeOr_progress rfl rfl rfl (fun _ => Or.inr ?_) fun task hfound => ?_
      · simp only [Control.looks]
        omega
      · have hmem := List.mem_of_head? hfound
        have hpos := List.length_pos_of_mem hmem
        exact WorkStealingPool.length_taken hmem (by rw [List.length_tail]; omega)
    · rename_i hi
      refine Or.inr ⟨rfl, rfl, rfl, Or.inr ?_⟩
      simp only [Control.looks]
      omega
  | waiting wait => exact Or.inr ⟨rfl, rfl, rfl, Or.inr (by simp [transition, Control.looks])⟩
  | rethrowing wait =>
    left
    simp [Spends, queued, transition, WorkStealingPool.act, Control.load]
  | running task after =>
    left
    simp only [PoolState.transition]
    split <;> simp [Spends, queued, WorkStealingPool.act, Control.load]
  | recording task error after =>
    left
    simp only [Spends, queued, transition, s.pool.queues_record task error, Control.load]
    omega
  | executing task after =>
    left
    simp [Spends, queued, transition, WorkStealingPool.act, Control.load]
  | retiring task after =>
    have hload := after.load_control
    left
    change 5 * s.pool.queues.flatten.length + after.control.load <
      5 * s.pool.queues.flatten.length + (after.load + 1)
    omega
  | testing => exact Or.inr ⟨rfl, rfl, rfl, Or.inr (by simp [transition, Control.looks])⟩
  | popLocal =>
    refine takeOr_progress rfl rfl rfl (fun hnone => Or.inl ?_) fun task hfound => ?_
    · exact List.getLast?_eq_none_iff.mp hnone
    · have hmem := List.mem_of_getLast? hfound
      have hpos := List.length_pos_of_mem hmem
      exact WorkStealingPool.length_taken hmem (by rw [List.length_dropLast]; omega)
  | stealing same offset =>
    simp only [PoolState.transition]
    split
    · rename_i hlt
      split
      · refine Or.inr ⟨rfl, rfl, rfl, Or.inr ?_⟩
        simp only [Control.looks]
        omega
      · refine Or.inr ⟨rfl, rfl, rfl, Or.inr ?_⟩
        simp only [Control.looks]
        omega
    · rename_i hdone
      refine Or.inr ⟨rfl, ?_, rfl, Or.inr ?_⟩
      · cases same <;> rfl
      · cases same with
        | true =>
          simp [Control.looks]
          omega
        | false => simp [Control.looks]
  | tryingSteal same offset =>
    refine takeOr_progress rfl rfl rfl (fun _ => Or.inr ?_) fun task hfound => ?_
    · simp only [Control.looks]
      omega
    · have hmem := List.mem_of_head? hfound
      have hpos := List.length_pos_of_mem hmem
      have hrest := @List.length_tail _ (s.pool.queue ((t + offset) % s.pool.queues.length))
      have htaken := WorkStealingPool.length_taken hmem (hrest ▸ Nat.sub_add_cancel hpos)
      cases same <;> exact htaken
  | sleeping => exact Or.inr ⟨rfl, rfl, rfl, Or.inr (by simp [transition, Control.looks])⟩

end Steps

section Invariant

variable {s s' : PoolState} {t : ℕ} {c : Control}

/-- Whether a thread is in the loop of `worker`. -/
def AfterTask.ofWorker : AfterTask → Bool
  | .worker => true
  | .drain _ => false

/-- Whether a thread is one of the pool's own. -/
def Control.ofWorker : Control → Bool
  | .testing | .popLocal | .stealing _ _ | .tryingSteal _ _ | .sleeping => true
  | .running _ after | .recording _ _ after | .executing _ after | .retiring _ after =>
    after.ofWorker
  | _ => false

theorem AfterTask.ofWorker_control (after : AfterTask) : after.control.ofWorker = after.ofWorker := by
  cases after <;> rfl

theorem AfterSubmit.ofWorker_control (after : AfterSubmit) : after.control.ofWorker = false := by
  cases after <;> rfl

theorem takeOr_ofWorker {found : Option Task} {a : Act} {after : AfterTask} {otherwise : Control}
    (h : otherwise.ofWorker = after.ofWorker) :
    (takeOr found a after otherwise).2.ofWorker = after.ofWorker := by
  cases found with
  | none => exact h
  | some task => rfl

/-- A worker stays a worker, and a client a client. -/
theorem PoolState.transition_ofWorker (s : PoolState) (t : ℕ) (choice : Choice) (c : Control) :
    (s.transition t choice c).2.ofWorker = c.ofWorker := by
  cases c with
  | idle =>
    cases choice with
    | parallelFor start stop fn grain =>
      simp only [PoolState.transition, PoolState.enter]
      split <;> rfl
    | _ => rfl
  | looping call first grain hint =>
    simp only [PoolState.transition]
    split <;> rfl
  | pushing task hint after => exact after.ofWorker_control
  | draining wait =>
    simp only [PoolState.transition]
    split <;> rfl
  | popAny wait i =>
    simp only [PoolState.transition]
    split
    · exact takeOr_ofWorker rfl
    · rfl
  | running task after =>
    simp only [PoolState.transition]
    split <;> rfl
  | retiring task after => exact after.ofWorker_control
  | popLocal => exact takeOr_ofWorker rfl
  | stealing same offset =>
    simp only [PoolState.transition]
    split
    · split <;> rfl
    · split <;> rfl
  | tryingSteal same offset => exact takeOr_ofWorker rfl
  | _ => rfl

/-- A call of `parallel_for` is made only where none of its sums wraps around. -/
def PoolState.Admits (s : PoolState) (_ : ℕ) : Choice → Prop
  | .parallelFor start stop fn grain =>
    let call : ParallelCall := ⟨s.calls, start, stop, fn⟩
    let grain := call.usedGrain s.pool.size grain
    stop ≤ start ∨ start + call.turnsLeft start grain * grain < 2 ^ 64
  | _ => True

/-- A thread outside the chunk loop has no sum to form. -/
theorem Control.Fits.of_none (h : c.loop? = none) : c.Fits := fun _ _ _ hloop =>
  absurd (h.symm.trans hloop) (Option.some_ne_none _).symm

/-- A search leaves the chunk loop alone. -/
theorem takeOr_fits {found : Option Task} {a : Act} {after : AfterTask} {otherwise : Control}
    (h : otherwise.loop? = none) : (takeOr found a after otherwise).2.Fits := by
  cases found with
  | none => exact .of_none h
  | some task => exact .of_none rfl

/-- Sums that did not wrap around before a step do not after it. -/
theorem PoolState.transition_fits (hfits : c.Fits) {choice : Choice} (hchoice : s.Admits t choice) :
    (s.transition t choice c).2.Fits := by
  cases c with
  | idle =>
    cases choice with
    | parallelFor start stop fn grain =>
      simp only [PoolState.transition, PoolState.enter]
      split
      · exact .of_none rfl
      · rename_i hmore
        intro call first used hloop
        obtain ⟨rfl, rfl, rfl⟩ := (by simpa [Control.loop?] using hloop : _ ∧ _ ∧ _)
        refine ⟨?_, hchoice.resolve_left hmore⟩
        split
        · exact (ParallelCall.adaptiveGrain_bounds _ _).1
        · exact Nat.pos_of_ne_zero ‹_›
    | _ => exact .of_none rfl
  | looping call first grain hint =>
    simp only [PoolState.transition]
    split
    · rename_i hlt
      intro call' first' grain' hloop
      obtain ⟨rfl, rfl, rfl⟩ := (by simpa [Control.loop?] using hloop : _ ∧ _ ∧ _)
      exact ((hfits call first grain rfl).next hlt).2
    · exact .of_none rfl
  | counted task hint after => cases after <;> exact hfits
  | pushing task hint after => cases after <;> exact hfits
  | draining wait =>
    simp only [PoolState.transition]
    split <;> exact .of_none rfl
  | popAny wait i =>
    simp only [PoolState.transition]
    split
    · exact takeOr_fits rfl
    · exact .of_none rfl
  | running task after =>
    simp only [PoolState.transition]
    split <;> exact .of_none rfl
  | retiring task after => cases after <;> exact .of_none rfl
  | popLocal => exact takeOr_fits rfl
  | stealing same offset =>
    simp only [PoolState.transition]
    split
    · split <;> exact .of_none rfl
    · split <;> exact .of_none rfl
  | tryingSteal same offset => exact takeOr_fits rfl
  | _ => exact .of_none rfl

/-- The pool of the next state. -/
theorem PoolState.pool_advance (s : PoolState) (t : ℕ) (a : Act) (c : Control) :
    (s.advance t a c).pool = s.pool.act a := by
  cases a <;> rfl

/-- The threads of the next state. -/
theorem PoolState.threads_advance (s : PoolState) (t : ℕ) (a : Act) (c : Control) :
    (s.advance t a c).threads = s.threads.set t c := rfl

/-- A thread of the next state is the one that took the step, or stands where it was. -/
theorem PoolState.thread_advance {a : Act} {c' d : Control} {u : ℕ} (hc : s.threads[t]? = some c)
    (hd : (s.advance t a c').threads[u]? = some d) : u = t ∧ d = c' ∨ s.threads[u]? = some d := by
  by_cases hu : u = t
  · subst hu
    rw [threads_advance, List.getElem?_set_self (List.getElem?_eq_some_iff.mp hc).1] at hd
    exact Or.inl ⟨rfl, (Option.some.inj hd).symm⟩
  · rw [threads_advance, List.getElem?_set_ne (Ne.symm hu)] at hd
    exact Or.inr hd

/-- A thread of a new pool. -/
theorem PoolState.thread_start {threads clients : ℕ} {queueGroups : List ℕ}
    (hc : (PoolState.start threads queueGroups clients).threads[t]? = some c) :
    (c = .testing ∧ t < (PoolState.start threads queueGroups clients).pool.queues.length) ∨
      (c = .idle ∧ (PoolState.start threads queueGroups clients).pool.queues.length ≤ t) := by
  simp only [PoolState.start] at hc ⊢
  rcases lt_or_ge t (WorkStealingPool.make threads queueGroups).size with hlt | hge
  · rw [List.getElem?_append_left (by rwa [List.length_replicate])] at hc
    exact Or.inl ⟨List.eq_of_mem_replicate (List.mem_of_getElem? hc), hlt⟩
  · rw [List.getElem?_append_right (by rwa [List.length_replicate])] at hc
    exact Or.inr ⟨List.eq_of_mem_replicate (List.mem_of_getElem? hc), hge⟩

/-- Every queue has its worker, and the other threads are clients. -/
structure PoolState.Roles (s : PoolState) : Prop where
  staff : s.pool.queues.length ≤ s.threads.length
  roles : ∀ (t : ℕ) (c : Control), s.threads[t]? = some c →
    (c.ofWorker = true ↔ t < s.pool.queues.length)

/-- One step keeps the roles. -/
theorem PoolState.Roles.step (h : s.Roles) {choice : Choice} (hstep : s.step t choice = some s') :
    s'.Roles := by
  obtain ⟨c, a, c', hc, htransition, rfl⟩ := PoolState.step_cases hstep
  have hrole : c'.ofWorker = c.ofWorker := by
    have hall := s.transition_ofWorker t choice c
    rwa [htransition] at hall
  have hlength : (s.advance t a c').pool.queues.length = s.pool.queues.length := by
    rw [pool_advance, WorkStealingPool.length_act]
  refine ⟨?_, fun u d hd => ?_⟩
  · rw [hlength, threads_advance, List.length_set]
    exact h.staff
  · rw [hlength]
    obtain ⟨rfl, rfl⟩ | hold := thread_advance hc hd
    · rw [hrole]
      exact h.roles u c hc
    · exact h.roles u d hold

/-- The roles of a new pool. -/
theorem PoolState.Roles.start (threads : ℕ) (queueGroups : List ℕ) (clients : ℕ) :
    (PoolState.start threads queueGroups clients).Roles := by
  refine ⟨?_, fun t c hc => ?_⟩
  · simp [PoolState.start, WorkStealingPool.size]
  · obtain ⟨rfl, hlt⟩ | ⟨rfl, hge⟩ := thread_start hc
    · exact iff_of_true rfl hlt
    · exact iff_of_false Bool.false_ne_true (not_lt.mpr hge)

/-- Every task is in its one place, every thread has its role, and no sum wraps around. -/
structure PoolState.Staffed (s : PoolState) : Prop extends s.Roles where
  located : s.Located
  fits : ∀ (t : ℕ) (c : Control), s.threads[t]? = some c → c.Fits

/-- One step keeps the staff. -/
theorem PoolState.Staffed.step (h : s.Staffed) {choice : Choice} (hchoice : s.Admits t choice)
    (hstep : s.step t choice = some s') : s'.Staffed := by
  refine ⟨h.toRoles.step hstep, h.located.step hstep, fun u d hd => ?_⟩
  obtain ⟨c, a, c', hc, htransition, rfl⟩ := PoolState.step_cases hstep
  have hfits : c'.Fits := by
    have hall := PoolState.transition_fits (h.fits t c hc) hchoice
    rwa [htransition] at hall
  obtain ⟨rfl, rfl⟩ | hold := thread_advance hc hd
  · exact hfits
  · exact h.fits u d hold

/-- A new pool has its staff. -/
theorem PoolState.Staffed.start (threads : ℕ) (queueGroups : List ℕ) (clients : ℕ) :
    (PoolState.start threads queueGroups clients).Staffed := by
  refine ⟨.start threads queueGroups clients, .start threads queueGroups clients,
    fun t c hc => ?_⟩
  obtain ⟨rfl, -⟩ | ⟨rfl, -⟩ := thread_start hc
  · exact .of_none rfl
  · exact .of_none rfl

/-- Wherever an interleaving of calls that do not wrap around leads, the pool has its staff. -/
theorem PoolState.Staffed.run {s₀ : PoolState} (h : Run PoolState.Admits s₀ s) (h₀ : s₀.Staffed) :
    s.Staffed :=
  h.keeps (fun _ _ _ _ hstaffed hok hstep => hstaffed.step hok hstep) h₀

/-- What a step does to the load. -/
theorem PoolState.load_advance (hc : s.threads[t]? = some c) (a : Act) (c' : Control) :
    (s.advance t a c').load + (5 * s.queued.length + c.load) =
      s.load + (5 * (s.pool.act a).queues.flatten.length + c'.load) := by
  obtain ⟨rest, hold, hnew⟩ := PointUpdate.sum_map_split hc Control.load
  rw [load, load, queued, pool_advance, threads_advance, hnew, hold]
  omega

/-- Without another call the load does not grow, and where it stays the step was a look. -/
theorem PoolState.Staffed.step_progress (h : s.Staffed) (hstep : s.step t .proceed = some s') :
    s'.load ≤ s.load ∧ (s'.load = s.load → ∃ c a c', s.threads[t]? = some c ∧
      s' = s.advance t a c' ∧ s.Looks t c a c') := by
  obtain ⟨c, a, c', hc, htransition, rfl⟩ := PoolState.step_cases hstep
  have hprogress := PoolState.transition_progress h.located.queues t (h.fits t c hc)
  rw [htransition] at hprogress
  have hload := PoolState.load_advance hc a c'
  have hcases : s.Spends c a c' ∨ s.Looks t c a c' := hprogress
  rcases hcases with hspends | hlooks
  · rw [Spends] at hspends
    exact ⟨by omega, fun hsame => by omega⟩
  · have hkeep := hlooks.load
    rw [hlooks.queues, ← queued, hkeep] at hload
    exact ⟨by omega, fun _ => ⟨c, a, c', hc, rfl, hlooks⟩⟩

end Invariant

end VeloGraphX
