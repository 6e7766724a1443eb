import Mathlib
import VeloGraphX.Runtime.PoolProgress

/-!
# Fair schedules of the work-stealing pool

Nothing bounds the looks of idle threads, so what a run comes to depends on the scheduler. Under one
that never forgets a thread, the load stops falling at some time; from then on there are only looks.
Every worker has come back to its own queue by then and found it empty, so nothing is queued, in hand
or counted, and a client that still waited would have seen it.
-/

namespace VeloGraphX

open Interleaving

namespace PoolState

/-- An infinite run in which no client makes another call and every thread keeps taking steps. -/
structure FairRun (states : ℕ → PoolState) (turn : ℕ → ℕ) : Prop where
  next : ∀ n, (states n).step (turn n) .proceed = some (states (n + 1))
  fair : ∀ t < (states 0).threads.length, Fair turn t

/-- From some time on nothing happens but looks. -/
structure OnlyLooks (states : ℕ → PoolState) (turn : ℕ → ℕ) (start : ℕ) : Prop where
  staffed : ∀ n, (states n).Staffed
  looks : ∀ n ≥ start, ∃ c a c', (states n).threads[turn n]? = some c ∧
    states (n + 1) = (states n).advance (turn n) a c' ∧ (states n).Looks (turn n) c a c'
  fair : ∀ t < (states start).threads.length, Fair turn t

/-- Everything that was asked of the pool is done. -/
structure Done (s : PoolState) : Prop where
  idle : ∀ t, s.pool.queues.length ≤ t → t < s.threads.length → s.threads[t]? = some .idle
  queued : s.queued = []
  outstanding : s.pool.outstanding = 0
  completed : s.completed.Perm s.counted
  ran : s.runs.Perm s.counted

variable {states : ℕ → PoolState} {turn : ℕ → ℕ} {start n t : ℕ} {c : Control}

/-- A step changes no other thread, and no number of threads. -/
theorem step_threads {s s' : PoolState} {u : ℕ} (h : s.step u .proceed = some s') :
    s'.threads.length = s.threads.length ∧ (u ≠ t → s'.threads[t]? = s.threads[t]?) := by
  obtain ⟨c, a, c', hc, -, rfl⟩ := step_cases h
  rw [threads_advance, List.length_set]
  exact ⟨rfl, fun hu => List.getElem?_set_ne hu⟩

/-- A fair run comes to looks. -/
theorem FairRun.onlyLooks (h : FairRun states turn) (hstaffed : (states 0).Staffed) :
    ∃ start, OnlyLooks states turn start := by
  have hall : ∀ n, (states n).Staffed := by
    intro n
    induction n with
    | zero => exact hstaffed
    | succ n ih =>
      have hadmits : (states n).Admits (turn n) .proceed := trivial
      exact ih.step hadmits (h.next n)
  have hthreads : ∀ n, (states n).threads.length = (states 0).threads.length := by
    intro n
    induction n with
    | zero => rfl
    | succ n ih => rw [(step_threads (h.next n) (t := 0)).1, ih]
  obtain ⟨start, hstart⟩ := @eventually_constant (fun n => (states n).load) fun n =>
    ((hall n).step_progress (h.next n)).1
  refine ⟨start, hall, fun n hn => ?_, fun t ht => h.fair t (hthreads start ▸ ht)⟩
  have hnow : (states n).load = (states start).load := hstart n hn
  have hnext : (states (n + 1)).load = (states start).load := hstart (n + 1) (Nat.le_succ_of_le hn)
  exact ((hall n).step_progress (h.next n)).2 (hnext.trans hnow.symm)

namespace OnlyLooks

/-- The queues and the number of threads stay. -/
theorem same (h : OnlyLooks states turn start) (hn : n ≥ start) :
    (states n).pool.queues = (states start).pool.queues ∧
      (states n).threads.length = (states start).threads.length := by
  induction n, hn using Nat.le_induction with
  | base => exact ⟨rfl, rfl⟩
  | succ n hn ih =>
    obtain ⟨c, a, c', -, hnext, hlooks⟩ := h.looks n hn
    rw [hnext, pool_advance, hlooks.queues, threads_advance, List.length_set]
    exact ih

/-- A thread that exists keeps its turns. -/
theorem fair_of (h : OnlyLooks states turn start) (hn : n ≥ start)
    (hc : (states n).threads[t]? = some c) : Fair turn t :=
  h.fair t ((h.same hn).2 ▸ (List.getElem?_eq_some_iff.mp hc).1)

/-- Another thread's look leaves a thread where it is. -/
theorem stays (h : OnlyLooks states turn start) (hn : n ≥ start) (hturn : turn n ≠ t) :
    (states (n + 1)).threads[t]? = (states n).threads[t]? := by
  obtain ⟨c, a, c', -, hnext, -⟩ := h.looks n hn
  rw [hnext, threads_advance, List.getElem?_set_ne hturn]

/-- Where a thread's own look takes it. -/
theorem moves (h : OnlyLooks states turn start) (hn : n ≥ start) (hturn : turn n = t) :
    ∃ c a c', (states n).threads[t]? = some c ∧ (states (n + 1)).threads[t]? = some c' ∧
      (states n).Looks t c a c' := by
  subst hturn
  obtain ⟨c, a, c', hc, hnext, hlooks⟩ := h.looks n hn
  refine ⟨c, a, c', hc, ?_, hlooks⟩
  rw [hnext, threads_advance, List.getElem?_set_self (List.getElem?_eq_some_iff.mp hc).1]

/-- No thread has a task in its hands. -/
theorem holds (h : OnlyLooks states turn start) (hn : n ≥ start)
    (hc : (states n).threads[t]? = some c) : c.holds = [] := by
  obtain ⟨m, hm, hturn, hplace⟩ := @Fair.next_turn _ turn t n _ (h.fair_of hn hc)
    (fun k => (states k).threads[t]?) fun k hk => h.stays (hn.le.trans hk)
  obtain ⟨c', a, d, hc', -, hlooks⟩ := h.moves (hn.le.trans hm) hturn
  have hsame : some c' = some c := hc'.symm.trans (hplace.trans hc)
  obtain rfl := Option.some.inj hsame
  exact hlooks.holds

/-- The load of a thread stays. -/
theorem load_same (h : OnlyLooks states turn start) (hn : n ≥ start) :
    ((states n).threads[t]?).map Control.load = ((states start).threads[t]?).map Control.load := by
  induction n, hn using Nat.le_induction with
  | base => rfl
  | succ n hn ih =>
    by_cases hturn : turn n = t
    · obtain ⟨c, a, c', hc, hc', hlooks⟩ := h.moves hn hturn
      rw [← ih, hc, hc', Option.map_some, Option.map_some, hlooks.load]
    · rw [h.stays hn hturn, ih]

/-- A thread that exists starts over. -/
theorem starts_over (h : OnlyLooks states turn start) (hc : (states start).threads[t]? = some c) :
    ∃ n ≥ start, ∃ d, (states n).threads[t]? = some d ∧ (states n).StartsOver t d := by
  have hgoal := @Fair.leads_to _ turn t start (h.fair_of le_rfl hc)
    (fun n => ∃ d, (states n).threads[t]? = some d ∧ (states n).StartsOver t d)
    (fun n => ((states n).threads[t]?).elim 0 (Control.looks (states start).pool.queues.length))
    (fun n hn hturn => by rw [h.stays hn hturn]) fun n hn hturn => by
      obtain ⟨d, a, d', hd, hd', hlooks⟩ := h.moves hn hturn
      rcases hlooks.round with hover | hless
      · exact Or.inl ⟨d, hd, hover⟩
      · rw [(h.same hn).1] at hless
        rw [hd, hd']
        exact Or.inr hless
  obtain ⟨n, hn, -, hover⟩ := hgoal
  exact ⟨n, hn, hover⟩

/-- Every worker has found its queue empty. -/
theorem queued (h : OnlyLooks states turn start) (hn : n ≥ start) : (states n).queued = [] := by
  rw [PoolState.queued, (h.same hn).1]
  refine List.flatten_eq_nil_iff.mpr fun tasks htasks => ?_
  obtain ⟨i, hi, rfl⟩ := List.getElem_of_mem htasks
  have hworker : i < (states start).threads.length := hi.trans_le (h.staffed start).staff
  obtain ⟨m, hm, d, hd, hover⟩ := h.starts_over (List.getElem?_eq_getElem hworker)
  have hrole := ((h.staffed m).roles i d hd).mpr (by rwa [(h.same hm).1])
  cases d with
  | popLocal =>
    have hempty : (states m).pool.queue i = [] := hover
    rw [WorkStealingPool.queue, (h.same hm).1, List.getD_eq_getElem _ _ hi] at hempty
    exact hempty
  | idle => exact absurd hrole Bool.false_ne_true
  | draining wait => exact absurd hrole Bool.false_ne_true
  | _ => exact absurd hover not_false

/-- Nothing is in hand, and `outstanding_` is zero. -/
theorem accounts (h : OnlyLooks states turn start) (hn : n ≥ start) :
    (states n).pool.outstanding = 0 ∧ (states n).completed.Perm (states n).counted ∧
      (states n).runs.Perm (states n).counted := by
  have hlocated := (h.staffed n).located
  have hqueued := h.queued hn
  have hempty : ∀ c ∈ (states n).threads, c.holds = [] := fun c hc => by
    obtain ⟨t, ht, rfl⟩ := List.getElem_of_mem hc
    exact h.holds hn (List.getElem?_eq_getElem ht)
  have hinFlight : (states n).inFlight = [] := List.flatMap_eq_nil_iff.mpr hempty
  have hunrun : (states n).unrun = [] := List.flatMap_eq_nil_iff.mpr fun c hc =>
    List.eq_nil_of_subset_nil (hempty c hc ▸ c.unrun_subset_holds)
  have hplaced := hlocated.placed
  have hran := hlocated.ran
  rw [hqueued, hinFlight, List.append_nil, List.nil_append] at hplaced
  rw [hqueued, hunrun, List.append_nil, List.append_nil] at hran
  have hlength := hplaced.length_eq
  have hout := hlocated.outstanding
  exact ⟨by omega, hplaced, hran⟩

/-- Every client has returned. -/
theorem idle (h : OnlyLooks states turn start) (hn : n ≥ start)
    (hclient : (states n).pool.queues.length ≤ t) (ht : t < (states n).threads.length) :
    (states n).threads[t]? = some .idle := by
  have ht' : t < (states start).threads.length := (h.same hn).2 ▸ ht
  obtain ⟨m, hm, d, hd, hover⟩ := h.starts_over (List.getElem?_eq_getElem ht')
  have hidle : d = .idle := by
    cases d with
    | idle => rfl
    | draining wait => exact absurd (h.accounts hm).1 hover
    | popLocal =>
      have hworker := ((h.staffed m).roles t _ hd).mp rfl
      rw [(h.same hm).1, ← (h.same hn).1] at hworker
      omega
    | _ => exact absurd hover not_false
  have hc := List.getElem?_eq_getElem ht
  have hload := @load_same states turn start n t h hn
  rw [← h.load_same hm, hd, hidle, hc] at hload
  have hzero : (states n).threads[t].load = 0 := Option.some.inj hload
  have hrole := (h.staffed n).roles t _ hc
  rw [hc]
  generalize (states n).threads[t] = c at hzero hrole
  have hfalse : ¬ c.ofWorker = true := fun hworker => absurd (hrole.mp hworker) (not_lt.mpr hclient)
  cases c with
  | idle => rfl
  | testing => exact absurd rfl hfalse
  | popLocal => exact absurd rfl hfalse
  | stealing same offset => exact absurd rfl hfalse
  | tryingSteal same offset => exact absurd rfl hfalse
  | sleeping => exact absurd rfl hfalse
  | _ => simp [Control.load] at hzero

/-- Everything is done. -/
theorem done (h : OnlyLooks states turn start) (hn : n ≥ start) : (states n).Done :=
  ⟨fun _ => h.idle hn, h.queued hn, (h.accounts hn).1, (h.accounts hn).2.1, (h.accounts hn).2.2⟩

end OnlyLooks

/-- Wherever an interleaving of calls has led, if no sum of a chunk loop wraps around, then under every
fair schedule the pool gets done for good: every call of `submit`, `parallel_for` and `wait_idle`
returns, and every task has run once and is complete. -/
theorem done_eventually (threads : ℕ) (queueGroups : List ℕ) (clients : ℕ)
    (hreach : Run Admits (PoolState.start threads queueGroups clients) (states 0))
    (h : FairRun states turn) : ∃ start, ∀ n ≥ start, (states n).Done := by
  obtain ⟨start, hlooks⟩ := h.onlyLooks (Staffed.run hreach (.start threads queueGroups clients))
  exact ⟨start, fun n hn => hlooks.done hn⟩

/-- The run in which the threads take their steps in turn. -/
def roundRobin (s : PoolState) : ℕ → PoolState
  | 0 => s
  | n + 1 =>
    let s' := s.roundRobin n
    (s'.step (n % s.threads.length) .proceed).getD s'

/-- Taking turns is fair. -/
theorem fairRun_roundRobin {s : PoolState} (h : 0 < s.threads.length) :
    FairRun s.roundRobin fun n => n % s.threads.length := by
  have hstep : ∀ n, (s.roundRobin n).threads.length = s.threads.length →
      (s.roundRobin n).step (n % s.threads.length) .proceed = some (s.roundRobin (n + 1)) := by
    intro n hlength
    have hlt : n % s.threads.length < (s.roundRobin n).threads.length := by
      rw [hlength]
      exact Nat.mod_lt n h
    rw [roundRobin, step, List.getElem?_eq_getElem hlt]
    rfl
  have hlength : ∀ n, (s.roundRobin n).threads.length = s.threads.length := by
    intro n
    induction n with
    | zero => rfl
    | succ n ih => rw [(step_threads (hstep n ih) (t := 0)).1, ih]
  refine ⟨fun n => hstep n (hlength n), fun t ht n => ⟨n * s.threads.length + t, ?_, ?_⟩⟩
  · exact (Nat.le_mul_of_pos_right n h).trans (Nat.le_add_right _ _)
  · rw [Nat.mul_add_mod_self_right]
    exact Nat.mod_eq_of_lt ht

/-- The case of one worker and a client that has just counted a task that throws. -/
theorem done_eventually_counted :
    ∃ s : PoolState, s.counted = [⟨0, none, [(0, some 7)]⟩] ∧ s.runs = [] ∧
      ∃ start, ∀ n ≥ start, (s.roundRobin n).Done := by
  have hadmits : (PoolState.start 1 [] 1).Admits 1 (.submit [(0, some 7)] 0) := trivial
  exact ⟨_, rfl, rfl, done_eventually 1 [] 1 (Run.refl.step hadmits rfl)
    (fairRun_roundRobin (by decide))⟩

end PoolState

end VeloGraphX
