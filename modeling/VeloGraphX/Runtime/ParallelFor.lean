import Mathlib
import VeloGraphX.Runtime.WaitIdle

/-!
# Concurrent calls of `parallel_for`

A call submits one task for each chunk of its range and then waits for the whole pool, so it
sees its own tasks through two things it shares with every other caller: the counter and the
slot for the first failure. The counter serves them all. The slot serves a caller only as long
as no other caller's failure is in it.
-/

namespace VeloGraphX

/-- A task invokes only what the call asks for. -/
def ParallelCall.Chunk (call : ParallelCall) (task : Task) : Prop :=
  ∀ invocation ∈ task.invocations,
    call.start ≤ invocation.1 ∧ invocation.1 < call.stop ∧ invocation.2 = call.fn invocation.1

/-- The tasks of the call that are counted cover its range up to `first`. -/
def PoolState.Covers (s : PoolState) (call : ParallelCall) (first : ℕ) : Prop :=
  ∀ i, call.start ≤ i → i < first → i < call.stop →
    ∃ task ∈ s.counted, task.call = some call.id ∧ (i, call.fn i) ∈ task.invocations

/-- A call that waits has come to the end of its range. -/
def Wait.reached? (wait : Option Wait) : Option (ParallelCall × ℕ) :=
  wait.bind fun wait => wait.call.map fun call => (call, call.stop)

/-- The `parallel_for` call a thread is in, and how far its chunk loop has come. -/
def AfterSubmit.reached? : AfterSubmit → Option (ParallelCall × ℕ)
  | .returned => none
  | .chunks call first _ _ => some (call, first)

/-- The `parallel_for` call a thread is in, and how far its chunk loop has come. -/
def Control.reached? : Control → Option (ParallelCall × ℕ)
  | .looping call first _ _ => some (call, first)
  | .counted _ _ after | .pushing _ _ after => after.reached?
  | c => Wait.reached? c.wait?

/-- A step that neither enters nor leaves a call, nor moves a failure. -/
def Act.Quiet : Act → Prop
  | .count task => task.call = none
  | .enter | .enterEmpty _ | .record _ _ | .rethrow _ => False
  | _ => True

/-- What a step means for the calls of `parallel_for`. -/
inductive PoolState.CallStep (s : PoolState) : Control → Act → Control → Prop
  | quiet {c c' : Control} {a : Act} (ha : a.Quiet) (hreached : c'.reached? = c.reached?)
      (hwait : ∀ wait, c'.wait? = some wait → c.wait? = some wait ∨ wait.call = none) :
      CallStep s c a c'
  | empty (call : ParallelCall) (hrange : call.stop ≤ call.start) :
      CallStep s .idle (.enterEmpty call) .idle
  | enter (call : ParallelCall) (grain hint : ℕ) (hid : call.id = s.calls)
      (hrange : call.start < call.stop) :
      CallStep s .idle .enter (.looping call call.start grain hint)
  | chunk (call : ParallelCall) (first grain hint : ℕ) (hfirst : first < call.stop) :
      CallStep s (.looping call first grain hint)
        (.count (call.chunk s.counted.length first grain))
        (.counted (call.chunk s.counted.length first grain) hint
          (.chunks call (addU64 first grain) grain (addU64 hint 1)))
  | drain (call : ParallelCall) (first grain hint : ℕ) (hfirst : ¬ first < call.stop) :
      CallStep s (.looping call first grain hint) .silent
        (.draining ⟨s.counted.length, some call⟩)
  | record (task : Task) (error : ExceptionPtr) (after : AfterTask) :
      CallStep s (.recording task error after) (.record task error) (.executing task after)
  | rethrow (wait : Wait) : CallStep s (.rethrowing wait) (.rethrow wait) .idle

@[simp] theorem AfterSubmit.control_reached? (after : AfterSubmit) :
    after.control.reached? = after.reached? := by
  cases after <;> rfl

@[simp] theorem AfterTask.control_reached? (after : AfterTask) :
    after.control.reached? = Wait.reached? after.wait? := by
  cases after <;> rfl

/-- Taking a task stays in the wait the thread is in. -/
theorem takeOr_callStep {s : PoolState} {c otherwise : Control} {found : Option Task} {a : Act}
    {after : AfterTask} (ha : a.Quiet) (hc : c.reached? = Wait.reached? after.wait?)
    (hcwait : c.wait? = after.wait?) (hother : otherwise.reached? = Wait.reached? after.wait?)
    (hotherwait : otherwise.wait? = after.wait?) :
    s.CallStep c (takeOr found a after otherwise).1 (takeOr found a after otherwise).2 := by
  cases found with
  | none =>
    exact .quiet trivial (hother.trans hc.symm) fun wait hwait =>
      Or.inl (hcwait.trans (hotherwait.symm.trans hwait))
  | some task => exact .quiet ha hc.symm fun wait hwait => Or.inl (hcwait.trans hwait)

/-- Every step is one of the steps of `PoolState.CallStep`. -/
theorem PoolState.transition_callStep (s : PoolState) (t : ℕ) (choice : Choice) (c : Control) :
    s.CallStep c (s.transition t choice c).1 (s.transition t choice c).2 := by
  cases c with
  | idle =>
    cases choice with
    | proceed => exact .quiet trivial rfl (by rintro _ ⟨⟩)
    | submit invocations hint => exact .quiet rfl rfl (by rintro _ ⟨⟩)
    | waitIdle =>
      refine .quiet trivial rfl fun wait hwait => Or.inr ?_
      cases hwait
      rfl
    | parallelFor start stop fn grain =>
      simp only [PoolState.transition, PoolState.enter]
      split
      · rename_i hrange
        exact .empty ⟨s.calls, start, stop, fn⟩ hrange
      · rename_i hrange
        exact .enter ⟨s.calls, start, stop, fn⟩ _ 0 rfl (not_le.mp hrange)
  | looping call first grain hint =>
    simp only [PoolState.transition]
    split
    · rename_i hfirst
      exact .chunk call first grain hint hfirst
    · rename_i hfirst
      exact .drain call first grain hint hfirst
  | counted task hint after => exact .quiet trivial rfl (by rintro _ ⟨⟩)
  | pushing task hint after =>
    refine .quiet trivial after.control_reached? fun wait hwait => ?_
    have hnone := after.control_wait?.symm.trans hwait
    cases hnone
  | draining wait =>
    simp only [PoolState.transition]
    split <;> exact .quiet trivial rfl fun _ hwait => Or.inl hwait
  | popAny wait i =>
    simp only [PoolState.transition]
    split
    · exact takeOr_callStep trivial rfl rfl rfl rfl
    · exact .quiet trivial rfl fun _ hwait => Or.inl hwait
  | waiting wait => exact .quiet trivial rfl fun _ hwait => Or.inl hwait
  | rethrowing wait => exact .rethrow wait
  | running task after =>
    simp only [PoolState.transition]
    split <;> exact .quiet trivial rfl fun _ hwait => Or.inl hwait
  | recording task error after => exact .record task error after
  | executing task after => exact .quiet trivial rfl fun _ hwait => Or.inl hwait
  | retiring task after =>
    exact .quiet trivial after.control_reached? fun wait hwait =>
      Or.inl (after.control_wait?.symm.trans hwait)
  | testing => exact .quiet trivial rfl (by rintro _ ⟨⟩)
  | popLocal => exact takeOr_callStep trivial rfl rfl rfl rfl
  | stealing same offset =>
    simp only [PoolState.transition]
    split
    · split <;> exact .quiet trivial rfl (by rintro _ ⟨⟩)
    · split <;> exact .quiet trivial rfl (by rintro _ ⟨⟩)
  | tryingSteal same offset =>
    refine takeOr_callStep ?_ rfl rfl rfl rfl
    trivial
  | sleeping => exact .quiet trivial rfl (by rintro _ ⟨⟩)

/-- The condition under which a thread's next step does not mix up two calls: a failure enters the
slot while the failure in it, if any, is of the same call, a wait empties the slot when that
failure is of its own call, and the end of a chunk does not overflow. -/
def PoolState.SeparateAt (s : PoolState) : Control → Prop
  | .looping call first grain _ => first < call.stop → first + grain < 2 ^ 64
  | .recording task _ _ => ∀ other ∈ s.recorded.head?, other.call = task.call
  | .rethrowing wait => ∀ other ∈ s.recorded.head?, other.call = wait.call.map ParallelCall.id
  | _ => True

instance (s : PoolState) (c : Control) : Decidable (s.SeparateAt c) := by
  cases c <;> (unfold PoolState.SeparateAt; infer_instance)

/-- The condition on a step. -/
def PoolState.Separate (s : PoolState) (t : ℕ) (_ : Choice) : Prop :=
  ∀ c ∈ s.threads[t]?, s.SeparateAt c

instance (s : PoolState) (t : ℕ) (choice : Choice) : Decidable (s.Separate t choice) :=
  inferInstanceAs (Decidable (∀ c ∈ s.threads[t]?, s.SeparateAt c))

/-- What a call of `parallel_for` that is over should have done: a normal return means that each of
its invocations completed without throwing, and an exception comes from one of them. -/
def PoolState.Right (s : PoolState) (call : ParallelCall) : Option ExceptionPtr → Prop
  | none => ∀ i, call.start ≤ i → i < call.stop → call.fn i = none ∧
      ∃ task ∈ s.completed, task.call = some call.id ∧ task.outcome = none ∧
        (i, none) ∈ task.invocations
  | some error => ∃ i, call.start ≤ i ∧ i < call.stop ∧ call.fn i = some error ∧
      ∃ task ∈ s.completed, task.call = some call.id ∧ task.outcome = some error ∧
        (i, some error) ∈ task.invocations

/-- What one thread's call of `parallel_for` has done so far. -/
structure PoolState.Engaged (s : PoolState) (c : Control) : Prop where
  lt : ∀ call first, c.reached? = some (call, first) → call.id < s.calls
  range : ∀ call first, c.reached? = some (call, first) →
    call.start ≤ first ∧ call.start < call.stop
  chunks : ∀ call first, c.reached? = some (call, first) →
    ∀ task ∈ s.counted, task.call = some call.id → call.Chunk task
  covered : ∀ call first, c.reached? = some (call, first) → s.Covers call first
  waited : ∀ wait call, c.wait? = some wait → wait.call = some call →
    ∀ task ∈ s.counted, task.call = some call.id → task.id < wait.since
  unreported : ∀ call first, c.reached? = some (call, first) →
    ∀ task ∈ s.reported, task.call ≠ some call.id

/-- What all calls of `parallel_for` have done so far. -/
structure PoolState.Parallel (s : PoolState) : Prop where
  threads : ∀ c ∈ s.threads, s.Engaged c
  distinct : ∀ (t u : ℕ) (c d : Control) (p q : ParallelCall × ℕ), s.threads[t]? = some c →
    s.threads[u]? = some d → c.reached? = some p → d.reached? = some q → p.1.id = q.1.id → t = u
  tasks : ∀ task ∈ s.counted, ∀ id, task.call = some id → id < s.calls
  failed : s.failed ⊆ s.counted
  one : ∀ task ∈ s.recorded, ∀ other ∈ s.recorded, task.call = other.call
  right : ∀ entry ∈ s.returns, s.Right entry.1 entry.2

/-- A call that is over stays as it is. -/
theorem PoolState.Right.mono {s s' : PoolState} {call : ParallelCall}
    {outcome : Option ExceptionPtr} (h : s.Right call outcome)
    (hcompleted : s.completed ⊆ s'.completed) : s'.Right call outcome := by
  cases outcome with
  | none =>
    intro i hstart hstop
    obtain ⟨hfn, task, htask, hrest⟩ := h i hstart hstop
    exact ⟨hfn, task, hcompleted htask, hrest⟩
  | some error =>
    obtain ⟨i, hstart, hstop, hfn, task, htask, hrest⟩ := h
    exact ⟨i, hstart, hstop, hfn, task, hcompleted htask, hrest⟩

/-- The invocations of a chunk. -/
theorem ParallelCall.mem_chunk {call : ParallelCall} {id first grain : ℕ}
    {invocation : ℕ × Option ExceptionPtr} :
    invocation ∈ (call.chunk id first grain).invocations ↔
      first ≤ invocation.1 ∧ invocation.1 < call.chunkLast first grain ∧
        invocation.2 = call.fn invocation.1 := by
  simp only [ParallelCall.chunk, List.mem_map, List.mem_range'_1]
  constructor
  · rintro ⟨i, ⟨hfirst, hlast⟩, rfl⟩
    exact ⟨hfirst, by simp only; omega, rfl⟩
  · rintro ⟨hfirst, hlast, hfn⟩
    exact ⟨invocation.1, ⟨hfirst, by omega⟩, Prod.ext rfl hfn.symm⟩

/-- Where the end of a chunk does not overflow, the chunk ends there or with the range. -/
theorem ParallelCall.chunkLast_eq (call : ParallelCall) {first grain : ℕ}
    (h : first + grain < 2 ^ 64) : call.chunkLast first grain = min (first + grain) call.stop := by
  rw [ParallelCall.chunkLast, addU64, Nat.mod_eq_of_lt h]
  split <;> omega

/-- A task that threw did so in one of its invocations. -/
theorem Task.mem_of_outcome {task : Task} {error : ExceptionPtr}
    (h : task.outcome = some error) : ∃ i, (i, some error) ∈ task.invocations := by
  obtain ⟨invocation, hmem, hsnd⟩ := List.exists_of_findSome?_eq_some h
  exact ⟨invocation.1, by rw [← hsnd]; exact hmem⟩

/-- A task that did not throw made all its invocations. -/
theorem Task.eq_none_of_outcome {task : Task} (h : task.outcome = none)
    {invocation : ℕ × Option ExceptionPtr} (hmem : invocation ∈ task.invocations) :
    invocation.2 = none := List.findSome?_eq_none_iff.mp h invocation hmem

/-- A wait of a call has reached the end of the call's range. -/
theorem Control.reached?_of_wait {c : Control} {wait : Wait} {call : ParallelCall}
    (hwait : c.wait? = some wait) (hcall : wait.call = some call) :
    c.reached? = some (call, call.stop) := by
  have hreached : Wait.reached? c.wait? = some (call, call.stop) := by
    rw [hwait, Wait.reached?, Option.bind_some, hcall, Option.map_some]
  cases c with
  | looping _ _ _ _ => cases hwait
  | counted _ _ _ => cases hwait
  | pushing _ _ _ => cases hwait
  | _ => exact hreached

/-- A thread outside every call. -/
theorem PoolState.Engaged.of_none {s : PoolState} {c : Control} (h : c.reached? = none) :
    s.Engaged c := by
  have hnone : ∀ call first, c.reached? ≠ some (call, first) := fun call first => by
    rw [h]
    exact nofun
  exact ⟨fun call first hc => absurd hc (hnone call first),
    fun call first hc => absurd hc (hnone call first),
    fun call first hc => absurd hc (hnone call first),
    fun call first hc => absurd hc (hnone call first),
    fun wait call hwait hcall => absurd (Control.reached?_of_wait hwait hcall) (hnone _ _),
    fun call first hc => absurd hc (hnone call first)⟩

/-- A thread that has moved within its call. -/
theorem PoolState.Engaged.congr {s : PoolState} {c c' : Control} (h : s.Engaged c)
    (hreached : c'.reached? = c.reached?)
    (hwait : ∀ wait, c'.wait? = some wait → c.wait? = some wait ∨ wait.call = none) :
    s.Engaged c' := by
  refine ⟨hreached ▸ h.lt, hreached ▸ h.range, hreached ▸ h.chunks, hreached ▸ h.covered,
    fun wait call hw hcall => ?_, hreached ▸ h.unreported⟩
  rcases hwait wait hw with hold | hnone
  · exact h.waited wait call hold hcall
  · rw [hnone] at hcall
    exact absurd hcall nofun

/-- What other threads do leaves a call as it is, as long as they count and report no task of it. -/
theorem PoolState.Engaged.mono {s s' : PoolState} {c : Control} (h : s.Engaged c)
    (hcalls : s.calls ≤ s'.calls) (hcounted : s.counted ⊆ s'.counted)
    (hnew : ∀ call first, c.reached? = some (call, first) → ∀ task ∈ s'.counted,
      task.call = some call.id → task ∈ s.counted)
    (hreported : ∀ call first, c.reached? = some (call, first) → ∀ task ∈ s'.reported,
      task.call = some call.id → task ∈ s.reported) :
    s'.Engaged c := by
  refine ⟨fun call first hc => (h.lt call first hc).trans_le hcalls, h.range,
    fun call first hc task htask hcall =>
      h.chunks call first hc task (hnew call first hc task htask hcall) hcall,
    fun call first hc i hstart hfirst hstop => ?_, fun wait call hwait hcall task htask hid => ?_,
    fun call first hc task htask hid => ?_⟩
  · obtain ⟨task, htask, hrest⟩ := h.covered call first hc i hstart hfirst hstop
    exact ⟨task, hcounted htask, hrest⟩
  · have hc := Control.reached?_of_wait hwait hcall
    exact h.waited wait call hwait hcall task (hnew call _ hc task htask hid) hid
  · exact h.unreported call first hc task (hreported call first hc task htask hid) hid

/-- The call of a thread after a step is the one before, or a new one. -/
theorem PoolState.CallStep.call_cases {s : PoolState} {c c' : Control} {a : Act}
    (h : s.CallStep c a c') {q : ParallelCall × ℕ} (hq : c'.reached? = some q) :
    (∃ p, c.reached? = some p ∧ p.1 = q.1) ∨ q.1.id = s.calls := by
  cases h with
  | quiet ha hreached hwait => exact Or.inl ⟨q, hreached ▸ hq, rfl⟩
  | empty call hrange => cases hq
  | enter call grain hint hid hrange =>
    cases hq
    exact Or.inr hid
  | chunk call first grain hint hfirst =>
    cases hq
    exact Or.inl ⟨(call, first), rfl, rfl⟩
  | drain call first grain hint hfirst =>
    cases hq
    exact Or.inl ⟨(call, first), rfl, rfl⟩
  | record task error after => exact Or.inl ⟨q, hq, rfl⟩
  | rethrow wait => cases hq

/-- No two threads are in one call. -/
theorem PoolState.Parallel.distinct_step {s : PoolState} (h : s.Parallel) {t : ℕ}
    {c c' : Control} {a : Act} (hc : s.threads[t]? = some c) (hstep : s.CallStep c a c') :
    ∀ (u v : ℕ) (d e : Control) (p q : ParallelCall × ℕ), (s.threads.set t c')[u]? = some d →
      (s.threads.set t c')[v]? = some e → d.reached? = some p → e.reached? = some q →
      p.1.id = q.1.id → u = v := by
  -- the mover's call against another thread's
  have hmoved : ∀ (v : ℕ) (e : Control) (p q : ParallelCall × ℕ), s.threads[v]? = some e →
      c'.reached? = some p → e.reached? = some q → p.1.id = q.1.id → t = v := by
    intro v e p q he hp hq hid
    rcases hstep.call_cases hp with ⟨p₀, hp₀, hsame⟩ | hnew
    · exact h.distinct t v c e p₀ q hc he hp₀ hq (by rw [hsame]; exact hid)
    · have hlt := (h.threads e (List.mem_of_getElem? he)).lt q.1 q.2 hq
      omega
  intro u v d e p q hd he hp hq hid
  by_cases hu : t = u
  · by_cases hv : t = v
    · exact hu.symm.trans hv
    · rw [List.getElem?_set_ne hv] at he
      rw [← hu, List.getElem?_set_self (List.getElem?_eq_some_iff.mp hc).1] at hd
      exact hu.symm.trans (hmoved v e p q he (Option.some.inj hd ▸ hp) hq hid)
  · rw [List.getElem?_set_ne hu] at hd
    by_cases hv : t = v
    · rw [← hv, List.getElem?_set_self (List.getElem?_eq_some_iff.mp hc).1] at he
      exact (hmoved u d q p hd (Option.some.inj he ▸ hq) hp hid.symm).symm.trans hv
    · rw [List.getElem?_set_ne hv] at he
      exact h.distinct u v d e p q hd he hp hq hid

/-- The thread that moved and the others together are all threads. -/
theorem PoolState.engaged_advance {s : PoolState} {t : ℕ} {c c' : Control} {a : Act}
    (hc : s.threads[t]? = some c) (hself : (s.advance t a c').Engaged c')
    (hother : ∀ (u : ℕ) (d : Control), t ≠ u → s.threads[u]? = some d →
      (s.advance t a c').Engaged d) :
    ∀ d ∈ (s.advance t a c').threads, (s.advance t a c').Engaged d := by
  intro d hd
  obtain ⟨u, hu⟩ := List.mem_iff_getElem?.mp hd
  by_cases htu : t = u
  · rw [PoolState.advance, ← htu,
      List.getElem?_set_self (List.getElem?_eq_some_iff.mp hc).1] at hu
    exact Option.some.inj hu ▸ hself
  · rw [PoolState.advance, List.getElem?_set_ne htu] at hu
    exact hother u d htu hu

/-- A quiet step counts at most a task that is of no call, and changes no other account. -/
theorem PoolState.act_quiet (s : PoolState) {a : Act} (ha : a.Quiet) :
    (s.act a).calls = s.calls ∧ (s.act a).reported = s.reported ∧
      (s.act a).recorded = s.recorded ∧ (s.act a).returns = s.returns ∧
      s.counted ⊆ (s.act a).counted ∧
      ∀ task ∈ (s.act a).counted, task ∈ s.counted ∨ task.call = none := by
  cases a with
  | count task =>
    refine ⟨rfl, rfl, rfl, rfl, List.subset_append_left _ _, fun other hother => ?_⟩
    rcases List.mem_append.mp hother with hold | hnew
    · exact Or.inl hold
    · exact Or.inr (by rw [List.mem_singleton.mp hnew]; exact ha)
  | enter => exact absurd ha id
  | enterEmpty call => exact absurd ha id
  | record task error => exact absurd ha id
  | rethrow wait => exact absurd ha id
  | _ => exact ⟨rfl, rfl, rfl, rfl, List.Subset.refl _, fun task htask => Or.inl htask⟩

/-- A quiet step. -/
theorem PoolState.Parallel.quiet {s : PoolState} (h : s.Parallel) {t : ℕ} {c c' : Control}
    {a : Act} (hc : s.threads[t]? = some c) (ha : a.Quiet) (hreached : c'.reached? = c.reached?)
    (hwait : ∀ wait, c'.wait? = some wait → c.wait? = some wait ∨ wait.call = none) :
    (s.advance t a c').Parallel := by
  obtain ⟨hcalls, hreported, hrecorded, hreturns, hcounted, hnew⟩ := s.act_quiet ha
  have hkeep : ∀ d, s.Engaged d → (s.advance t a c').Engaged d := fun d hd =>
    hd.mono hcalls.ge hcounted
      (fun call first _ task htask hcall => (hnew task htask).resolve_right
        fun hnone => by rw [hnone] at hcall; exact absurd hcall nofun)
      (fun call first _ task htask _ => hreported ▸ htask)
  have hengaged := h.threads c (List.mem_of_getElem? hc)
  refine ⟨PoolState.engaged_advance hc (hkeep c' (hengaged.congr hreached hwait))
      fun u d _ hd => hkeep d (h.threads d (List.mem_of_getElem? hd)),
    h.distinct_step hc (.quiet ha hreached hwait), fun task htask id hid => ?_, ?_, ?_, ?_⟩
  · rcases hnew task htask with hold | hnone
    · exact (h.tasks task hold id hid).trans_le hcalls.ge
    · rw [hnone] at hid
      exact absurd hid nofun
  · intro task htask
    simp only [PoolState.failed, PoolState.advance, hrecorded, hreported] at htask
    exact hcounted (h.failed htask)
  · intro task htask other hother
    simp only [PoolState.advance, hrecorded] at htask hother
    exact h.one task htask other hother
  · intro entry hentry
    simp only [PoolState.advance, hreturns] at hentry
    exact (h.right entry hentry).mono (s.completed_subset_act a)

/-- A call over an empty range. -/
theorem PoolState.Parallel.empty {s : PoolState} (h : s.Parallel) {t : ℕ}
    (hc : s.threads[t]? = some .idle) {call : ParallelCall} (hrange : call.stop ≤ call.start) :
    (s.advance t (.enterEmpty call) .idle).Parallel := by
  have hkeep : ∀ d, s.Engaged d → (s.advance t (.enterEmpty call) .idle).Engaged d := fun d hd =>
    hd.mono (Nat.le_succ _) (List.Subset.refl _) (fun _ _ _ _ htask _ => htask)
      (fun _ _ _ _ htask _ => htask)
  refine ⟨PoolState.engaged_advance hc (.of_none rfl)
      fun u d _ hd => hkeep d (h.threads d (List.mem_of_getElem? hd)),
    h.distinct_step hc (.empty call hrange),
    fun task htask id hid => (h.tasks task htask id hid).trans (Nat.lt_succ_self _), h.failed,
    h.one, fun entry hentry => ?_⟩
  rcases List.mem_append.mp hentry with hold | hnew
  · exact (h.right entry hold).mono (List.Subset.refl _)
  · rw [List.mem_singleton.mp hnew]
    exact fun i hstart hstop => absurd (hstart.trans_lt hstop) (not_lt.mpr hrange)

/-- A call is entered. -/
theorem PoolState.Parallel.enter {s : PoolState} (h : s.Parallel) {t : ℕ}
    (hc : s.threads[t]? = some .idle) {call : ParallelCall} (hid : call.id = s.calls)
    (hrange : call.start < call.stop) (grain hint : ℕ) :
    (s.advance t .enter (.looping call call.start grain hint)).Parallel := by
  have hfresh : ∀ task ∈ s.counted, task.call ≠ some call.id := fun task htask hcall =>
    absurd (h.tasks task htask _ hcall) (by rw [hid]; exact lt_irrefl _)
  have hself : (s.advance t .enter (.looping call call.start grain hint)).Engaged
      (.looping call call.start grain hint) := by
    refine ⟨fun p first hp => ?_, fun p first hp => ?_, fun p first hp task htask hcall => ?_,
      fun p first hp i hstart hfirst _ => ?_, nofun, fun p first hp task htask hcall => ?_⟩
    · cases hp
      rw [hid]
      exact Nat.lt_succ_self _
    · cases hp
      exact ⟨le_rfl, hrange⟩
    · cases hp
      exact absurd hcall (hfresh task htask)
    · cases hp
      exact absurd hfirst (not_lt.mpr hstart)
    · cases hp
      exact hfresh task (h.failed (List.mem_append_right _ htask)) hcall
  refine ⟨PoolState.engaged_advance hc hself fun u d _ hd =>
      (h.threads d (List.mem_of_getElem? hd)).mono (Nat.le_succ _) (List.Subset.refl _)
        (fun _ _ _ _ htask _ => htask) (fun _ _ _ _ htask _ => htask),
    h.distinct_step hc (.enter call grain hint hid hrange),
    fun task htask id hcall => (h.tasks task htask id hcall).trans (Nat.lt_succ_self _), h.failed,
    h.one, h.right⟩

/-- A chunk of a call is counted. -/
theorem PoolState.Parallel.chunk {s : PoolState} (h : s.Parallel) {t : ℕ} {call : ParallelCall}
    {first grain hint : ℕ} (hc : s.threads[t]? = some (.looping call first grain hint))
    (hfirst : first < call.stop) (hgrain : first + grain < 2 ^ 64) :
    (s.advance t (.count (call.chunk s.counted.length first grain))
      (.counted (call.chunk s.counted.length first grain) hint
        (.chunks call (addU64 first grain) grain (addU64 hint 1)))).Parallel := by
  have hengaged := h.threads _ (List.mem_of_getElem? hc)
  have hlast := call.chunkLast_eq hgrain
  have hadd : addU64 first grain = first + grain := Nat.mod_eq_of_lt hgrain
  have hrange := hengaged.range call first rfl
  have hchunk : call.Chunk (call.chunk s.counted.length first grain) := by
    intro invocation hmem
    rw [ParallelCall.mem_chunk, hlast] at hmem
    exact ⟨hrange.1.trans hmem.1, hmem.2.1.trans_le (min_le_right _ _), hmem.2.2⟩
  have hself : (s.advance t (.count (call.chunk s.counted.length first grain))
      (.counted (call.chunk s.counted.length first grain) hint
        (.chunks call (addU64 first grain) grain (addU64 hint 1)))).Engaged
      (.counted (call.chunk s.counted.length first grain) hint
        (.chunks call (addU64 first grain) grain (addU64 hint 1))) := by
    refine ⟨fun p reached hp => ?_, fun p reached hp => ?_, fun p reached hp task htask hcall => ?_,
      fun p reached hp i hstart hreached hstop => ?_, nofun, fun p reached hp => ?_⟩
    · cases hp
      exact hengaged.lt call first rfl
    · cases hp
      rw [hadd]
      exact ⟨hrange.1.trans (Nat.le_add_right _ _), hrange.2⟩
    · cases hp
      rcases List.mem_append.mp htask with hold | hnew
      · exact hengaged.chunks call first rfl task hold hcall
      · rw [List.mem_singleton.mp hnew]
        exact hchunk
    · cases hp
      rw [hadd] at hreached
      by_cases hi : i < first
      · obtain ⟨task, htask, hrest⟩ := hengaged.covered call first rfl i hstart hi hstop
        exact ⟨task, List.mem_append_left _ htask, hrest⟩
      · refine ⟨_, List.mem_append_right _ (List.mem_singleton_self _), rfl, ?_⟩
        rw [ParallelCall.mem_chunk, hlast]
        exact ⟨not_lt.mp hi, lt_min hreached hstop, rfl⟩
    · cases hp
      exact hengaged.unreported call first rfl
  refine ⟨PoolState.engaged_advance hc hself fun u d htu hd => ?_,
    h.distinct_step hc (.chunk call first grain hint hfirst), fun task htask id hid => ?_,
    List.Subset.trans h.failed (List.subset_append_left _ _), h.one, h.right⟩
  · refine (h.threads d (List.mem_of_getElem? hd)).mono le_rfl (List.subset_append_left _ _)
      (fun p reached hp task htask hcall => ?_) (fun _ _ _ _ htask _ => htask)
    rcases List.mem_append.mp htask with hold | hnew
    · exact hold
    · rw [List.mem_singleton.mp hnew] at hcall
      exact absurd (h.distinct t u _ d (call, first) (p, reached) hc hd rfl hp
        (Option.some.inj hcall)) htu
  · rcases List.mem_append.mp htask with hold | hnew
    · exact h.tasks task hold id hid
    · rw [List.mem_singleton.mp hnew] at hid
      exact Option.some.inj hid ▸ hengaged.lt call first rfl

/-- The chunk loop of a call ends and its wait begins. -/
theorem PoolState.Parallel.drain {s : PoolState} (h : s.Parallel) (hlocated : s.Located) {t : ℕ}
    {call : ParallelCall} {first grain hint : ℕ}
    (hc : s.threads[t]? = some (.looping call first grain hint)) (hfirst : ¬ first < call.stop) :
    (s.advance t .silent (.draining ⟨s.counted.length, some call⟩)).Parallel := by
  have hengaged := h.threads _ (List.mem_of_getElem? hc)
  have hrange := hengaged.range call first rfl
  have hids : ∀ task ∈ s.counted, task.id < s.counted.length := fun task htask => by
    have hmem := List.mem_map_of_mem (f := Task.id) htask
    rw [hlocated.ids] at hmem
    exact List.mem_range.mp hmem
  have hself : (s.advance t .silent (.draining ⟨s.counted.length, some call⟩)).Engaged
      (.draining ⟨s.counted.length, some call⟩) := by
    refine ⟨fun p reached hp => ?_, fun p reached hp => ?_, fun p reached hp => ?_,
      fun p reached hp i hstart hreached hstop => ?_, fun wait p hwait hcall task htask _ => ?_,
      fun p reached hp => ?_⟩
    · cases hp
      exact hengaged.lt call first rfl
    · cases hp
      exact ⟨hrange.2.le, hrange.2⟩
    · cases hp
      exact hengaged.chunks call first rfl
    · cases hp
      exact hengaged.covered call first rfl i hstart (hstop.trans_le (not_lt.mp hfirst)) hstop
    · cases hwait
      exact hids task htask
    · cases hp
      exact hengaged.unreported call first rfl
  exact ⟨PoolState.engaged_advance hc hself fun u d _ hd =>
      (h.threads d (List.mem_of_getElem? hd)).mono le_rfl (List.Subset.refl _)
        (fun _ _ _ _ htask _ => htask) (fun _ _ _ _ htask _ => htask),
    h.distinct_step hc (.drain call first grain hint hfirst), h.tasks, h.failed, h.one, h.right⟩

/-- The failures in the slot's account are of one call, the one whose failure is in the slot. -/
theorem PoolState.Parallel.call_of_head {s : PoolState} (h : s.Parallel) {id : Option ℕ}
    (hhead : ∀ other ∈ s.recorded.head?, other.call = id) {task : Task}
    (htask : task ∈ s.recorded) : task.call = id := by
  cases hrecorded : s.recorded with
  | nil => exact absurd (hrecorded ▸ htask) List.not_mem_nil
  | cons head rest =>
    have hmem : head ∈ s.recorded := by rw [hrecorded]; exact List.mem_cons_self
    rw [h.one task htask head hmem]
    exact hhead head (by rw [hrecorded]; rfl)

/-- A failure is recorded. -/
theorem PoolState.Parallel.record {s : PoolState} (h : s.Parallel) (hlocated : s.Located) {t : ℕ}
    {task : Task} {error : ExceptionPtr} {after : AfterTask}
    (hc : s.threads[t]? = some (.recording task error after))
    (hhead : ∀ other ∈ s.recorded.head?, other.call = task.call) :
    (s.advance t (.record task error) (.executing task after)).Parallel := by
  have hkeep : ∀ d, s.Engaged d →
      (s.advance t (.record task error) (.executing task after)).Engaged d := fun d hd =>
    hd.mono le_rfl (List.Subset.refl _) (fun _ _ _ _ hmem _ => hmem) (fun _ _ _ _ hmem _ => hmem)
  have hcounted : task ∈ s.counted := by
    have hheld : task ∈ s.inFlight := List.mem_flatMap.mpr
      ⟨_, List.mem_of_getElem? hc, List.mem_singleton_self _⟩
    exact hlocated.placed.mem_iff.mp (List.mem_append_left _ (List.mem_append_right _ hheld))
  have hcall : ∀ other ∈ s.recorded ++ [task], other.call = task.call := by
    intro other hother
    rcases List.mem_append.mp hother with hold | hnew
    · exact h.call_of_head hhead hold
    · rw [List.mem_singleton.mp hnew]
  have hengaged := h.threads _ (List.mem_of_getElem? hc)
  refine ⟨PoolState.engaged_advance hc
      (hkeep _ (hengaged.congr rfl fun _ hwait => Or.inl hwait))
      fun u d _ hd => hkeep d (h.threads d (List.mem_of_getElem? hd)),
    h.distinct_step hc (.record task error after), h.tasks, ?_,
    fun p hp q hq => (hcall p hp).trans (hcall q hq).symm, h.right⟩
  intro other hother
  rcases List.mem_append.mp hother with hrecorded | hreported
  · rcases List.mem_append.mp hrecorded with hold | hnew
    · exact h.failed (List.mem_append_left _ hold)
    · rw [List.mem_singleton.mp hnew]
      exact hcounted
  · exact h.failed (List.mem_append_right _ hreported)

/-- A call whose wait finds nothing in the slot, or a failure of its own, ends as it should. -/
theorem PoolState.Parallel.right_of_rethrow {s : PoolState} (h : s.Parallel)
    (hsurfaced : s.Surfaced) {wait : Wait} {call : ParallelCall}
    (hengaged : s.Engaged (.rethrowing wait)) (hwaits : s.Waits (.rethrowing wait))
    (hcall : wait.call = some call)
    (hhead : ∀ other ∈ s.recorded.head?, other.call = some call.id) :
    s.Right call s.pool.firstException := by
  have hreached : (Control.rethrowing wait).reached? = some (call, call.stop) :=
    Control.reached?_of_wait rfl hcall
  have hcompleted : ∀ task ∈ s.counted, task.call = some call.id → task ∈ s.completed :=
    fun task htask hid => hwaits.drained wait rfl task htask
      (hengaged.waited wait call rfl hcall task htask hid)
  cases hrecorded : s.recorded with
  | nil =>
    -- no failure of this call is recorded, so none of its tasks failed
    have hnone : s.pool.firstException = none := by rw [hsurfaced.first, hrecorded]; rfl
    rw [hnone]
    intro i hstart hstop
    obtain ⟨task, htask, hid, hmem⟩ := hengaged.covered call _ hreached i hstart hstop hstop
    have hdone := hcompleted task htask hid
    have houtcome : task.outcome = none := by
      by_contra hne
      have hfailed := hsurfaced.completed task hdone hne
      rw [PoolState.failed, hrecorded, List.nil_append] at hfailed
      exact hengaged.unreported call _ hreached task hfailed hid
    have hfn : call.fn i = none := task.eq_none_of_outcome houtcome hmem
    exact ⟨hfn, task, hdone, hid, houtcome, hfn ▸ hmem⟩
  | cons task rest =>
    -- the failure in the slot is of this call
    have hmem : task ∈ s.recorded := by rw [hrecorded]; exact List.mem_cons_self
    have hid := h.call_of_head hhead hmem
    have hcounted := h.failed (List.mem_append_left _ hmem)
    obtain ⟨error, herror⟩ := Option.ne_none_iff_exists'.mp (hsurfaced.failures task hmem)
    have hfirst : s.pool.firstException = some error := by
      rw [hsurfaced.first, hrecorded]
      exact herror
    rw [hfirst]
    obtain ⟨i, hi⟩ := task.mem_of_outcome herror
    obtain ⟨hstart, hstop, hfn⟩ := hengaged.chunks call _ hreached task hcounted hid _ hi
    exact ⟨i, hstart, hstop, hfn.symm, task, hcompleted task hcounted hid, hid, herror, hi⟩

/-- A wait ends. -/
theorem PoolState.Parallel.rethrow {s : PoolState} (h : s.Parallel) (hsurfaced : s.Surfaced)
    (hwaits : ∀ c ∈ s.threads, s.Waits c) {t : ℕ} {wait : Wait}
    (hc : s.threads[t]? = some (.rethrowing wait))
    (hhead : ∀ other ∈ s.recorded.head?, other.call = wait.call.map ParallelCall.id) :
    (s.advance t (.rethrow wait) .idle).Parallel := by
  have hmem := List.mem_of_getElem? hc
  refine ⟨PoolState.engaged_advance hc (.of_none rfl) fun u d htu hd => ?_,
    h.distinct_step hc (.rethrow wait), h.tasks, ?_, nofun, fun entry hentry => ?_⟩
  · refine (h.threads d (List.mem_of_getElem? hd)).mono le_rfl (List.Subset.refl _)
      (fun _ _ _ _ htask _ => htask) (fun p reached hp task htask hid => ?_)
    rcases List.mem_append.mp htask with hold | hnew
    · exact hold
    · -- what this wait reports is of its own call, not of another thread's
      have hown := (h.call_of_head hhead hnew).symm.trans hid
      obtain ⟨call, hcall, hsame⟩ := Option.map_eq_some_iff.mp hown
      exact absurd (h.distinct t u _ d (call, call.stop) (p, reached) hc hd
        (Control.reached?_of_wait rfl hcall) hp hsame) htu
  · intro task htask
    have hmoved : task ∈ s.reported ++ s.recorded := htask
    exact h.failed (List.mem_append.mpr (List.mem_append.mp hmoved).symm)
  · cases hcall : wait.call with
    | none =>
      simp only [PoolState.advance, PoolState.act, hcall] at hentry
      exact (h.right entry hentry).mono (List.Subset.refl _)
    | some call =>
      simp only [PoolState.advance, PoolState.act, hcall] at hentry
      rcases List.mem_append.mp hentry with hold | hnew
      · exact (h.right entry hold).mono (List.Subset.refl _)
      · rw [List.mem_singleton.mp hnew]
        rw [hcall] at hhead
        exact (h.right_of_rethrow hsurfaced (h.threads _ hmem) (hwaits _ hmem) hcall hhead).mono
          (List.Subset.refl _)

/-- One step that does not mix up two calls. -/
theorem PoolState.Parallel.step {s s' : PoolState} (h : s.Parallel) (hlocated : s.Located)
    (hsurfaced : s.Surfaced) (hwaits : ∀ c ∈ s.threads, s.Waits c) {t : ℕ} {choice : Choice}
    (hok : s.Separate t choice) (hstep : s.step t choice = some s') : s'.Parallel := by
  obtain ⟨c, a, c', hc, htransition, rfl⟩ := PoolState.step_cases hstep
  have hcalls := s.transition_callStep t choice c
  rw [htransition] at hcalls
  have hat : s.SeparateAt c := hok c hc
  cases hcalls with
  | quiet ha hreached hwait => exact h.quiet hc ha hreached hwait
  | empty call hrange => exact h.empty hc hrange
  | enter call grain hint hid hrange => exact h.enter hc hid hrange grain hint
  | chunk call first grain hint hfirst => exact h.chunk hc hfirst (hat hfirst)
  | drain call first grain hint hfirst => exact h.drain hlocated hc hfirst
  | record task error after => exact h.record hlocated hc hat
  | rethrow wait => exact h.rethrow hsurfaced hwaits hc hat

/-- No call has been made on a new pool. -/
theorem PoolState.Parallel.start (threads : ℕ) (queueGroups : List ℕ) (clients : ℕ) :
    (PoolState.start threads queueGroups clients).Parallel := by
  have houtside : ∀ c ∈ (PoolState.start threads queueGroups clients).threads,
      c.reached? = none := by
    intro c hc
    rcases List.mem_append.mp hc with hmem | hmem
    · rw [List.eq_of_mem_replicate hmem]
      rfl
    · rw [List.eq_of_mem_replicate hmem]
      rfl
  refine ⟨fun c hc => .of_none (houtside c hc), fun t u c d p q hc _ hp => ?_, nofun, nofun, nofun,
    nofun⟩
  rw [houtside c (List.mem_of_getElem? hc)] at hp
  exact absurd hp nofun

/-- In every interleaving whose steps do not mix up two calls, a call of `parallel_for` that
returns normally had each of its invocations complete without throwing, and a call that throws
rethrows an exception of one of its own. -/
theorem PoolState.parallel_for_reports (threads : ℕ) (queueGroups : List ℕ) (clients : ℕ)
    (s : PoolState) (h : Run PoolState.Separate (PoolState.start threads queueGroups clients) s) :
    ∀ entry ∈ s.returns, s.Right entry.1 entry.2 := by
  have hparallel : s.Parallel := by
    induction h with
    | refl => exact .start threads queueGroups clients
    | step hrun hok hstep ih =>
      have hlocated := PoolState.Located.run hrun (.start threads queueGroups clients)
      exact ih.step hlocated (.run hrun (.start threads queueGroups clients))
        (.run hrun (.start threads queueGroups clients) (.start threads queueGroups clients))
        hok hstep
  exact hparallel.right

/-- One client calls `parallel_for` over one index, takes the task itself and gets its exception. -/
theorem PoolState.parallel_for_reports_throw :
    ∃ s, Run PoolState.Separate (PoolState.start 1 [] 1) s ∧
      s.returns = [(⟨0, 0, 1, fun _ => some 7⟩, some 7)] ∧
      s.Right ⟨0, 0, 1, fun _ => some 7⟩ (some 7) := by
  have hsteps : ∃ s, (PoolState.start 1 [] 1).steps PoolState.Separate
      [(1, .parallelFor 0 1 (fun _ => some 7) 1), (1, .proceed), (1, .proceed), (1, .proceed),
       (1, .proceed), (1, .proceed), (1, .proceed), (1, .proceed), (1, .proceed), (1, .proceed),
       (1, .proceed), (1, .proceed), (1, .proceed)] = some s ∧
      s.returns = [(⟨0, 0, 1, fun _ => some 7⟩, some 7)] :=
    ⟨_, rfl, rfl⟩
  obtain ⟨s, hs, hreturns⟩ := hsteps
  have hrun := Run.append_steps .refl hs
  have hall := PoolState.parallel_for_reports 1 [] 1 s hrun
  exact ⟨s, hrun, hreturns, hall (⟨0, 0, 1, fun _ => some 7⟩, some 7)
    (by rw [hreturns]; exact List.mem_cons_self)⟩

/-- Two clients call `parallel_for` over one index each, and only the first one's throws. Both
tasks are complete before the second caller reaches the slot: it throws the other's exception,
and the first then returns normally. -/
theorem PoolState.not_parallel_for_reports :
    ¬ ∀ (threads : ℕ) (queueGroups : List ℕ) (clients : ℕ) (s : PoolState),
      Reachable (PoolState.start threads queueGroups clients) s →
      ∀ entry ∈ s.returns, s.Right entry.1 entry.2 := by
  intro h
  have hsteps : ∃ s, (PoolState.start 1 [] 2).steps (fun _ _ _ => True)
      [(1, .parallelFor 0 1 (fun _ => some 7) 1), (1, .proceed), (1, .proceed), (1, .proceed),
       (1, .proceed), (0, .proceed), (0, .proceed), (0, .proceed), (0, .proceed), (0, .proceed),
       (0, .proceed), (2, .parallelFor 0 1 (fun _ => none) 1), (2, .proceed), (2, .proceed),
       (2, .proceed), (2, .proceed), (0, .proceed), (0, .proceed), (0, .proceed), (0, .proceed),
       (0, .proceed), (2, .proceed), (2, .proceed), (1, .proceed), (1, .proceed)] = some s ∧
      s.returns = [(⟨1, 0, 1, fun _ => none⟩, some 7), (⟨0, 0, 1, fun _ => some 7⟩, none)] :=
    ⟨_, rfl, rfl⟩
  obtain ⟨s, hs, hreturns⟩ := hsteps
  have hright := h 1 [] 2 s (Run.append_steps .refl hs) (⟨0, 0, 1, fun _ => some 7⟩, none)
    (by rw [hreturns]; exact List.mem_cons_of_mem _ List.mem_cons_self)
  exact absurd (hright 0 le_rfl Nat.one_pos).1 nofun

end VeloGraphX
