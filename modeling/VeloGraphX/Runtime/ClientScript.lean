import Mathlib
import VeloGraphX.Runtime.WaitIdle

/-!
# A thread that submits tasks and waits for them

Other threads submit, wait and take tasks at the same time. Whatever the interleaving, when the
thread's wait ends the tasks it submitted are complete, and each of them has run once.
-/

namespace VeloGraphX

/-- A call of `submit`: what the task invokes, and the hint. -/
structure Submission where
  invocations : List (ℕ × Option ExceptionPtr)
  hint : ℕ

/-- The call a client makes. -/
def Submission.choice (submission : Submission) : Choice :=
  .submit submission.invocations submission.hint

/-- The calls of a thread that submits tasks in order and then waits. -/
def submitAndWait (submissions : List Submission) : List Choice :=
  submissions.map Submission.choice ++ [.waitIdle]

/-- The interleavings in which thread `t` makes the calls of a script in order, with the calls it has
not made yet and the tasks that were counted for it. Every other thread does what it likes. -/
inductive Follows (t : ℕ) (s₀ : PoolState) (script : List Choice) :
    PoolState → List Choice → List Task → Prop
  | start : Follows t s₀ script s₀ script []
  | other {s s' : PoolState} {rest : List Choice} {mine : List Task} {u : ℕ} {choice : Choice} :
      Follows t s₀ script s rest mine → u ≠ t → s.step u choice = some s' →
        Follows t s₀ script s' rest mine
  | call {s s' : PoolState} {rest : List Choice} {mine : List Task} {choice : Choice} :
      Follows t s₀ script s (choice :: rest) mine → s.threads[t]? = some .idle →
        s.step t choice = some s' →
        Follows t s₀ script s' rest (mine ++ s'.counted.drop s.counted.length)
  | proceed {s s' : PoolState} {rest : List Choice} {mine : List Task} {c : Control} :
      Follows t s₀ script s rest mine → s.threads[t]? = some c → c ≠ .idle →
        s.step t .proceed = some s' →
        Follows t s₀ script s' rest (mine ++ s'.counted.drop s.counted.length)

variable {t : ℕ} {s₀ s s' : PoolState} {script rest : List Choice} {mine : List Task}
  {submissions : List Submission} {c : Control}

/-- A thread that follows a script takes part in an interleaving. -/
theorem Follows.run (h : Follows t s₀ script s rest mine) : Reachable s₀ s := by
  induction h with
  | start => exact .refl
  | other _ _ hstep ih => exact ih.step trivial hstep
  | call _ _ hstep ih => exact ih.step trivial hstep
  | proceed _ _ _ hstep ih => exact ih.step trivial hstep

/-- Where a thread stands in a call of `submit`, and between two of them. -/
def Control.Submitting : Control → Prop
  | .idle | .counted _ _ .returned | .pushing _ _ .returned => True
  | _ => False

/-- The thread is in a wait that began after all of `mine` were counted, or the wait has ended, and
they are complete. -/
def Control.Awaits (s : PoolState) (mine : List Task) (c : Control) : Prop :=
  (∃ wait, c.wait? = some wait ∧ ∀ task ∈ mine, task.id < wait.since) ∨
    c = .idle ∧ ∀ task ∈ mine, task ∈ s.completed

/-- A call of `submit` counts no second task, and ends. -/
theorem Control.Submitting.transition (h : c.Submitting) (hbusy : c ≠ .idle) (t : ℕ) :
    (s.transition t .proceed c).2.Submitting ∧
      (s.act (s.transition t .proceed c).1).counted = s.counted := by
  cases c with
  | idle => exact absurd rfl hbusy
  | counted task hint after =>
    cases after with
    | returned => exact ⟨trivial, rfl⟩
    | chunks call first grain hint => exact absurd h id
  | pushing task hint after =>
    cases after with
    | returned => exact ⟨trivial, rfl⟩
    | chunks call first grain hint => exact absurd h id
  | _ => exact absurd h id

/-- A search for a task counts none. -/
theorem takeOr_counted {found : Option Task} {a : Act} {after : AfterTask} {otherwise : Control}
    (ha : (s.act a).counted = s.counted) :
    (s.act (takeOr found a after otherwise).1).counted = s.counted := by
  cases found with
  | none => rfl
  | some task => exact ha

/-- A thread stays in its wait until it throws or returns, and counts no task. -/
theorem PoolState.transition_of_wait? {wait : Wait} (hwait : c.wait? = some wait) (t : ℕ)
    (choice : Choice) : ((s.transition t choice c).2.wait? = some wait ∨
        c = .rethrowing wait ∧ (s.transition t choice c).2 = .idle) ∧
      (s.act (s.transition t choice c).1).counted = s.counted := by
  cases c with
  | draining entered =>
    refine ⟨Or.inl ?_, rfl⟩
    simp only [PoolState.transition]
    split <;> exact hwait
  | popAny entered i =>
    simp only [PoolState.transition]
    split
    · exact ⟨Or.inl ((takeOr_wait? rfl).trans hwait), takeOr_counted rfl⟩
    · exact ⟨Or.inl hwait, rfl⟩
  | waiting entered => exact ⟨Or.inl hwait, rfl⟩
  | rethrowing entered => exact ⟨Or.inr ⟨congrArg _ (Option.some.inj hwait), rfl⟩, rfl⟩
  | running task after =>
    refine ⟨Or.inl ?_, rfl⟩
    simp only [PoolState.transition]
    split <;> exact hwait
  | recording task error after => exact ⟨Or.inl hwait, rfl⟩
  | executing task after => exact ⟨Or.inl hwait, rfl⟩
  | retiring task after => exact ⟨Or.inl (after.control_wait?.trans hwait), rfl⟩
  | _ => exact absurd hwait (Option.some_ne_none wait).symm

/-- What a thread that submits tasks and waits for them keeps: the tasks counted for it are those of
the calls it has made, and once its wait has begun they are all of them. -/
structure Keeps (t : ℕ) (submissions : List Submission) (s : PoolState) (rest : List Choice)
    (mine : List Task) : Prop where
  listed : mine.Sublist s.counted
  phase :
    (∃ done later, done ++ later = submissions ∧ rest = submitAndWait later ∧
      mine.map Task.invocations = done.map Submission.invocations ∧
      ∃ c, s.threads[t]? = some c ∧ c.Submitting) ∨
    rest = [] ∧ mine.map Task.invocations = submissions.map Submission.invocations ∧
      ∃ c, s.threads[t]? = some c ∧ c.Awaits s mine

/-- The tasks so far come first among those after a step. -/
theorem PoolState.counted_prefix_act (s : PoolState) (a : Act) : s.counted <+: (s.act a).counted := by
  cases a with
  | count task => exact List.prefix_append _ _
  | _ => exact List.prefix_rfl

/-- Another thread's step. -/
theorem Keeps.other (h : Keeps t submissions s rest mine) {u : ℕ} (hu : u ≠ t) {choice : Choice}
    (hstep : s.step u choice = some s') : Keeps t submissions s' rest mine := by
  obtain ⟨c, a, c', hc, -, rfl⟩ := PoolState.step_cases hstep
  have hthread : (s.advance u a c').threads[t]? = s.threads[t]? := List.getElem?_set_ne hu
  refine ⟨h.listed.trans (s.counted_prefix_act a).sublist, ?_⟩
  rcases h.phase with ⟨done, later, hsplit, hrest, hmine, hphase⟩ | ⟨hrest, hmine, d, hd, hawaits⟩
  · exact Or.inl ⟨done, later, hsplit, hrest, hmine, hthread ▸ hphase⟩
  · refine Or.inr ⟨hrest, hmine, d, hthread.trans hd, hawaits.imp_right fun hidle => ?_⟩
    exact ⟨hidle.1, fun task htask => s.completed_subset_act a (hidle.2 task htask)⟩

/-- The thread's next call. -/
theorem Keeps.call {choice : Choice} (h : Keeps t submissions s (choice :: rest) mine)
    (hlocated : s.Located) (hidle : s.threads[t]? = some .idle)
    (hstep : s.step t choice = some s') :
    Keeps t submissions s' rest (mine ++ s'.counted.drop s.counted.length) := by
  obtain ⟨c, a, c', hc, htransition, rfl⟩ := PoolState.step_cases hstep
  obtain rfl : Control.idle = c := Option.some.inj (hidle.symm.trans hc)
  have hthread : (s.advance t a c').threads[t]? = some c' :=
    List.getElem?_set_self (List.getElem?_eq_some_iff.mp hc).1
  rcases h.phase with ⟨done, later, hsplit, hrest, hmine, -⟩ | ⟨hrest, -⟩
  · cases later with
    | nil =>
      obtain ⟨rfl, rfl⟩ := List.cons.inj hrest
      obtain ⟨rfl, rfl⟩ := Prod.mk.inj htransition
      rw [List.append_nil] at hsplit
      have hdrop : (s.advance t .silent (.draining ⟨s.counted.length, none⟩)).counted.drop
          s.counted.length = [] := List.drop_length
      rw [hdrop, List.append_nil]
      refine ⟨h.listed, Or.inr ⟨rfl, hsplit ▸ hmine, _, hthread, Or.inl ⟨_, rfl, ?_⟩⟩⟩
      intro task htask
      have hid : task.id ∈ s.counted.map Task.id := List.mem_map_of_mem (h.listed.subset htask)
      rw [hlocated.ids] at hid
      exact List.mem_range.mp hid
    | cons submission later =>
      obtain ⟨rfl, rfl⟩ := List.cons.inj hrest
      obtain ⟨rfl, rfl⟩ := Prod.mk.inj htransition
      have hdrop : (s.counted ++ [(⟨s.counted.length, none, submission.invocations⟩ : Task)]).drop
          s.counted.length = [⟨s.counted.length, none, submission.invocations⟩] := List.drop_left
      refine ⟨?_, Or.inl ⟨done ++ [submission], later, ?_, rfl, ?_, _, hthread, trivial⟩⟩
      · exact List.Sublist.append h.listed (hdrop ▸ List.Sublist.refl _)
      · rw [List.append_assoc, List.singleton_append, hsplit]
      · rw [List.map_append, List.map_append, hmine]
        exact congrArg (_ ++ List.map Task.invocations ·) hdrop
  · exact absurd hrest (List.cons_ne_nil _ _)

/-- The thread's next step in a call. -/
theorem Keeps.proceed (h : Keeps t submissions s rest mine) (hwaits : ∀ c ∈ s.threads, s.Waits c)
    (hc : s.threads[t]? = some c) (hbusy : c ≠ .idle) (hstep : s.step t .proceed = some s') :
    Keeps t submissions s' rest (mine ++ s'.counted.drop s.counted.length) := by
  obtain ⟨d, a, c', hd, htransition, rfl⟩ := PoolState.step_cases hstep
  obtain rfl : c = d := Option.some.inj (hc.symm.trans hd)
  have hthread : (s.advance t a c').threads[t]? = some c' :=
    List.getElem?_set_self (List.getElem?_eq_some_iff.mp hc).1
  have hnone : (s.act a).counted = s.counted → (s.advance t a c').counted.drop s.counted.length = [] :=
    fun hcounted => by
      rw [show (s.advance t a c').counted = s.counted from hcounted, List.drop_length]
  rcases h.phase with ⟨done, later, hsplit, hrest, hmine, d, hd, hsubmit⟩ |
    ⟨hrest, hmine, d, hd, hawaits⟩
  · obtain rfl : c = d := Option.some.inj (hc.symm.trans hd)
    obtain ⟨hnext, hcounted⟩ := hsubmit.transition hbusy t (s := s)
    rw [htransition] at hnext hcounted
    rw [hnone hcounted, List.append_nil]
    exact ⟨hcounted ▸ h.listed, Or.inl ⟨done, later, hsplit, hrest, hmine, c', hthread, hnext⟩⟩
  · obtain rfl : c = d := Option.some.inj (hc.symm.trans hd)
    obtain ⟨wait, hwait, hsince⟩ := hawaits.resolve_right fun hidle => hbusy hidle.1
    obtain ⟨hnext, hcounted⟩ := PoolState.transition_of_wait? hwait t .proceed (s := s)
    rw [htransition] at hnext hcounted
    rw [hnone hcounted, List.append_nil]
    refine ⟨hcounted ▸ h.listed, Or.inr ⟨hrest, hmine, c', hthread, hnext.imp ?_ ?_⟩⟩
    · exact fun hsame => ⟨wait, hsame, hsince⟩
    · rintro ⟨hend, hidle⟩
      refine ⟨hidle, fun task htask => s.completed_subset_act a ?_⟩
      exact (hwaits c (List.mem_of_getElem? hc)).drained wait hend task (h.listed.subset htask)
        (hsince task htask)

/-- Whatever the other threads do. -/
theorem Follows.keeps (h : Follows t s₀ (submitAndWait submissions) s rest mine)
    (hlocated : s₀.Located) (hwaits : ∀ c ∈ s₀.threads, s₀.Waits c)
    (hidle : s₀.threads[t]? = some .idle) : Keeps t submissions s rest mine := by
  induction h with
  | start =>
    exact ⟨List.nil_sublist _, Or.inl ⟨[], submissions, rfl, rfl, rfl, _, hidle, trivial⟩⟩
  | other _ hu hstep ih => exact ih.other hu hstep
  | call hrun hidle hstep ih => exact ih.call (hlocated.run hrun.run) hidle hstep
  | proceed hrun hc hbusy hstep ih =>
    exact ih.proceed (PoolState.Waits.run hrun.run hlocated hwaits) hc hbusy hstep

/-- The thread has left the loop of its wait: it is about to throw or return, or has done so. -/
def PoolState.Ended (s : PoolState) (t : ℕ) : Prop :=
  s.threads[t]? = some .idle ∨ ∃ wait, s.threads[t]? = some (.rethrowing wait)

/-- When the wait of a thread has ended, the tasks counted for it are those it submitted, in order, and
each of them is complete and has run once. -/
theorem Follows.complete (h : Follows t s₀ (submitAndWait submissions) s [] mine)
    (hlocated : s₀.Located) (hwaits : ∀ c ∈ s₀.threads, s₀.Waits c)
    (hidle : s₀.threads[t]? = some .idle) (hend : s.Ended t) :
    mine.map Task.invocations = submissions.map Submission.invocations ∧ mine.Nodup ∧
      ∀ task ∈ mine, task ∈ s.completed ∧ s.runs.count task = 1 := by
  have hkeeps := h.keeps hlocated hwaits hidle
  have hlocated' := hlocated.run h.run
  have hwaits' := PoolState.Waits.run h.run hlocated hwaits
  rcases hkeeps.phase with ⟨done, later, -, hrest, -⟩ | ⟨-, hmine, c, hc, hawaits⟩
  · rw [submitAndWait] at hrest
    exact absurd hrest.symm (List.append_ne_nil_of_right_ne_nil _ (List.cons_ne_nil _ _))
  · have hcomplete : ∀ task ∈ mine, task ∈ s.completed := by
      rcases hawaits with ⟨wait, hwait, hsince⟩ | ⟨-, hdone⟩
      · rcases hend with hreturned | ⟨wait', hthrowing⟩
        · obtain rfl := Option.some.inj (hc.symm.trans hreturned)
          exact absurd hwait (Option.some_ne_none wait).symm
        · obtain rfl := Option.some.inj (hc.symm.trans hthrowing)
          obtain rfl := Option.some.inj hwait
          exact fun task htask => (hwaits' _ (List.mem_of_getElem? hc)).drained _ rfl task
            (hkeeps.listed.subset htask) (hsince task htask)
      · exact hdone
    refine ⟨hmine, hkeeps.listed.nodup hlocated'.nodup, fun task htask => ?_⟩
    exact ⟨hcomplete task htask, List.count_eq_one_of_mem hlocated'.runs_nodup
      (hlocated'.ran_of_completed (hcomplete task htask))⟩

end VeloGraphX
