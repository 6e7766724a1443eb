import Mathlib
import VeloGraphX.Lib.FuelLoop

/-!
# Runs that log events

A run with fuel is executed together with a log of events. The log outlives a run whose fuel ends,
so it tells of runs without a result too, and it does not change what the run does. `Obeys` says
that all events of a run are allowed and that its result, if there is one, satisfies a postcondition.
-/

namespace FuelLoop

variable {ε σ α β : Type*}

/-- The events of a run and its result. -/
structure Logged (ε α : Type*) where
  events : List ε
  result : Option α

namespace Logged

/-- A run without events. -/
def silent (run : Option α) : Logged ε α := ⟨[], run⟩

/-- A run that is one event. -/
def call (event : ε) (run : Option α) : Logged ε α := ⟨[event], run⟩

/-- The second run starts from the result of the first, and its events come after. -/
def bind (run : Logged ε α) (next : α → Logged ε β) : Logged ε β :=
  match run.result with
  | none => ⟨run.events, none⟩
  | some a => ⟨run.events ++ (next a).events, (next a).result⟩

/-- Post-processing has no events. -/
def map (f : α → β) (run : Logged ε α) : Logged ε β := ⟨run.events, run.result.map f⟩

@[simp] theorem silent_result (run : Option α) : (silent run : Logged ε α).result = run := rfl

@[simp] theorem call_result (event : ε) (run : Option α) : (call event run).result = run := rfl

@[simp] theorem bind_result (run : Logged ε α) (next : α → Logged ε β) :
    (run.bind next).result = run.result.bind fun a => (next a).result := by
  unfold bind
  cases run.result with
  | none => rfl
  | some a => rfl

@[simp] theorem map_result (f : α → β) (run : Logged ε α) :
    (run.map f).result = run.result.map f := rfl

/-- Every event is allowed, and a result satisfies the postcondition. -/
structure Obeys (allowed : ε → Prop) (run : Logged ε α) (post : α → Prop) : Prop where
  events : ∀ event ∈ run.events, allowed event
  result : ∀ a, run.result = some a → post a

variable {allowed : ε → Prop} {post post' : α → Prop}

/-- A run without events obeys whatever its result satisfies. -/
theorem Obeys.silent {run : Option α} (h : ∀ a, run = some a → post a) :
    Obeys allowed (Logged.silent run) post :=
  ⟨fun _ hevent => absurd hevent List.not_mem_nil, h⟩

/-- So does a value. -/
theorem Obeys.pure {a : α} (h : post a) : Obeys allowed (Logged.silent (some a)) post :=
  .silent fun _ heq => Option.some.inj heq ▸ h

/-- A run that is one event obeys when the event is allowed. -/
theorem Obeys.call {event : ε} (hevent : allowed event) {run : Option α}
    (h : ∀ a, run = some a → post a) : Obeys allowed (Logged.call event run) post :=
  ⟨fun _ hmem => List.mem_singleton.mp hmem ▸ hevent, h⟩

/-- A weaker postcondition. -/
theorem Obeys.mono {run : Logged ε α} (h : Obeys allowed run post) (himp : ∀ a, post a → post' a) :
    Obeys allowed run post' :=
  ⟨h.events, fun a ha => himp a (h.result a ha)⟩

/-- A result is what the run without the log returns, if that does not starve. -/
theorem Obeys.returns {run : Logged ε α} (h : Obeys allowed run post) {source : ℕ → Option α}
    {fuel : ℕ} (hsource : run.result = source fuel) (hsteady : Steady source)
    (hends : Returns source post' ∨ Starves source) :
    Obeys allowed run fun a => post a ∧ post' a := by
  refine ⟨h.events, fun a ha => ⟨h.result a ha, ?_⟩⟩
  rw [hsource] at ha
  rcases hends with hreturns | hstarves
  · exact hreturns.of_steady hsteady ha
  · exact absurd (ha.symm.trans (hstarves.diverges hsteady fuel)) (Option.some_ne_none a)

/-- Sequencing: the second run obeys from what the first one leaves. -/
theorem Obeys.bind {run : Logged ε α} {next : α → Logged ε β} {last : β → Prop}
    (h : Obeys allowed run post) (hnext : ∀ a, post a → Obeys allowed (next a) last) :
    Obeys allowed (run.bind next) last := by
  obtain ⟨events, result⟩ := run
  cases result with
  | none => exact ⟨h.events, fun b hb => absurd hb.symm (Option.some_ne_none b)⟩
  | some a =>
    have hafter := hnext a (h.result a rfl)
    refine ⟨fun event hevent => ?_, hafter.result⟩
    rcases List.mem_append.mp hevent with hfirst | hsecond
    · exact h.events event hfirst
    · exact hafter.events event hsecond

/-- Post-processing. -/
theorem Obeys.map {run : Logged ε α} {f : α → β} {last : β → Prop}
    (h : Obeys allowed run fun a => last (f a)) : Obeys allowed (run.map f) last := by
  refine ⟨h.events, fun b hb => ?_⟩
  obtain ⟨a, ha, rfl⟩ := Option.map_eq_some_iff.mp hb
  exact h.result a ha

/-- Run a body that logs over a list. -/
def fold (body : σ → α → Logged ε σ) : List α → σ → Logged ε σ
  | [], s => silent (some s)
  | a :: rest, s => (body s a).bind (fold body rest)

/-- The log does not change what the fold does. -/
theorem fold_result {body : σ → α → Logged ε σ} {source : σ → α → Option σ}
    (hbody : ∀ s a, (body s a).result = source s a) (list : List α) (s : σ) :
    (fold body list s).result = foldRun source list s := by
  induction list generalizing s with
  | nil => rfl
  | cons a rest ih =>
    rw [fold, foldRun, bind_result, hbody]
    exact congrArg _ (funext ih)

/-- The fold rule. -/
theorem obeys_fold {body : σ → α → Logged ε σ} (inv : σ → Prop) {list : List α}
    (hbody : ∀ a ∈ list, ∀ s, inv s → Obeys allowed (body s a) inv) {s : σ} (hs : inv s) :
    Obeys allowed (fold body list s) inv := by
  induction list generalizing s with
  | nil => exact .pure hs
  | cons a rest ih =>
    refine (hbody a List.mem_cons_self s hs).bind fun t ht => ?_
    exact ih (fun b hb => hbody b (List.mem_cons_of_mem a hb)) ht

/-- Run a body that logs while the condition holds. -/
def loop (cond : σ → Bool) (body : ℕ → σ → Logged ε σ) : ℕ → σ → Logged ε σ
  | 0, _ => silent none
  | fuel + 1, s =>
    if cond s then (body fuel s).bind (loop cond body fuel) else silent (some s)

/-- The log does not change what the loop does. -/
theorem loop_result {cond : σ → Bool} {body : ℕ → σ → Logged ε σ} {source : ℕ → σ → Option σ}
    (hbody : ∀ fuel s, (body fuel s).result = source fuel s) (fuel : ℕ) (s : σ) :
    (loop cond body fuel s).result = whileLoop cond source fuel s := by
  induction fuel generalizing s with
  | zero => rfl
  | succ fuel ih =>
    rw [loop, whileLoop]
    split
    · rw [bind_result, hbody]
      exact congrArg _ (funext ih)
    · rfl

/-- The loop rule. -/
theorem obeys_loop {cond : σ → Bool} {body : ℕ → σ → Logged ε σ} (inv : σ → Prop)
    (hbody : ∀ fuel s, inv s → cond s = true → Obeys allowed (body fuel s) inv) (fuel : ℕ) {s : σ}
    (hs : inv s) : Obeys allowed (loop cond body fuel s) inv := by
  induction fuel generalizing s with
  | zero => exact .silent fun a ha => absurd ha.symm (Option.some_ne_none a)
  | succ fuel ih =>
    rw [loop]
    split
    · rename_i hcond
      exact (hbody fuel s hs hcond).bind fun t ht => ih ht
    · exact .pure hs

section Counter

variable {N : ℕ} [NeZero N]

/-- The counting loop with a body that logs. -/
def count (bound : ℕ) (body : ℕ → Fin N → σ → Logged ε σ) (fuel : ℕ) (first : Fin N) (s : σ) :
    Logged ε σ :=
  (loop (fun state => decide (state.1.val < bound))
    (fun fuel state => (body fuel state.1 state.2).map fun s => (state.1 + 1, s)) fuel
    (first, s)).map Prod.snd

/-- The log does not change what the counting loop does. -/
theorem count_result {bound : ℕ} {body : ℕ → Fin N → σ → Logged ε σ}
    {source : ℕ → Fin N → σ → Option σ} (hbody : ∀ fuel i s, (body fuel i s).result = source fuel i s)
    (fuel : ℕ) (first : Fin N) (s : σ) :
    (count bound body fuel first s).result = countLoop bound source fuel first s := by
  rw [count, countLoop, map_result]
  refine congrArg _ (loop_result (fun fuel state => ?_) fuel (first, s))
  rw [map_result, hbody]

/-- The rule of the counting loop. -/
theorem obeys_count {bound : ℕ} {body : ℕ → Fin N → σ → Logged ε σ} (inv : σ → Prop)
    (hbody : ∀ fuel (i : Fin N) s, i.val < bound → inv s → Obeys allowed (body fuel i s) inv)
    (fuel : ℕ) (first : Fin N) {s : σ} (hs : inv s) :
    Obeys allowed (count bound body fuel first s) inv := by
  refine Obeys.map (obeys_loop (fun state : Fin N × σ => inv state.2)
    (fun fuel state hinv hcond => ?_) fuel hs)
  exact Obeys.map (hbody fuel state.1 state.2 (of_decide_eq_true hcond) hinv)

end Counter

end Logged

end FuelLoop
